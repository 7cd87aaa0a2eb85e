import Lox.Proofs.Token.Munch
import Lox.Proofs.Token.Scanned

/-!
# How tokens are spelled

The text of a token goes with its kind: a symbol is spelled as it should be, an identifier is a name
that is no reserved word, and a number is the value of a run of digits
(`spelledBy_of_mem_tokensWithoutEnd`).
-/

namespace Lox

/-- A text is an **identifier** when it starts and goes on like a name and is no reserved word. -/
structure IsIdentifier (text : String) : Prop where
  /-- The text starts like a name and goes on like one. -/
  name : ∃ c cs, text.toList = c :: cs ∧ startsName c = true ∧ ∀ d ∈ cs, continuesName d = true
  /-- The text is no reserved word. -/
  not_word : Symbol.ofWord? text = none

/-- A kind of token is spelled by a text. -/
def Kind.SpelledBy (text : String) : Kind → Prop
  | symbol x => text = x.spelling
  | identifier => IsIdentifier text
  | number value => ∃ digits, value = Decimal.ofDigits digits
  | string _ | eof => True

namespace Piece

/-- If the piece is a token, its text spells its kind. -/
def IsSpelled (p : Piece) : Prop :=
  ∀ kind, p.content = .token kind → kind.SpelledBy (String.ofList p.text)

theorem isSpelled_token {text : List Char} {kind : Kind} (h : kind.SpelledBy (String.ofList text)) :
    IsSpelled ⟨text, .token kind⟩ := by
  rintro kind' hkind
  obtain rfl := Content.token.inj hkind
  exact h

theorem isSpelled_of_ne {text : List Char} {content : Content} (h : ∀ kind, content ≠ .token kind) :
    IsSpelled ⟨text, content⟩ :=
  fun kind hkind => absurd hkind (h kind)

theorem isSpelled_string (rest : List Char) : (string rest).1.IsSpelled := by
  unfold string
  dsimp only
  split
  · exact isSpelled_token trivial
  · exact isSpelled_of_ne (by rintro _ ⟨⟩)

theorem isSpelled_mark (c : Char) (rest : List Char) : (mark c rest).1.IsSpelled := by
  have hsingle : (mark.single c rest).1.IsSpelled := by
    unfold mark.single
    split
    · rename_i hsymbol
      refine isSpelled_token (String.toList_inj.mp ?_)
      rw [(Symbol.spelling_of_ofChar hsymbol).2, String.toList_ofList]
    · exact isSpelled_of_ne (by rintro _ ⟨⟩)
  unfold mark
  split
  · split
    · rename_i hsymbol
      refine isSpelled_token (String.toList_inj.mp ?_)
      rw [(Symbol.spelling_of_ofPair hsymbol).2, String.toList_ofList]
    · exact hsingle
  · exact hsingle

theorem isSpelled_blockComment (rest : List Char) : (blockComment rest).1.IsSpelled := by
  unfold blockComment
  split <;> exact isSpelled_of_ne (by rintro _ ⟨⟩)

theorem spelledBy_ofName {c : Char} {text : List Char} (hc : startsName c = true)
    (htext : ∀ d ∈ text, continuesName d = true) :
    (Kind.ofName (c :: text)).SpelledBy (String.ofList (c :: text)) := by
  unfold Kind.ofName
  split
  · rename_i hword
    exact (Symbol.spelling_of_ofWord hword).symm
  · rename_i hword
    exact ⟨⟨c, text, String.toList_ofList, hc, htext⟩, hword⟩

theorem isSpelled_cut (c : Char) (rest : List Char) : (cut c rest).1.IsSpelled := by
  unfold cut
  split
  · exact isSpelled_of_ne (by rintro _ ⟨⟩)
  split
  · exact isSpelled_string rest
  split
  · exact isSpelled_token ⟨_, rfl⟩
  split
  · rename_i hc
    exact isSpelled_token (spelledBy_ofName hc fun d hd => List.mem_takeWhile_imp hd)
  split
  · exact isSpelled_of_ne (by rintro _ ⟨⟩)
  split
  · exact isSpelled_blockComment _
  · exact isSpelled_mark c rest

end Piece

/-- **The text of a token spells its kind.** -/
theorem spelledBy_of_mem_tokensWithoutEnd {p : String} :
    ∀ t ∈ tokensWithoutEnd p, t.kind.SpelledBy t.lexeme := by
  intro t ht
  obtain ⟨item, hitem, hsome⟩ := List.mem_filterMap.mp ht
  cases item with
  | token t' =>
    obtain rfl := Option.some.inj hsome
    obtain ⟨piece, hpiece, hcontent, hlexeme⟩ := Item.exists_piece_of_mem 1 hitem
    obtain ⟨c, rest, rfl⟩ := Piece.exists_cut_of_mem hpiece
    rw [hlexeme]
    exact Piece.isSpelled_cut c rest _ hcontent
  | fault e => cases hsome

end Lox
