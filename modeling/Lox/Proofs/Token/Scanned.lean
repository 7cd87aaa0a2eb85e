import Lox.Token.Scan

/-!
# The tokens of a text

The tokens of a text are symbols, strings, numbers and names, and the end of the input behind them
(`tokens_eq_append`), and a name is never spelled like a reserved word (`cut_of_mem_tokens`).
-/

namespace Lox

/-- The kinds that a piece of a text may have: a name is no reserved word, and no piece is the end
of the input. -/
def Kind.Cut (lexeme : String) : Kind → Prop
  | .symbol _ | .string _ | .number _ => True
  | .identifier => Symbol.ofWord? lexeme = none
  | .eof => False

theorem Kind.cut_ofName (text : List Char) : (Kind.ofName text).Cut (String.ofList text) := by
  unfold Kind.ofName
  split
  · trivial
  · assumption

namespace Piece

/-- If the piece is a token, it has one of these kinds. -/
def CutKind (p : Piece) : Prop :=
  ∀ kind, p.content = .token kind → kind.Cut (String.ofList p.text)

theorem cutKind_of_content {text : List Char} {kind : Kind} (h : kind.Cut (String.ofList text)) :
    CutKind ⟨text, .token kind⟩ := by
  rintro kind' hkind
  obtain rfl := Content.token.inj hkind
  exact h

theorem cutKind_string (rest : List Char) : (string rest).1.CutKind := by
  unfold string
  dsimp only
  split
  · exact cutKind_of_content trivial
  · exact nofun

theorem cutKind_mark (c : Char) (rest : List Char) : (mark c rest).1.CutKind := by
  have hsingle : (mark.single c rest).1.CutKind := by
    unfold mark.single
    split
    · exact cutKind_of_content trivial
    · exact nofun
  unfold mark
  split
  · split
    · exact cutKind_of_content trivial
    · exact hsingle
  · exact hsingle

theorem cutKind_blockComment (rest : List Char) : (blockComment rest).1.CutKind := by
  unfold blockComment
  split <;> exact nofun

theorem cutKind_cut (c : Char) (rest : List Char) : (cut c rest).1.CutKind := by
  unfold cut
  split
  · exact nofun
  split
  · exact cutKind_string rest
  split
  · exact cutKind_of_content trivial
  split
  · exact cutKind_of_content (Kind.cut_ofName _)
  split
  · exact nofun
  split
  · exact cutKind_blockComment _
  · exact cutKind_mark c rest

/-- A piece of a text was cut off what was left of it. -/
theorem exists_cut_of_mem {text : List Char} {p : Piece} (h : p ∈ pieces text) :
    ∃ c rest, p = (cut c rest).1 := by
  fun_induction pieces text with
  | case1 => cases h
  | case2 c rest ih =>
    obtain rfl | h := List.mem_cons.mp h
    · exact ⟨c, rest, rfl⟩
    · exact ih h

theorem cutKind_of_mem_pieces (text : List Char) : ∀ p ∈ pieces text, p.CutKind := by
  intro p hp
  obtain ⟨c, rest, rfl⟩ := exists_cut_of_mem hp
  exact cutKind_cut c rest

end Piece

namespace Item

/-- The number of newlines in pieces. -/
def newlines (ps : List Piece) : Nat :=
  (ps.flatMap Piece.text).count '\n'

/-- The items of pieces that start on a line, without the end of the input. -/
def withoutEnd (line : Nat) : List Piece → List Item
  | [] => []
  | p :: ps => (ofPiece? (line + p.text.count '\n') p).toList ++
      withoutEnd (line + p.text.count '\n') ps

theorem ofPieces_append (line : Nat) (ps qs : List Piece) :
    ofPieces line (ps ++ qs) = withoutEnd line ps ++ ofPieces (line + newlines ps) qs := by
  induction ps generalizing line with
  | nil => rfl
  | cons p ps ih =>
    have hline : line + newlines (p :: ps) = line + p.text.count '\n' + newlines ps := by
      rw [newlines, List.flatMap_cons, List.count_append, Nat.add_assoc]
      rfl
    rw [List.cons_append, ofPieces, ih, withoutEnd, hline, List.append_assoc]
    cases ofPiece? (line + p.text.count '\n') p <;> rfl

/-- The tokens without the end of the input come from pieces. -/
theorem exists_piece_of_mem (line : Nat) {ps : List Piece} {t : Token}
    (h : .token t ∈ withoutEnd line ps) :
    ∃ p ∈ ps, p.content = .token t.kind ∧ t.lexeme = String.ofList p.text := by
  induction ps generalizing line with
  | nil => exact nomatch h
  | cons p ps ih =>
    obtain h | h := List.mem_append.mp h
    · rw [Option.mem_toList, ofPiece?] at h
      split at h
      · exact nomatch h
      · rename_i kind hcontent
        obtain rfl := Item.token.inj (Option.some.inj h)
        exact ⟨p, List.mem_cons_self, hcontent, rfl⟩
      · exact nomatch h
    · obtain ⟨p', hp', hpiece⟩ := ih _ h
      exact ⟨p', List.mem_cons_of_mem _ hp', hpiece⟩

end Item

theorem scan_eq_withoutEnd (p : String) : scan p = Item.withoutEnd 1 (pieces p.toList) ++
    [.token ⟨.eof, "", 1 + Item.newlines (pieces p.toList)⟩] := by
  have happend := Item.ofPieces_append 1 (pieces p.toList) []
  rwa [List.append_nil] at happend

/-- The tokens of a text without the end of the input. -/
def tokensWithoutEnd (p : String) : List Token :=
  (Item.withoutEnd 1 (pieces p.toList)).filterMap Item.token?

theorem tokens_eq_append (p : String) :
    ∃ eof, eof.kind = .eof ∧ eof.lexeme = "" ∧ tokens p = tokensWithoutEnd p ++ [eof] := by
  refine ⟨⟨.eof, "", 1 + Item.newlines (pieces p.toList)⟩, rfl, rfl, ?_⟩
  rw [tokens, scan_eq_withoutEnd, List.filterMap_append]
  rfl

/-- **The kinds of the tokens of a text**: none but the last is the end of the input, and no name is
spelled like a reserved word. -/
theorem cut_of_mem_tokens {p : String} : ∀ t ∈ tokensWithoutEnd p, t.kind.Cut t.lexeme := by
  intro t ht
  obtain ⟨item, hitem, hsome⟩ := List.mem_filterMap.mp ht
  cases item with
  | token t' =>
    obtain rfl := Option.some.inj hsome
    obtain ⟨piece, hpiece, hcontent, hlexeme⟩ := Item.exists_piece_of_mem 1 hitem
    rw [hlexeme]
    exact Piece.cutKind_of_mem_pieces p.toList piece hpiece _ hcontent
  | fault e => exact nomatch hsome

end Lox
