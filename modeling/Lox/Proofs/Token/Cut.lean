import Lox.Proofs.Token.Joined
import Mathlib.Data.List.TakeWhile

/-!
# What is cut off a text

A piece that is cut off a text is a gap, a token or a fault. A gap is white space or a whole comment
(`Skipped`), the text of a token is the spelling of its kind (`Kind.Spells`), and of all pieces only
gaps and comments that are never closed reach over the end of a line (`Piece.fits_cut`).
-/

namespace Lox

/-- Text that stands for nothing, in front of other text: white space, comments up to the end of
their line, and comments that are closed where `*/` comes first. -/
inductive Skipped : List Char → List Char → Prop where
  /-- No text. -/
  | nothing {rest : List Char} : Skipped [] rest
  /-- A white space character. -/
  | blank {c : Char} {gap rest : List Char} (hc : Text.isBlank c = true)
      (hgap : Skipped gap rest) : Skipped (c :: gap) rest
  /-- A comment up to a newline or the end of the text. -/
  | lineComment {body gap rest : List Char} (hbody : '\n' ∉ body)
      (hend : ∀ c ∈ (gap ++ rest).head?, c = '\n') (hgap : Skipped gap rest) :
      Skipped ('/' :: '/' :: body ++ gap) rest
  /-- A closed comment. -/
  | blockComment {body gap rest : List Char} (hbody : ¬ ['*', '/'] <:+: body ++ ['*'])
      (hgap : Skipped gap rest) : Skipped ('/' :: '*' :: body ++ '*' :: '/' :: gap) rest

/-- A text is the spelling of a kind: a string stands between quotes, and a number has the value of
its digits. The end of the input has no text. -/
def Kind.Spells (text : List Char) : Kind → Prop
  | .symbol _ | .identifier => True
  | .string inside => text = '"' :: inside.toList ++ ['"']
  | .number value => value = Decimal.ofDigits text
  | .eof => False

theorem Kind.spells_ofName (text : List Char) : (Kind.ofName text).Spells text := by
  unfold Kind.ofName
  split <;> trivial

/-- The end of the input is alike only to itself. -/
theorem Kind.eq_eof_iff_of_alike {k k' : Kind} (halike : k.alike k' = true) :
    k = .eof ↔ k' = .eof := by
  cases k <;> cases k' <;> simp_all [Kind.alike]

/-- Kinds that are alike and have the same spelling are the same. -/
theorem Kind.Spells.eq_of_alike {text : List Char} {k k' : Kind} (h : k.Spells text)
    (h' : k'.Spells text) (halike : k.alike k' = true) : k' = k := by
  cases k <;> cases k' <;> simp only [Kind.alike, Bool.false_eq_true, beq_iff_eq] at halike
  case symbol.symbol s t => rw [halike]
  case identifier.identifier => rfl
  case string.string s t =>
    have hinside : s.toList = t.toList := by simpa using h.symm.trans h'
    rw [String.ext hinside]
  case number.number x y => rw [h.trans h'.symm]
  case eof.eof => rfl

namespace Piece

/-- What holds of a piece that is cut off in front of other text. -/
def Fits (p : Piece) (behind : List Char) : Prop :=
  match p.content with
  | .gap => ∀ gap rest, behind = gap ++ rest → Skipped gap rest → Skipped (p.text ++ gap) rest
  | .token kind => '\n' ∉ p.text ∧ kind.Spells p.text
  | .fault .openComment => behind = []
  | .fault _ => '\n' ∉ p.text

/-! ### Comments -/

/-- A comment ends where `*/` comes first. -/
theorem exists_of_commentEnd {text : List Char} {n : Nat} (h : commentEnd? text = some n) :
    ∃ body rest, text = body ++ '*' :: '/' :: rest ∧ n = body.length + 2 ∧
      ¬ ['*', '/'] <:+: body ++ ['*'] := by
  suffices hgo : ∀ k, commentEnd?.go k text = some n → ∃ body rest,
      text = body ++ '*' :: '/' :: rest ∧ n = k + body.length + 2 ∧
        ¬ ['*', '/'] <:+: body ++ ['*'] by
    obtain ⟨body, rest, htext, hn, hbody⟩ := hgo 0 h
    exact ⟨body, rest, htext, by omega, hbody⟩
  clear h
  intro k
  fun_induction commentEnd?.go k text with
  | case1 k rest =>
    intro hn
    obtain rfl := Option.some.inj hn
    exact ⟨[], rest, rfl, by simp, by decide⟩
  | case2 k c rest hne ih =>
    intro hn
    obtain ⟨body, rest', rfl, rfl, hbody⟩ := ih hn
    refine ⟨c :: body, rest', rfl, by simp only [List.length_cons]; omega, fun hinfix => ?_⟩
    rcases List.infix_cons_iff.mp hinfix with hprefix | hinfix
    -- A `*/` at the start would have been the end.
    · rw [List.cons_prefix_cons] at hprefix
      obtain ⟨rfl, hslash⟩ := hprefix
      cases body with
      | nil => simp at hslash
      | cons d body =>
        obtain ⟨rfl, -⟩ := List.cons_prefix_cons.mp hslash
        exact hne _ rfl rfl
    · exact hbody hinfix
  | case3 k => simp

theorem fits_blockComment (rest : List Char) :
    (blockComment rest).1.Fits (blockComment rest).2 := by
  unfold blockComment
  cases hn : commentEnd? rest with
  | none => rfl
  | some n =>
    obtain ⟨body, behind, rfl, rfl, hbody⟩ := exists_of_commentEnd hn
    have htake : (body ++ '*' :: '/' :: behind).take (body.length + 2) = body ++ ['*', '/'] := by
      rw [List.take_length_add_append]
      rfl
    have hdrop : (body ++ '*' :: '/' :: behind).drop (body.length + 2) = behind := by
      rw [List.drop_length_add_append]
      rfl
    intro gap rest hbehind hgap
    have htext : ('/' :: '*' :: (body ++ ['*', '/'])) ++ gap =
        '/' :: '*' :: body ++ '*' :: '/' :: gap := by simp
    dsimp only
    rw [htake, htext]
    exact .blockComment hbody hgap

theorem not_mem_takeWhile {p : Char → Bool} {c : Char} (hc : p c = false) (text : List Char) :
    c ∉ text.takeWhile p := by
  intro hmem
  have hp := List.mem_takeWhile_imp hmem
  rw [hc] at hp
  exact Bool.false_ne_true hp

theorem fits_lineComment {rest : List Char} (h : rest.head? = some '/') :
    (lineComment rest).1.Fits (lineComment rest).2 := by
  obtain ⟨rest, rfl⟩ := List.head?_eq_some_iff.mp h
  intro gap behind hbehind hgap
  have hbody : '\n' ∉ rest.takeWhile (· != '\n') := not_mem_takeWhile rfl rest
  have hend : ∀ c ∈ (gap ++ behind).head?, c = '\n' := by
    intro c hc
    have hhead : (rest.dropWhile (· != '\n')).head? = some c := by
      rw [← Option.mem_def.mp hc, ← hbehind]
      rfl
    have hnot := List.head?_dropWhile_not (· != '\n') rest
    rw [hhead] at hnot
    simpa using hnot
  exact .lineComment hbody hend hgap

/-! ### Tokens and other faults -/

/-- A run of characters none of which is a newline. -/
theorem fits_run {p : Char → Bool} (hp : p '\n' = false) {c : Char} (hc : c ≠ '\n')
    (rest : List Char) {kind : List Char → Kind} (hkind : ∀ text, (kind text).Spells text) :
    (run p c rest fun text => .token (kind text)).1.Fits
      (run p c rest fun text => .token (kind text)).2 :=
  ⟨List.not_mem_cons_of_ne_of_not_mem hc.symm (not_mem_takeWhile hp rest), hkind _⟩

theorem fits_string (rest : List Char) : (string rest).1.Fits (string rest).2 := by
  have hinside : '\n' ∉ rest.takeWhile (fun c => c != '"' && c != '\n') :=
    not_mem_takeWhile rfl rest
  unfold string
  dsimp only
  split
  · exact ⟨by simpa using hinside, by rw [Kind.Spells, String.toList_ofList]⟩
  · exact List.not_mem_cons_of_ne_of_not_mem (by decide) hinside

theorem fits_mark {c : Char} (hc : c ≠ '\n') (rest : List Char) :
    (mark c rest).1.Fits (mark c rest).2 := by
  have hsingle (rest : List Char) : (mark.single c rest).1.Fits (mark.single c rest).2 := by
    unfold mark.single
    split
    · exact ⟨by simpa using hc.symm, trivial⟩
    · exact List.not_mem_cons_of_ne_of_not_mem hc.symm List.not_mem_nil
  unfold mark
  split
  · rename_i d rest
    split
    · rename_i s hs
      have hd : d ≠ '\n' := by
        rintro rfl
        revert hs
        unfold Symbol.ofPair?
        split <;> simp_all
      exact ⟨by simp [hc.symm, hd.symm], trivial⟩
    · exact hsingle _
  · exact hsingle _

/-- The first piece of a text. -/
theorem fits_cut (c : Char) (rest : List Char) : (cut c rest).1.Fits (cut c rest).2 := by
  have hname : continuesName '\n' = false := by decide
  have hblank : Text.isBlank '\n' = true := by decide
  unfold cut
  split
  · rename_i hc
    exact fun gap rest hbehind hgap => .blank hc hgap
  rename_i hc
  have hnewline : c ≠ '\n' := by
    rintro rfl
    exact hc hblank
  split
  · exact fits_string rest
  split
  · exact fits_run rfl hnewline rest fun text => rfl
  split
  · exact fits_run hname hnewline rest Kind.spells_ofName
  split
  · rename_i h
    exact fits_lineComment h.2
  split
  · exact fits_blockComment rest.tail
  · exact fits_mark hnewline rest

end Piece

end Lox
