import Lox.Proofs.Program.Ordered

/-!
# Where mistakes are placed

A mistake is placed on the line of the token read last, of the next token, or of a token that was
passed before; where there is no such token, on the line of the end. All of them are lines that the
cursor has in view at the start, so that every mistake found in a list of tokens is on the line of
one of its tokens (`Parsed.line_of_mem_errors`).
-/

namespace Lox

/-- The mistakes that come of reading, the one that stopped it as the last. -/
def Readout.mistakes {α : Type} : Readout α → List GrammarError
  | read _ _ reports => reports
  | broken e _ reports => reports ++ [e]

@[simp]
theorem Readout.mistakes_note {α : Type} (r : Readout α) (reports : List GrammarError) :
    (r.note reports).mistakes = reports ++ r.mistakes := by
  cases r with
  | read x s own => rfl
  | broken e s own => exact List.append_assoc ..

namespace Cursor

variable {s s' : Cursor} {L : Nat → Prop}

theorem lastLine_mem_lines (s : Cursor) : s.lastLine ∈ s.lines :=
  List.mem_cons_self

theorem line_mem_lines (s : Cursor) : s.line ∈ s.lines := by
  unfold line lines
  split
  · next t ts hrest => simp [hrest]
  · simp

theorem lines_skip_subset (s : Cursor) : s.skip.lines ⊆ s.lines := by
  unfold Cursor.skip lines
  split
  · next t ts hrest =>
    rw [hrest]
    exact List.subset_cons_self _ _
  · exact List.Subset.refl _

/-- Passing tokens brings no further line into view. -/
theorem Moves.lines_subset (hm : s.Moves s') : s'.lines ⊆ s.lines := by
  induction hm with
  | refl => exact List.Subset.refl _
  | tail _ hs ih =>
    subst hs
    exact List.Subset.trans (lines_skip_subset _) ih

end Cursor

/-! ### Readings -/

/-- **Mistakes are placed on lines in view**, or on tokens that were seen before. -/
theorem Script.Yields.line_of_mem_mistakes {n : Nat} {c : Context} {α : Type} {p : Script α}
    {s : Cursor} {r : Readout α} {L : Nat → Prop} (h : Yields n c p s r) {seen : List Token}
    (hp : p.Calm seen) (hs : ∀ l ∈ s.lines, L l) (hseen : ∀ t ∈ seen, L t.line) :
    ∀ e ∈ r.mistakes, L e.line := by
  induction h generalizing seen with
  | done => exact List.forall_mem_nil _
  | @found n c α p found absent s t ts r hrest ht h ih =>
    have hskip : ∀ l ∈ s.skip.lines, L l := fun l hl => hs l (s.lines_skip_subset hl)
    refine ih (hp.1 t) hskip (List.forall_mem_cons.mpr ⟨hskip t.line ?_, hseen⟩)
    rw [← Cursor.lastLine_skip hrest]
    exact s.skip.lastLine_mem_lines
  | absent _ _ ih => exact ih hp.2 hs hseen
  | look _ _ ih => exact ih (hp.1 _) hs hseen
  | stop _ _ ih => exact ih hp.2 hs hseen
  | ask _ ih => exact ih (hp _) hs hseen
  | @report n c α reason spot mistake rest s r _ ih =>
    have hspot : L (spot.line s) := by
      obtain rfl | ⟨rfl, -⟩ := hp.1
      · exact hs _ s.lastLine_mem_lines
      · exact hs _ s.line_mem_lines
    rw [Readout.mistakes_note]
    refine List.forall_mem_append.mpr ⟨?_, ih hp.2 hs hseen⟩
    split
    · exact List.forall_mem_singleton.mpr hspot
    · exact List.forall_mem_nil _
  | @fail n c α spot mistake s =>
    refine List.forall_mem_singleton.mpr ?_
    cases spot with
    | last => exact hs _ s.lastLine_mem_lines
    | next => exact hs _ s.line_mem_lines
    | of t => exact hseen t (hp t rfl).2
  | read _ hj _ ihj ih =>
    rw [Readout.mistakes_note]
    have hs' := fun l hl => hs l (hj.moves.lines_subset hl)
    exact List.forall_mem_append.mpr
      ⟨ihj (Job.calm _) hs (List.forall_mem_nil _), ih (hp _) hs' hseen⟩
  | broken _ _ ihj => exact ihj (Job.calm _) hs (List.forall_mem_nil _)

/-! ### Programs -/

namespace Cursor

/-- The end of a list of tokens that is not empty is on the line of one of them. -/
theorem endLine_ofTokens {ts : List Token} (hts : ts ≠ []) :
    ∃ t ∈ ts, (ofTokens ts).endLine = t.line := by
  unfold ofTokens
  dsimp only
  split
  · next eof hfind => exact ⟨eof, List.mem_of_find?_eq_some hfind, rfl⟩
  · obtain ⟨before, last, rfl⟩ : ∃ before last, ts = before ++ [last] :=
      ⟨_, _, (List.dropLast_concat_getLast hts).symm⟩
    refine ⟨last, List.mem_append_right _ List.mem_cons_self, ?_⟩
    rw [List.getLast?_concat]
    rfl

/-- At the start the lines of the tokens are in view, and no others. -/
theorem exists_line_of_mem_lines {ts : List Token} (hts : ts ≠ []) :
    ∀ l ∈ (ofTokens ts).lines, ∃ t ∈ ts, l = t.line := by
  have hrest : ∀ t ∈ (ofTokens ts).rest, t ∈ ts := fun t ht => List.takeWhile_subset _ ht
  have hend := endLine_ofTokens hts
  have hlast : (ofTokens ts).lastLine =
      ((ofTokens ts).rest.head?.map Token.line).getD (ofTokens ts).endLine := rfl
  refine List.forall_mem_cons.mpr ⟨?_, List.forall_mem_append.mpr ⟨?_, ?_⟩⟩
  · rw [hlast]
    cases hcases : (ofTokens ts).rest with
    | nil => exact hend
    | cons t ts' => exact ⟨t, hrest t (hcases ▸ List.mem_cons_self), rfl⟩
  · intro l hl
    obtain ⟨t, ht, rfl⟩ := List.mem_map.mp hl
    exact ⟨t, hrest t ht, rfl⟩
  · exact List.forall_mem_singleton.mpr hend

end Cursor

namespace Parsed

theorem line_of_mem_errors_ofCursor {L : Nat → Prop} {s : Cursor} (hs : ∀ l ∈ s.lines, L l) :
    ∀ e ∈ (ofCursor s).errors, L e.line := by
  cases hrest : s.rest with
  | nil =>
    rw [ofCursor_of_nil hrest]
    exact List.forall_mem_nil _
  | cons t ts =>
    have hm := Job.declaration.moves .outermost s
    have hmistakes := (Job.declaration.yields .outermost s).line_of_mem_mistakes (Job.calm _) hs
      (List.forall_mem_nil _)
    cases hr : Job.declaration.read .outermost s with
    | read stmt s₁ reports =>
      rw [hr] at hm hmistakes
      have hlt := Job.size_lt_of_read hr
      rw [ofCursor_of_read hr]
      exact List.forall_mem_append.mpr ⟨hmistakes,
        line_of_mem_errors_ofCursor fun l hl => hs l (hm.lines_subset hl)⟩
    | broken e s₁ reports =>
      rw [hr] at hm hmistakes
      have hlt := Cursor.size_recover_lt hrest hm
      rw [ofCursor_of_broken hrest hr]
      exact List.forall_mem_append.mpr ⟨hmistakes, line_of_mem_errors_ofCursor fun l hl =>
        hs l ((Cursor.moves_recover hm).lines_subset hl)⟩
termination_by s.size

/-- **Every mistake is on the line of a token** of the list that it is found in. -/
theorem line_of_mem_errors {ts : List Token} :
    ∀ e ∈ (ofTokens ts).errors, ∃ t ∈ ts, e.line = t.line := by
  by_cases hts : ts = []
  · subst hts
    rw [ofTokens, ofCursor_of_nil rfl]
    exact List.forall_mem_nil _
  · exact line_of_mem_errors_ofCursor (Cursor.exists_line_of_mem_lines hts)

end Parsed

end Lox
