import Lox.Proofs.Program.Fresh
import Lox.Proofs.Program.Phrase

/-!
# The order of the mistakes

Where the lines of the tokens never decrease, the mistakes come nearly in the order of their lines.
Two kinds of mistake may stand behind one of a later line. The target of an assignment is judged
when the right side was read, and a mistake in it is placed on the `=`; there may be reports from
the right side before it. And where one parameter too many is to come but the name is missing, the
number is reported on the line of the next token and the name on the line of the token before it.
Nothing else is out of order (`mistakes_inOrder`).
-/

namespace Lox

/-! ### Lists of mistakes -/

/-- The mistakes come in the order of their lines, but for targets of assignments and for a name
missing right behind the report that there are too many parameters. -/
def InOrder (es : List GrammarError) : Prop :=
  ∀ i j, (hij : i < j) → (hj : j < es.length) → es[i].line ≤ es[j].line ∨
    es[j].mistake = .badTarget ∨
    j = i + 1 ∧ es[i].mistake = .tooManyParameters ∧ es[j].mistake = .missing .parameterName

theorem inOrder_nil : InOrder [] :=
  fun _ _ _ hj => absurd hj (Nat.not_lt_zero _)

theorem inOrder_singleton (e : GrammarError) : InOrder [e] := by
  intro i j hij hj
  simp only [List.length_singleton] at hj
  omega

/-- Mistakes in the order of their lines. -/
theorem inOrder_of_pairwise {es : List GrammarError}
    (h : es.Pairwise fun e e' => e.line ≤ e'.line) : InOrder es :=
  fun i j hij hj => .inl (List.pairwise_iff_getElem.mp h i j (Nat.lt_trans hij hj) hj hij)

theorem InOrder.append {es es' : List GrammarError} (h : InOrder es) (h' : InOrder es')
    (hes : ∀ e ∈ es, ∀ e' ∈ es', e.line ≤ e'.line ∨ e'.mistake = .badTarget) :
    InOrder (es ++ es') := by
  intro i j hij hj
  rw [List.length_append] at hj
  by_cases hjes : j < es.length
  · simp only [List.getElem_append_left hjes, List.getElem_append_left (Nat.lt_trans hij hjes)]
    exact h i j hij hjes
  have hj' : j - es.length < es'.length := by omega
  simp only [List.getElem_append_right (Nat.le_of_not_lt hjes)]
  by_cases hies : i < es.length
  · simp only [List.getElem_append_left hies]
    exact (hes _ (List.getElem_mem hies) _ (List.getElem_mem hj')).imp id .inl
  · simp only [List.getElem_append_right (Nat.le_of_not_lt hies)]
    refine (h' (i - es.length) (j - es.length) (by omega) hj').imp id (.imp id fun hnext => ?_)
    exact ⟨by omega, hnext.2⟩

/-! ### Cursors over ordered tokens -/

namespace Cursor

/-- The lines that a cursor has in view: of the token read last, of the tokens that are left, and
of the end. -/
def lines (s : Cursor) : List Nat :=
  s.lastLine :: (s.rest.map Token.line ++ [s.endLine])

/-- The lines in view never decrease. -/
def Ordered (s : Cursor) : Prop :=
  s.lines.Pairwise (· ≤ ·)

variable {s s' : Cursor} {t : Token} {ts : List Token}

theorem Ordered.skip (h : s.Ordered) : s.skip.Ordered := by
  unfold Cursor.skip
  split
  · next t ts hrest =>
    rw [Ordered, lines, hrest] at h
    exact (List.pairwise_cons.mp h).2
  · exact h

theorem Ordered.lastLine_le_line (h : s.Ordered) : s.lastLine ≤ s.line := by
  have hlines := (List.pairwise_cons.mp h).1
  unfold line
  split
  · next t ts hrest => exact hlines _ (by simp [hrest])
  · exact hlines _ (by simp)

theorem line_eq (hs : s.rest = t :: ts) : s.line = t.line := by
  rw [line, hs]

theorem lastLine_skip (hs : s.rest = t :: ts) : s.skip.lastLine = t.line := by
  rw [Cursor.skip, hs]

theorem Ordered.moves (h : s.Ordered) (hm : s.Moves s') : s'.Ordered := by
  induction hm with
  | refl => exact h
  | tail _ hs ih => exact hs ▸ ih.skip

theorem Ordered.lastLine_le (h : s.Ordered) (hm : s.Moves s') : s.lastLine ≤ s'.lastLine := by
  induction hm with
  | refl => exact Nat.le_refl _
  | @tail s₁ s₂ hm hs ih =>
    refine Nat.le_trans ih ?_
    rw [hs]
    cases hrest : s₁.rest with
    | nil => simp [Cursor.skip, hrest]
    | cons t ts =>
      rw [lastLine_skip hrest, ← line_eq hrest]
      exact (h.moves hm).lastLine_le_line

theorem Ordered.line_le (h : s.Ordered) (hm : s.Moves s') : s.line ≤ s'.line := by
  induction hm with
  | refl => exact Nat.le_refl _
  | @tail s₁ s₂ hm hs ih =>
    refine Nat.le_trans ih ?_
    rw [hs]
    cases hrest : s₁.rest with
    | nil => simp [Cursor.skip, hrest]
    | cons t ts =>
      rw [line_eq hrest, ← lastLine_skip hrest]
      exact (h.moves hm).skip.lastLine_le_line

end Cursor

/-! ### Readings that report in order -/

/-- What comes of reading shows its mistakes in order, each on a line from `L` to the line where
reading ends; a bad target may be on a line before `L`. -/
def Readout.Orderly {α : Type} (L : Nat) : Readout α → Prop
  | read _ s reports =>
    reports.Pairwise (fun e e' => e.line ≤ e'.line) ∧
      ∀ e ∈ reports, L ≤ e.line ∧ e.line ≤ s.lastLine
  | broken e s reports =>
    InOrder (reports ++ [e]) ∧ (∀ e' ∈ reports, L ≤ e'.line) ∧
      (e.mistake = .badTarget ∨ L ≤ e.line) ∧ ∀ e' ∈ reports ++ [e], e'.line ≤ s.line

namespace Readout

variable {α : Type} {r : Readout α} {L M : Nat}

/-- The greatest line that reports may be on: of the token read last, or after a mistake of the
next one. -/
def lastReport : Readout α → Nat
  | read _ s _ => s.lastLine
  | broken _ s _ => s.line

@[simp]
theorem lastReport_note (reports : List GrammarError) :
    (r.note reports).lastReport = r.lastReport := by
  cases r <;> rfl

theorem Orderly.mono (h : r.Orderly M) (hle : L ≤ M) : r.Orderly L := by
  cases r with
  | read x s reports => exact ⟨h.1, fun e he => ⟨Nat.le_trans hle (h.2 e he).1, (h.2 e he).2⟩⟩
  | broken e s reports =>
    exact ⟨h.1, fun e' he' => Nat.le_trans hle (h.2.1 e' he'),
      h.2.2.1.imp id (Nat.le_trans hle), h.2.2.2⟩

/-- Reports in front, on lines up to `M`, of a reading from line `M` on. -/
theorem Orderly.note (h : r.Orderly M) {reports : List GrammarError}
    (hreports : reports.Pairwise fun e e' => e.line ≤ e'.line)
    (hlines : ∀ e ∈ reports, L ≤ e.line ∧ e.line ≤ M) (hle : L ≤ M) (hr : M ≤ r.lastReport) :
    (r.note reports).Orderly L := by
  cases r with
  | read x s own =>
    obtain ⟨hown, hbounds⟩ := h
    refine ⟨List.pairwise_append.mpr ⟨hreports, hown, fun e he e' he' => ?_⟩, fun e he => ?_⟩
    · exact Nat.le_trans (hlines e he).2 (hbounds e' he').1
    · rcases List.mem_append.mp he with he | he
      · exact ⟨(hlines e he).1, Nat.le_trans (hlines e he).2 hr⟩
      · exact ⟨Nat.le_trans hle (hbounds e he).1, (hbounds e he).2⟩
  | broken e s own =>
    obtain ⟨horder, hown, he, hbounds⟩ := h
    refine ⟨?_, fun e' he' => ?_, he.imp id (Nat.le_trans hle), fun e' he' => ?_⟩
    · rw [List.append_assoc]
      refine (inOrder_of_pairwise hreports).append horder fun e₁ he₁ e₂ he₂ => ?_
      rcases List.mem_append.mp he₂ with he₂ | he₂
      · exact .inl (Nat.le_trans (hlines e₁ he₁).2 (hown e₂ he₂))
      · rw [List.mem_singleton.mp he₂]
        exact he.symm.imp (Nat.le_trans (hlines e₁ he₁).2) id
    · rcases List.mem_append.mp he' with he' | he'
      · exact (hlines e' he').1
      · exact Nat.le_trans hle (hown e' he')
    · rw [List.append_assoc] at he'
      rcases List.mem_append.mp he' with he' | he'
      · exact Nat.le_trans (hlines e' he').2 hr
      · exact hbounds e' he'

end Readout

/-! ### Scripts that report in order -/

namespace Script

variable {α : Type}

/-- Whether a script demands the name of a parameter first. -/
def WantsParameter : Script α → Prop
  | take _ _ absent => absent = fail .last (.missing .parameterName)
  | _ => False

/-- Whether the mistakes of a script come in order. A report on the line of the next token may be
followed by a mistake on the line before it only if that is the missing name of a parameter, and
only a bad target is placed on a token that was seen before. -/
def Calm : Script α → List Token → Prop
  | done _, _ => True
  | take _ found absent, seen => (∀ t, (found t).Calm (t :: seen)) ∧ absent.Calm seen
  | look next stop, seen => (∀ t, (next t).Calm seen) ∧ stop.Calm seen
  | report _ spot mistake rest, seen =>
    (spot = .last ∨ spot = .next ∧
      (rest.Guarded ∨ mistake = .tooManyParameters ∧ rest.WantsParameter)) ∧ rest.Calm seen
  | fail spot mistake, seen => ∀ t, spot = .of t → mistake = .badTarget ∧ t ∈ seen
  | ask _ rest, seen => ∀ b, (rest b).Calm seen
  | start _ _ rest, seen => ∀ x, (rest x).Calm seen

end Script

theorem Job.calm (j : Job) : j.script.Calm [] := by
  cases j with
  | expression l =>
    cases l with
    | assignment =>
      simp only [script, Script.ofLevel, Script.part, Script.accept, Script.Calm]
      refine fun target => ⟨fun equal value => ?_, trivial⟩
      cases target.assigned? value with
      | none => exact fun t ht => by cases ht; simp
      | some e => trivial
    | _ => simp [Script.Calm]
  | optionalExpression stop =>
    simp only [script, Script.ofOptional, Script.part, Script.Calm]
    refine ⟨fun t => ?_, fun _ => trivial⟩
    split
    · trivial
    · exact fun _ => trivial
  | argumentList count => simp [Script.Calm, Script.Guarded, Job.guarded]
  | parameterList count => simp [Script.Calm, Script.WantsParameter]
  | _ => simp [Script.Calm]

namespace Script.Yields

variable {n : Nat} {c : Context} {α : Type} {p : Script α} {s : Cursor} {r : Readout α}

/-- Reading ends no earlier than where it starts. -/
theorem lastLine_le (h : Yields n c p s r) (hs : s.Ordered) : s.lastLine ≤ r.lastReport := by
  have hm := h.moves
  have hle := hs.lastLine_le hm
  cases r with
  | read x s' reports => exact hle
  | broken e s' reports => exact Nat.le_trans hle (hs.moves hm).lastLine_le_line

/-- A report on the line from which reading is in order. -/
theorem orderly_report {M : Nat} (h : r.Orderly M) (hr : M ≤ r.lastReport) (reason : Bool)
    (mistake : Mistake) : (r.note (if reason then [⟨M, mistake⟩] else [])).Orderly M := by
  refine h.note ?_ (fun e he => ?_) (Nat.le_refl M) hr
  · split
    · exact List.pairwise_singleton _ _
    · exact .nil
  · split at he
    · rw [List.mem_singleton.mp he]
      exact ⟨Nat.le_refl M, Nat.le_refl M⟩
    · exact absurd he List.not_mem_nil

/-- The one report that may stand in front of a mistake on an earlier line. -/
theorem orderly_missing (hs : s.lastLine ≤ s.line) (reason : Bool) :
    ((.broken ⟨s.lastLine, .missing .parameterName⟩ s [] : Readout α).note
      (if reason then [⟨s.line, .tooManyParameters⟩] else [])).Orderly s.lastLine := by
  cases reason with
  | false => exact ⟨inOrder_singleton _, by simp, .inr (Nat.le_refl _), by simpa using hs⟩
  | true =>
    refine ⟨fun i j hij hj => ?_, by simpa using hs, .inr (Nat.le_refl _), by simpa using hs⟩
    simp only [if_true, List.append_nil, List.length_append, List.length_singleton] at hj
    obtain ⟨rfl, rfl⟩ : i = 0 ∧ j = 1 := by omega
    exact .inr (.inr ⟨rfl, rfl, rfl⟩)

end Script.Yields

/-- What a script comes to from a cursor shows its mistakes in order. -/
structure Script.Orderly {α : Type} (p : Script α) (s : Cursor) (r : Readout α) : Prop where
  /-- They are in order from the line of the token read last. -/
  last : r.Orderly s.lastLine
  /-- If the script is guarded, they are in order from the line of the next token. -/
  next : p.Guarded → r.Orderly s.line ∧ s.line ≤ r.lastReport
  /-- So they are if the name of a parameter comes first, or nothing is wrong but that it is
  missing. -/
  named : p.WantsParameter → r.Orderly s.line ∧ s.line ≤ r.lastReport ∨
    r = .broken ⟨s.lastLine, .missing .parameterName⟩ s []

namespace Script.Orderly

variable {α : Type} {s s' : Cursor} {r : Readout α}

/-- Behind a token that is passed. -/
theorem found {p : Token → Bool} {found : Token → Script α} {absent : Script α} {t : Token}
    {ts : List Token} (hs : s.Ordered) (hrest : s.rest = t :: ts) (hr : r.Orderly s.skip.lastLine)
    (hle : s.skip.lastLine ≤ r.lastReport) : (take p found absent).Orderly s r := by
  rw [Cursor.lastLine_skip hrest, ← Cursor.line_eq hrest] at hr hle
  exact ⟨hr.mono hs.lastLine_le_line, fun _ => ⟨hr, hle⟩, fun _ => .inl ⟨hr, hle⟩⟩

/-- Where a token is not there that would be passed. -/
theorem absent {p : Token → Bool} {found : Token → Script α} {rest : Script α} {n : Nat}
    {c : Context} (h : Yields n c rest s r) (hr : rest.Orderly s r) :
    (take p found rest).Orderly s r := by
  refine ⟨hr.last, hr.next, fun heq => ?_⟩
  cases heq
  cases h
  exact .inr rfl

/-- Behind a mistake that is noted on the line of the next token. Only the missing name of a
parameter may come behind it on an earlier line. -/
theorem report_next {mistake : Mistake} {rest : Script α} {reason : Bool} (hs : s.Ordered)
    (hrest : rest.Guarded ∨ mistake = .tooManyParameters ∧ rest.WantsParameter)
    (hr : rest.Orderly s r) :
    (report reason .next mistake rest).Orderly s
      (r.note (if reason then [⟨s.line, mistake⟩] else [])) := by
  have hinOrder (h : r.Orderly s.line ∧ s.line ≤ r.lastReport) :
      (report reason .next mistake rest).Orderly s
        (r.note (if reason then [⟨s.line, mistake⟩] else [])) := by
    have hreport := Yields.orderly_report h.1 h.2 reason mistake
    refine ⟨hreport.mono hs.lastLine_le_line, fun _ => ⟨hreport, ?_⟩, False.elim⟩
    rw [Readout.lastReport_note]
    exact h.2
  obtain hg | ⟨rfl, hw⟩ := hrest
  · exact hinOrder (hr.next hg)
  obtain h | rfl := hr.named hw
  · exact hinOrder h
  refine ⟨Yields.orderly_missing hs.lastLine_le_line reason, fun hg => ?_, False.elim⟩
  -- A script that wants the name of a parameter complains about the token read last.
  cases rest with
  | take q found absent =>
    cases hw
    cases hg.2
  | _ => exact hw.elim

/-- Where the statement is abandoned. A token that was seen before is not behind the cursor. -/
theorem fail {spot : Spot} {mistake : Mistake} (hs : s.Ordered)
    (hspot : ∀ t, spot = .of t → mistake = .badTarget ∧ t.line ≤ s.line) :
    (Script.fail spot mistake : Script α).Orderly s (.broken ⟨spot.line s, mistake⟩ s []) := by
  have hle := hs.lastLine_le_line
  have horder {L : Nat} (he : mistake = .badTarget ∨ L ≤ spot.line s)
      (hline : spot.line s ≤ s.line) :
      (.broken ⟨spot.line s, mistake⟩ s [] : Readout α).Orderly L :=
    ⟨inOrder_singleton _, by simp, he, by simpa using hline⟩
  refine ⟨?_, fun hnext => ?_, False.elim⟩
  · cases spot with
    | last => exact horder (.inr (Nat.le_refl _)) hle
    | next => exact horder (.inr hle) (Nat.le_refl _)
    | of t => exact horder (.inl (hspot t rfl).1) (hspot t rfl).2
  · cases hnext
    exact ⟨horder (.inr (Nat.le_refl _)) (Nat.le_refl _), Nat.le_refl _⟩

/-- Behind a part that was read. -/
theorem read {a : Option Around} {j : Job} {rest : j.Result → Script α} {x : j.Result}
    {reports : List GrammarError} (hs : s.Ordered) (hm : s.Moves s')
    (hj : j.script.Orderly s (.read x s' reports)) (hr : r.Orderly s'.lastLine)
    (hle : s'.lastLine ≤ r.lastReport) : (start a j rest).Orderly s (r.note reports) := by
  obtain ⟨hsorted, hbounds⟩ := hj.last
  refine ⟨hr.note hsorted hbounds (hs.lastLine_le hm) hle, fun hg => ?_, False.elim⟩
  obtain ⟨⟨-, hbounds'⟩, hline⟩ := hj.next (Job.guarded_script hg)
  refine ⟨hr.note hsorted hbounds' hline hle, ?_⟩
  rw [Readout.lastReport_note]
  exact Nat.le_trans hline hle

end Script.Orderly

/-- What a calm script yields from ordered tokens shows its mistakes in order. -/
theorem Script.Yields.orderly {n : Nat} {c : Context} {α : Type} {p : Script α} {s : Cursor}
    {r : Readout α} (h : Yields n c p s r) {seen : List Token} (hp : p.Calm seen) (hs : s.Ordered)
    (hseen : ∀ t ∈ seen, t.line ≤ s.line) : p.Orderly s r := by
  induction h generalizing seen with
  | done => exact ⟨⟨.nil, by simp⟩, False.elim, False.elim⟩
  | @found n c α p found absent s t ts r hrest ht h ih =>
    have hle := hs.line_le Cursor.moves_skip
    refine .found hs hrest (ih (hp.1 t) hs.skip fun t' ht' => ?_).last (h.lastLine_le hs.skip)
    rcases List.mem_cons.mp ht' with rfl | ht'
    · exact Nat.le_trans (Nat.le_of_eq (Cursor.line_eq hrest).symm) hle
    · exact Nat.le_trans (hseen t' ht') hle
  | absent _ h ih => exact .absent h (ih hp.2 hs hseen)
  | look _ _ ih =>
    have horder := ih (hp.1 _) hs hseen
    exact ⟨horder.last, fun hg => horder.next (hg.1 _), False.elim⟩
  | stop _ _ ih =>
    have horder := ih hp.2 hs hseen
    exact ⟨horder.last, fun hg => horder.next hg.2, False.elim⟩
  | ask _ ih =>
    have horder := ih (hp _) hs hseen
    exact ⟨horder.last, fun hg => horder.next (hg _), False.elim⟩
  | @report n c α reason spot mistake rest s r h ih =>
    have horder := ih hp.2 hs hseen
    obtain ⟨rfl | ⟨rfl, hrest⟩, -⟩ := hp
    · have hreport := orderly_report horder.last (h.lastLine_le hs) reason mistake
      refine ⟨hreport, fun hg => ?_, False.elim⟩
      cases hg.1
    · exact .report_next hs hrest horder
  | fail => exact .fail hs fun t ht => ⟨(hp t ht).1, hseen t (hp t ht).2⟩
  | @read n c α a j rest s s' x reports r _ hj h ihj ih =>
    have hm : s.Moves s' := hj.moves
    have hs' := hs.moves hm
    have horder := ih (hp x) hs' fun t ht => Nat.le_trans (hseen t ht) (hs.line_le hm)
    exact .read hs hm (ihj (Job.calm j) hs (by simp)) horder.last (h.lastLine_le hs')
  | broken _ hj ihj =>
    have horder := ihj (Job.calm _) hs (by simp)
    exact ⟨horder.last, fun hg => horder.next (Job.guarded_script hg), False.elim⟩

/-! ### Programs -/

namespace Cursor

variable {s s' : Cursor}

/-- Reading goes on no earlier than where a statement was abandoned. -/
theorem Ordered.line_le_recover (hs : s.Ordered) (hm : s.Moves s') :
    s'.line ≤ (s.recover s').line := by
  unfold recover
  split
  · next hsize =>
    have hrest : s'.rest = s.rest := hm.suffix.eq_of_length hsize
    have hline : s'.line = s.line := by rw [line, line, hrest, hm.endLine_eq]
    rw [hline]
    exact hs.line_le (moves_skip.trans moves_resume)
  · exact (hs.moves hm).line_le moves_resume

/-- The tokens of a list are on lines up to the one where the input ends. -/
theorem line_le_endLine {ts : List Token} (h : ts.Pairwise fun t t' => t.line ≤ t'.line) :
    ∀ t ∈ (ofTokens ts).rest, t.line ≤ (ofTokens ts).endLine := by
  intro t ht
  change t ∈ ts.takeWhile fun t => !t.kind.isEof at ht
  have hmem : t ∈ ts := List.takeWhile_subset _ ht
  unfold ofTokens
  dsimp only
  split
  · next eof hfind =>
    obtain ⟨heof, before, behind, rfl, hbefore⟩ := List.find?_eq_some_iff_append.mp hfind
    have htake : t ∈ before := by
      rw [List.takeWhile_append_of_pos (by simpa using hbefore)] at ht
      simpa [heof] using ht
    exact (List.pairwise_append.mp h).2.2 t htake eof List.mem_cons_self
  · next hfind =>
    obtain ⟨before, last, rfl⟩ : ∃ before last, ts = before ++ [last] :=
      ⟨_, _, (List.dropLast_concat_getLast (List.ne_nil_of_mem hmem)).symm⟩
    rw [List.getLast?_concat]
    rcases List.mem_append.mp hmem with hmem | hmem
    · exact (List.pairwise_append.mp h).2.2 t hmem last List.mem_cons_self
    · exact Nat.le_of_eq (congrArg Token.line (List.mem_singleton.mp hmem))

theorem ordered_ofTokens {ts : List Token} (h : ts.Pairwise fun t t' => t.line ≤ t'.line) :
    (ofTokens ts).Ordered := by
  have hend := line_le_endLine h
  have hrest : (ofTokens ts).rest.Pairwise fun t t' => t.line ≤ t'.line :=
    h.sublist (List.takeWhile_sublist _)
  have hlast : (ofTokens ts).lastLine =
      ((ofTokens ts).rest.head?.map Token.line).getD (ofTokens ts).endLine := rfl
  refine List.pairwise_cons.mpr ⟨?_, List.pairwise_append.mpr
    ⟨List.pairwise_map.mpr hrest, List.pairwise_singleton _ _, by simpa using hend⟩⟩
  rw [hlast]
  cases hcases : (ofTokens ts).rest with
  | nil => simp
  | cons t ts' =>
    rw [hcases] at hrest hend
    have hle : ∀ line ∈ ts'.map Token.line ++ [(ofTokens ts).endLine], t.line ≤ line := by
      simpa [or_imp, forall_and, hend t] using (List.pairwise_cons.mp hrest).1
    simpa using hle

end Cursor

namespace Parsed

theorem inOrder_ofCursor {s : Cursor} (hs : s.Ordered) :
    InOrder (ofCursor s).errors ∧
      ∀ e ∈ (ofCursor s).errors, s.line ≤ e.line ∨ e.mistake = .badTarget := by
  cases hrest : s.rest with
  | nil => simp [ofCursor_of_nil hrest, inOrder_nil]
  | cons t ts =>
    have hyields := Job.declaration.yields .outermost s
    have hm := Job.declaration.moves .outermost s
    obtain ⟨horder, -⟩ :=
      (hyields.orderly (Job.calm _) hs (by simp)).next (Job.guarded_script rfl)
    cases hr : Job.declaration.read .outermost s with
    | read stmt s₁ reports =>
      rw [hr] at horder hm
      have hlt := Job.size_lt_of_read hr
      obtain ⟨hlater, hlines⟩ := inOrder_ofCursor (hs.moves hm)
      rw [ofCursor_of_read hr]
      refine ⟨(inOrder_of_pairwise horder.1).append hlater fun e he e' he' => ?_, fun e he => ?_⟩
      · refine (hlines e' he').imp (Nat.le_trans ?_) id
        exact Nat.le_trans (horder.2 e he).2 (hs.moves hm).lastLine_le_line
      · rcases List.mem_append.mp he with he | he
        · exact .inl (horder.2 e he).1
        · exact (hlines e he).imp (Nat.le_trans (hs.line_le hm)) id
    | broken e s₁ reports =>
      rw [hr] at horder hm
      have hlt := Cursor.size_recover_lt hrest hm
      obtain ⟨hlater, hlines⟩ := inOrder_ofCursor (hs.moves (Cursor.moves_recover hm))
      have hle := hs.line_le_recover hm
      obtain ⟨hown, hreports, he, hbounds⟩ := horder
      rw [ofCursor_of_broken hrest hr]
      refine ⟨hown.append hlater fun e₁ he₁ e₂ he₂ => ?_, fun e₁ he₁ => ?_⟩
      · exact (hlines e₂ he₂).imp (Nat.le_trans (Nat.le_trans (hbounds e₁ he₁) hle)) id
      · rcases List.mem_append.mp he₁ with he₁ | he₁
        · rcases List.mem_append.mp he₁ with he₁ | he₁
          · exact .inl (hreports e₁ he₁)
          · rw [List.mem_singleton.mp he₁]
            exact he.symm
        · exact (hlines e₁ he₁).imp (Nat.le_trans (Nat.le_trans (hs.line_le hm) hle)) id
termination_by s.size

end Parsed

/-- **The order of the mistakes.** Where the lines of the tokens never decrease, a mistake stands
behind one of a later line only if it is a bad target of an assignment, or a parameter whose name is
missing right behind the report that there are too many. -/
theorem mistakes_inOrder {ts : List Token} (h : ts.Pairwise fun t t' => t.line ≤ t'.line) :
    InOrder (Parsed.ofTokens ts).errors :=
  (Parsed.inOrder_ofCursor (Cursor.ordered_ofTokens h)).1

/-- The `break` in the function on the right is reported before the target of the assignment is
found to be none. -/
theorem not_mistakes_sorted :
    let ts := [Symbol.nilWord, .equal].map (Symbol.token 1) ++
      [Symbol.funWord, .leftParen, .rightParen, .leftBrace].map (Symbol.token 2) ++
      [Symbol.breakWord, .semicolon].map (Symbol.token 3) ++
      [Symbol.rightBrace, .semicolon].map (Symbol.token 4)
    ts.Pairwise (fun t t' => t.line ≤ t'.line) ∧
      ¬ (Parsed.ofTokens ts).errors.Pairwise fun e e' => e.line ≤ e'.line := by
  intro ts
  have hlines : (Parsed.ofTokens ts).errors.map GrammarError.line = [3, 1] := by decide +kernel
  refine ⟨by decide, fun h => ?_⟩
  rw [← List.pairwise_map (R := (· ≤ ·)), hlines] at h
  exact absurd h (by decide)

/-- Mistakes in two statements, the first of which assigns to a constant. -/
theorem mistakes_inOrder_bad_target :
    let ts := [Symbol.nilWord, .equal].map (Symbol.token 1) ++
      [Symbol.nilWord, .semicolon].map (Symbol.token 2) ++
      [Symbol.breakWord, .semicolon].map (Symbol.token 3)
    ts.Pairwise (fun t t' => t.line ≤ t'.line) ∧ InOrder (Parsed.ofTokens ts).errors :=
  ⟨by decide, mistakes_inOrder (by decide)⟩

end Lox
