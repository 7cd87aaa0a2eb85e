import Lox.Proofs.Program.Phrase
import Lox.Proofs.Program.Reads

/-!
# What is read is a phrase

Whenever the reader reads a part without a mistake, it has passed a phrase of the part, and what is
left may stand behind the phrase. There is one lemma for each function of the reader. All but two
rest on the theorem for cursors with fewer tokens; those for the tiers and for calls also follow the
operands and trailers one by one, with the phrase of all that was read so far on their left.

Main statements:

* `Part.Reads` — the reader's functions, by the part they read;
* `phrase_of_reads` — a part that is read is a phrase of that part.
-/

namespace Lox

open Reading

/-- From a cursor the reader reads a part as `x` without a mistake, and `rest` is left. -/
def Part.Reads (c : Context) (s : Cursor) : (p : Part) → p.Result → List Token → Prop
  | .expression l, x, rest => (Reading.expression c l s).Reads x rest
  | .primary, x, rest => (Reading.primary c s).Reads x rest
  | .arguments, x, rest => (Reading.arguments c s).Reads x rest
  | .argumentList, x, rest => (Reading.argumentList c 0 s).Reads x rest
  | .optional, x, rest => ∃ stop, (optionalExpression c stop s).Reads x rest
  | .block, x, rest => (Reading.block c s).Reads x rest
  | .declaration, x, rest => (Reading.declaration c s).Reads x rest
  | .members, x, rest => (Reading.members c s).Reads x rest
  | .definition, x, rest => (Reading.definition c s).Reads x rest
  | .variableDefinition, x, rest => (Reading.variableDefinition c s).Reads x rest
  | .statement, x, rest => (Reading.statement c s).Reads x rest
  | .initial, x, rest => (forInitial c s).Reads x rest
  | .program, x, rest => c = .outermost ∧ rest = [] ∧ Parsed.ofCursor s = ⟨x, []⟩

/-- What is read of a part from a cursor is a phrase of the part. -/
def Cursor.Sound (s : Cursor) (p : Part) : Prop :=
  ∀ c x rest, p.Reads c s x rest →
    ∃ e ts, s.rest = ts ++ rest ∧ Phrase c p e ts x ∧ Follows p e rest

/-- The same from all cursors with fewer tokens. -/
def Cursor.SoundBelow (s : Cursor) : Prop :=
  ∀ s' : Cursor, s'.size < s.size → ∀ p, s'.Sound p

theorem Cursor.SoundBelow.mono {s s' : Cursor} (ih : s.SoundBelow) (h : s'.size ≤ s.size) :
    s'.SoundBelow :=
  fun s'' h' => ih s'' (Nat.lt_of_lt_of_le h' h)

/-- A part that ends by itself is read as a closed phrase. -/
theorem Cursor.SoundBelow.closed {s s' : Cursor} (ih : s.SoundBelow) (h : s'.size < s.size)
    (p : Part) (hp : p.endsItself = true) {c : Context} {x : p.Result} {rest : List Token}
    (hr : p.Reads c s' x rest) : ∃ ts, s'.rest = ts ++ rest ∧ Phrase c p .closed ts x := by
  obtain ⟨e, ts, hs, hts, -⟩ := ih s' h p c x rest hr
  obtain rfl := hts.eq_closed hp
  exact ⟨ts, hs, hts⟩

theorem overflow_eq_nil_iff {count line : Nat} {mistake : Mistake} :
    overflow count line mistake = [] ↔ count ≠ maxArity := by
  unfold overflow
  split <;> simp_all

namespace Reading

variable {c : Context} {s : Cursor} {rest : List Token}

/-! ### Parameters -/

theorem parameterList_sound {count : Nat} {s : Cursor} {names rest : List Token}
    (hr : (parameterList count s).Reads names rest) :
    ∃ ts, s.rest = ts ++ rest ∧ ParameterNames ts names ∧
      (count ≤ maxArity → count + names.length ≤ maxArity) := by
  rw [parameterList] at hr
  obtain ⟨hcount, hr⟩ := Reply.reads_note_iff.mp hr
  have hne := overflow_eq_nil_iff.mp hcount
  obtain ⟨name, s₁, h₁, hs, hname, hr⟩ := hr.expectedName
  split at hr
  · next comma s₂ h₂ ha =>
    obtain ⟨hs₁, hcomma⟩ := Cursor.rest_of_accept ha
    obtain ⟨others, s₃, h₃, hothers, hr⟩ := hr.parts
    obtain ⟨rfl, rfl⟩ := Reply.reads_pure_iff.mp hr
    obtain ⟨ts, hs₂, hts, hle⟩ := parameterList_sound hothers
    refine ⟨name :: comma :: ts, by simp [hs, hs₁, hs₂], .more hname hcomma hts, fun hc => ?_⟩
    have := hle (by omega)
    rw [List.length_cons]
    omega
  · obtain ⟨close, s₂, h₂, hs₁, hclose, hr⟩ := hr.expected
    obtain ⟨rfl, rfl⟩ := Reply.reads_pure_iff.mp hr
    refine ⟨[name, close], by simp [hs, hs₁], .last hname hclose, fun hc => ?_⟩
    rw [List.length_singleton]
    omega
termination_by s.size

theorem parameters_sound {names : List Token} (hr : (parameters s).Reads names rest) :
    ∃ ts, s.rest = ts ++ rest ∧ Parameters ts names := by
  rw [parameters] at hr
  obtain ⟨opening, s₁, h₁, hs, hopen, hr⟩ := hr.expected
  split at hr
  · next close s₂ h₂ ha =>
    obtain ⟨rfl, rfl⟩ := Reply.reads_pure_iff.mp hr
    obtain ⟨hs₁, hclose⟩ := Cursor.rest_of_accept ha
    exact ⟨[opening, close], by simp [hs, hs₁], .none hopen hclose⟩
  · obtain ⟨ts, hs₁, hts, hle⟩ := parameterList_sound (Reply.reads_widen_iff.mp hr)
    exact ⟨opening :: ts, by simp [hs, hs₁], .some hopen hts (by simpa using hle)⟩

/-! ### Expressions -/

theorem lambda_sound (ih : s.SoundBelow) {word : Token} (hword : word.kind = .symbol .funWord)
    {x : Expr} (hr : (lambda c s).Reads x rest) :
    ∃ e ts, s.rest = ts ++ rest ∧ Phrase c .primary e (word :: ts) x ∧
      Follows .primary e rest := by
  rw [lambda] at hr
  obtain ⟨names, s₁, h₁, hnames, hr⟩ := hr.parts
  obtain ⟨ps, hs, hps⟩ := parameters_sound hnames
  split at hr
  · next t s₂ h₂ hn =>
    have hs₁ := Cursor.rest_of_next hn
    split at hr
    · next ht =>
      obtain ⟨body, s₃, h₃, hbody, hr⟩ := hr.parts
      obtain ⟨rfl, rfl⟩ := Reply.reads_pure_iff.mp hr
      obtain ⟨ts, hs₂, hts⟩ := ih.closed (by omega) .block rfl hbody
      exact ⟨.closed, ps ++ t :: ts, by simp [hs, hs₁, hs₂], .lambda hword hps ht hts,
        stops_of_lt (Nat.lt_succ_self _)⟩
    · next ht =>
      obtain ⟨value, s₃, h₃, hvalue, hr⟩ := hr.parts
      obtain ⟨rfl, rfl⟩ := Reply.reads_pure_iff.mp hr
      obtain ⟨e, ts, hs₂, hts, hstop⟩ := ih s₂ (by omega) (.expression .assignment) _ _ _ hvalue
      exact ⟨.greedy, ps ++ t :: ts, by simp [hs, hs₁, hs₂], .arrow hword hps ht hts,
        hstop.mono (e.bound_le _)⟩
    · exact absurd hr Reply.not_reads_fail
  · exact absurd hr Reply.not_reads_fail

theorem primary_sound (ih : s.SoundBelow) : s.Sound .primary := by
  intro c x rest hr
  change (primary c s).Reads x rest at hr
  have hclosed : Follows .primary .closed rest := stops_of_lt (Nat.lt_succ_self _)
  rw [primary] at hr
  split at hr
  · next t s₁ h₁ hn =>
    have hs := Cursor.rest_of_next hn
    -- A constant or a name is the whole phrase.
    have single {y : Expr} (hy : Phrase c .primary .closed [t] y)
        (hr : (Reply.pure (n := s.size) y s₁ h₁).Reads x rest) :
        ∃ e ts, s.rest = ts ++ rest ∧ Phrase c .primary e ts x ∧ Follows .primary e rest := by
      obtain ⟨rfl, rfl⟩ := Reply.reads_pure_iff.mp hr
      exact ⟨.closed, [t], hs, hy, hclosed⟩
    split at hr
    · next hk => exact single (.literal (by rw [hk]; rfl)) hr
    · next hk => exact single (.literal (by rw [hk]; rfl)) hr
    · next hk => exact single (.literal (by rw [hk]; rfl)) hr
    · next v hk => exact single (.literal (by rw [hk]; rfl)) hr
    · next v hk => exact single (.literal (by rw [hk]; rfl)) hr
    · next hk => exact single (.name hk) hr
    · next hk =>
      split at hr
      · next hc => exact single (.this hk hc) hr
      · exact absurd hr Reply.not_reads_fail
    · next hopen =>
      obtain ⟨value, s₂, h₂, hvalue, hr⟩ := hr.parts
      obtain ⟨close, s₃, h₃, hs₂, hclose, hr⟩ := hr.expected
      obtain ⟨rfl, rfl⟩ := Reply.reads_pure_iff.mp hr
      obtain ⟨e, ts, hs₁, hts, -⟩ := ih s₁ h₁ (.expression .comma) _ _ _ hvalue
      exact ⟨.closed, t :: (ts ++ [close]), by simp [hs, hs₁, hs₂], .paren hopen hts hclose,
        hclosed⟩
    · next hword =>
      have hr := Reply.reads_widen_iff.mp hr
      obtain ⟨e, ts, hs₁, hts, hstop⟩ := lambda_sound (ih.mono (Nat.le_of_lt h₁)) hword hr
      exact ⟨e, t :: ts, by simp [hs, hs₁], hts, hstop⟩
    · exact absurd hr Reply.not_reads_fail
  · exact absurd hr Reply.not_reads_fail

/-- The trailers are read behind a phrase that is the callee, and the whole is a phrase again. -/
theorem trailers_sound {s₀ s : Cursor} (ih : s₀.SoundBelow) (hs₀ : s.size < s₀.size) {c : Context}
    {e : Ending} {ts rest : List Token} {f x : Expr} (hf : Phrase c (.expression .call) e ts f)
    (hstop : Stops (e.bound (Level.call.rank + 1)) s.rest) (hr : (trailers c f s).Reads x rest) :
    ∃ e' us, s.rest = us ++ rest ∧ Phrase c (.expression .call) e' (ts ++ us) x ∧
      Stops (e'.bound Level.call.rank) rest := by
  rw [trailers] at hr
  -- Where nothing goes on, the callee is all there is.
  have stop (hno : ∀ t ∈ s.rest.head?, ¬ Level.call.goesOn t = true) (hx : x = f)
      (hrest : s.rest = rest) :
      ∃ e' us, s.rest = us ++ rest ∧ Phrase c (.expression .call) e' (ts ++ us) x ∧
        Stops (e'.bound Level.call.rank) rest := by
    subst hx hrest
    refine ⟨e, [], rfl, by simpa using hf, ?_⟩
    intro t ht l hl
    have hlt := hstop t ht l hl
    have hle := l.rank_le
    have hne : l ≠ .call := fun h => hno t ht (h ▸ hl)
    cases e with
    | closed => exact Nat.lt_of_le_of_ne hle fun h => hne (Level.eq_of_rank_eq h)
    | greedy => exact hlt
  split at hr
  · next t s₁ h₁ hn =>
    have hs := Cursor.rest_of_next hn
    rw [hs] at hstop
    split at hr
    · next ht =>
      obtain ⟨xs, s₂, h₂, hxs, hr⟩ := hr.parts
      have hr := Reply.reads_widen_iff.mp hr
      have hgo : Level.call.goesOn t = true := by simp [Level.goesOn, Token.is, ht]
      obtain rfl := Ending.eq_closed hstop hgo (by decide)
      obtain ⟨us, hs₁, hus⟩ := ih.closed (by omega) .arguments rfl hxs
      obtain ⟨e', vs, hs₂, hvs, hstop'⟩ := trailers_sound ih (by omega) (hf.call ht hus)
        (stops_of_lt (Nat.lt_succ_self _)) hr
      exact ⟨e', t :: us ++ vs, by simp [hs, hs₁, hs₂], by simpa using hvs, hstop'⟩
    · next ht =>
      obtain ⟨name, s₂, h₂, hs₁, hname, hr⟩ := hr.expectedName
      have hr := Reply.reads_widen_iff.mp hr
      have hgo : Level.call.goesOn t = true := by simp [Level.goesOn, Token.is, ht]
      obtain rfl := Ending.eq_closed hstop hgo (by decide)
      obtain ⟨e', vs, hs₂, hvs, hstop'⟩ := trailers_sound ih (by omega) (hf.member ht hname)
        (stops_of_lt (Nat.lt_succ_self _)) hr
      exact ⟨e', [t, name] ++ vs, by simp [hs, hs₁, hs₂], by simpa using hvs, hstop'⟩
    · next hparen hdot =>
      obtain ⟨hx, hrest⟩ := Reply.reads_pure_iff.mp hr
      refine stop ?_ hx hrest
      intro t' ht' hgo
      obtain rfl : t = t' := by simpa [hs] using ht'
      rw [Level.goesOn, Bool.or_eq_true, Token.is_iff, Token.is_iff] at hgo
      exact hgo.elim hparen hdot
  · next hn =>
    obtain ⟨hx, hrest⟩ := Reply.reads_pure_iff.mp hr
    exact stop (by simp [Cursor.rest_of_next_stop hn]) hx hrest
termination_by s.size

theorem call_sound (ih : s.SoundBelow) : s.Sound (.expression .call) := by
  intro c x rest hr
  change (expression c .call s).Reads x rest at hr
  rw [expression] at hr
  obtain ⟨f, s₁, h₁, hf, hr⟩ := hr.parts
  have hr := Reply.reads_widen_iff.mp hr
  obtain ⟨e, ts, hs, hts, hstop⟩ := primary_sound ih _ _ _ hf
  obtain ⟨e', us, hs₁, hus, hstop'⟩ := trailers_sound ih h₁ hts.callee hstop hr
  exact ⟨e', ts ++ us, by simp [hs, hs₁], hus, hstop'⟩

theorem unary_sound (ih : s.SoundBelow) : s.Sound (.expression .unary) := by
  intro c x rest hr
  change (expression c .unary s).Reads x rest at hr
  rw [expression] at hr
  have operand (hr : (expression c .call s).Reads x rest) :
      ∃ e ts, s.rest = ts ++ rest ∧ Phrase c (.expression .unary) e ts x ∧
        Follows (.expression .unary) e rest := by
    obtain ⟨e, ts, hs, hts, hstop⟩ := call_sound ih _ _ _ hr
    exact ⟨e, ts, hs, .lift rfl hts, Ending.stops_bound rfl hstop (by simp [Level.goesOn])⟩
  split at hr
  · next op s₁ h₁ hn =>
    have hs := Cursor.rest_of_next hn
    split at hr
    · next hop =>
      obtain ⟨y, s₂, h₂, hy, hr⟩ := hr.parts
      obtain ⟨rfl, rfl⟩ := Reply.reads_pure_iff.mp hr
      obtain ⟨e, ts, hs₁, hts, hstop⟩ := ih s₁ h₁ (.expression .unary) _ _ _ hy
      rw [Bool.or_eq_true, Token.is_iff, Token.is_iff] at hop
      exact ⟨e, op :: ts, by simp [hs, hs₁], .unary hop hts, hstop⟩
    · exact operand hr
  · exact operand hr

/-- The operands of a tier are read behind a phrase that is their left operand, and the whole is a
phrase again. -/
theorem operands_sound {s₀ s : Cursor} (ih : s₀.SoundBelow) (hs₀ : s.size < s₀.size) {c : Context}
    {t : Tier} {e : Ending} {ts rest : List Token} {left x : Expr}
    (hleft : Phrase c (.expression (.tier t)) e ts left)
    (hstop : Stops (e.bound t.tighter.rank) s.rest) (hr : (operands c t left s).Reads x rest) :
    ∃ e' us, s.rest = us ++ rest ∧ Phrase c (.expression (.tier t)) e' (ts ++ us) x ∧
      Stops (e'.bound (Level.tier t).rank) rest := by
  rw [operands] at hr
  have stop (hno : ∀ op ∈ s.rest.head?, ¬ (Level.tier t).goesOn op = true) (hx : x = left)
      (hrest : s.rest = rest) :
      ∃ e' us, s.rest = us ++ rest ∧ Phrase c (.expression (.tier t)) e' (ts ++ us) x ∧
        Stops (e'.bound (Level.tier t).rank) rest := by
    subst hx hrest
    exact ⟨e, [], rfl, by simpa using hleft, Ending.stops_bound rfl hstop hno⟩
  split at hr
  · next op s₁ h₁ hn =>
    have hs := Cursor.rest_of_next hn
    split at hr
    · next hop =>
      obtain ⟨right, s₂, h₂, hright, hr⟩ := hr.parts
      have hr := Reply.reads_widen_iff.mp hr
      rw [hs] at hstop
      obtain rfl := Ending.eq_closed (l := .tier t) hstop hop (by rw [Level.rank]; omega)
      obtain ⟨e', us, hs₁, hus, hstop'⟩ := ih s₁ (by omega) (.expression t.tighter) _ _ _ hright
      obtain ⟨e', vs, hs₂, hvs, hstop''⟩ := operands_sound ih (by omega) (hleft.operator hop hus)
        hstop' hr
      exact ⟨e', op :: us ++ vs, by simp [hs, hs₁, hs₂], by simpa using hvs, hstop''⟩
    · next hop =>
      obtain ⟨hx, hrest⟩ := Reply.reads_pure_iff.mp hr
      refine stop ?_ hx hrest
      intro op' hop' hgo
      obtain rfl : op = op' := by simpa [hs] using hop'
      exact hop hgo
  · next hn =>
    obtain ⟨hx, hrest⟩ := Reply.reads_pure_iff.mp hr
    exact stop (by simp [Cursor.rest_of_next_stop hn]) hx hrest
termination_by s.size

theorem tier_sound (ih : s.SoundBelow) {t : Tier} (hoperand : s.Sound (.expression t.tighter)) :
    s.Sound (.expression (.tier t)) := by
  intro c x rest hr
  change (expression c (.tier t) s).Reads x rest at hr
  rw [expression] at hr
  obtain ⟨left, s₁, h₁, hleft, hr⟩ := hr.parts
  have hr := Reply.reads_widen_iff.mp hr
  obtain ⟨e, ts, hs, hts, hstop⟩ := hoperand _ _ _ hleft
  obtain ⟨e', us, hs₁, hus, hstop'⟩ := operands_sound ih h₁ (.lift rfl hts) hstop hr
  exact ⟨e', ts ++ us, by simp [hs, hs₁], hus, hstop'⟩

/-- From the products up, each tier rests on the one that binds more. -/
theorem tiers_sound (ih : s.SoundBelow) (t : Tier) : s.Sound (.expression (.tier t)) := by
  have hproduct : s.Sound (.expression (.tier .product)) := tier_sound ih (unary_sound ih)
  have hsum : s.Sound (.expression (.tier .sum)) := tier_sound ih hproduct
  have hcomparison : s.Sound (.expression (.tier .comparison)) := tier_sound ih hsum
  have hequality : s.Sound (.expression (.tier .equality)) := tier_sound ih hcomparison
  have hconjunction : s.Sound (.expression (.tier .conjunction)) := tier_sound ih hequality
  cases t with
  | disjunction => exact tier_sound ih hconjunction
  | conjunction => exact hconjunction
  | equality => exact hequality
  | comparison => exact hcomparison
  | sum => exact hsum
  | product => exact hproduct

/-- Where the symbol of a level does not go on with its first operand, the operand is all there
is. -/
theorem lift_sound {l l' : Level} {y : Symbol} (hl : l.tighter? = some l')
    (hgo : ∀ t, l.goesOn t = true → t.kind = .symbol y) {e : Ending} {ts : List Token} {x : Expr}
    (hx : Phrase c (.expression l') e ts x) (hstop : Stops (e.bound l'.rank) s.rest)
    (ha : s.accept y = .stop) :
    Phrase c (.expression l) e ts x ∧ Follows (.expression l) e s.rest := by
  have hno := Cursor.head_of_accept_stop ha
  exact ⟨.lift hl hx, Ending.stops_bound hl hstop fun t ht h => hno t ht (hgo t h)⟩

theorem conditional_sound (ih : s.SoundBelow) : s.Sound (.expression .conditional) := by
  intro c x rest hr
  change (expression c .conditional s).Reads x rest at hr
  rw [expression] at hr
  obtain ⟨condition, s₁, h₁, hcondition, hr⟩ := hr.parts
  obtain ⟨e, ts, hs, hts, hstop⟩ := tiers_sound ih _ _ _ _ hcondition
  split at hr
  · next op s₂ h₂ ha =>
    obtain ⟨hs₁, hop⟩ := Cursor.rest_of_accept ha
    obtain ⟨whenTrue, s₃, h₃, hwhenTrue, hr⟩ := hr.parts
    obtain ⟨colon, s₄, h₄, hs₃, hcolon, hr⟩ := hr.expected
    obtain ⟨whenFalse, s₅, h₅, hwhenFalse, hr⟩ := hr.parts
    obtain ⟨rfl, rfl⟩ := Reply.reads_pure_iff.mp hr
    obtain ⟨e₁, us, hs₂, hus, -⟩ := ih s₂ (by omega) (.expression .conditional) _ _ _ hwhenTrue
    obtain ⟨e₂, vs, hs₄, hvs, hstop'⟩ :=
      ih s₄ (by omega) (.expression .conditional) _ _ _ hwhenFalse
    rw [hs₁] at hstop
    obtain rfl := Ending.eq_closed (l := .conditional) hstop (Token.is_iff.mpr hop) (by decide)
    exact ⟨e₂, ts ++ op :: (us ++ colon :: vs), by simp [hs, hs₁, hs₂, hs₃, hs₄],
      .conditional hts hop hus hcolon hvs, hstop'⟩
  · next ha =>
    obtain ⟨rfl, rfl⟩ := Reply.reads_pure_iff.mp hr
    have hlift := lift_sound (l := .conditional) rfl (fun _ => Token.is_iff.mp) hts hstop ha
    exact ⟨e, ts, hs, hlift⟩

theorem assignment_sound (ih : s.SoundBelow) : s.Sound (.expression .assignment) := by
  intro c x rest hr
  change (expression c .assignment s).Reads x rest at hr
  rw [expression] at hr
  obtain ⟨target, s₁, h₁, htarget, hr⟩ := hr.parts
  obtain ⟨e, ts, hs, hts, hstop⟩ := conditional_sound ih _ _ _ htarget
  split at hr
  · next op s₂ h₂ ha =>
    obtain ⟨hs₁, hop⟩ := Cursor.rest_of_accept ha
    obtain ⟨value, s₃, h₃, hvalue, hr⟩ := hr.parts
    obtain ⟨e', us, hs₂, hus, hstop'⟩ := ih s₂ (by omega) (.expression .assignment) _ _ _ hvalue
    split at hr
    · next y hy =>
      obtain ⟨rfl, rfl⟩ := Reply.reads_pure_iff.mp hr
      rw [hs₁] at hstop
      obtain rfl := Ending.eq_closed (l := .assignment) hstop (Token.is_iff.mpr hop) (by decide)
      exact ⟨e', ts ++ op :: us, by simp [hs, hs₁, hs₂], .assign hts hop hus hy, hstop'⟩
    · exact absurd hr Reply.not_reads_fail
  · next ha =>
    obtain ⟨rfl, rfl⟩ := Reply.reads_pure_iff.mp hr
    have hlift := lift_sound (l := .assignment) rfl (fun _ => Token.is_iff.mp) hts hstop ha
    exact ⟨e, ts, hs, hlift⟩

theorem comma_sound (ih : s.SoundBelow) : s.Sound (.expression .comma) := by
  intro c x rest hr
  change (expression c .comma s).Reads x rest at hr
  rw [expression] at hr
  obtain ⟨left, s₁, h₁, hleft, hr⟩ := hr.parts
  obtain ⟨e, ts, hs, hts, hstop⟩ := assignment_sound ih _ _ _ hleft
  split at hr
  · next op s₂ h₂ ha =>
    obtain ⟨hs₁, hop⟩ := Cursor.rest_of_accept ha
    obtain ⟨right, s₃, h₃, hright, hr⟩ := hr.parts
    obtain ⟨rfl, rfl⟩ := Reply.reads_pure_iff.mp hr
    obtain ⟨e', us, hs₂, hus, hstop'⟩ := ih s₂ (by omega) (.expression .comma) _ _ _ hright
    exact ⟨e', ts ++ op :: us, by simp [hs, hs₁, hs₂], .comma hts hop hus, hstop'⟩
  · next ha =>
    obtain ⟨rfl, rfl⟩ := Reply.reads_pure_iff.mp hr
    have hlift := lift_sound (l := .comma) rfl (fun _ => Token.is_iff.mp) hts hstop ha
    exact ⟨e, ts, hs, hlift⟩

theorem optional_sound (ih : s.SoundBelow) : s.Sound .optional := by
  rintro c x rest ⟨stop, hr⟩
  rw [optionalExpression] at hr
  split at hr
  · obtain ⟨rfl, rfl⟩ := Reply.reads_pure_iff.mp hr
    exact ⟨.closed, [], rfl, .absent, trivial⟩
  · obtain ⟨value, s₁, h₁, hvalue, hr⟩ := hr.parts
    obtain ⟨rfl, rfl⟩ := Reply.reads_pure_iff.mp hr
    obtain ⟨e, ts, hs, hts, -⟩ := comma_sound ih _ _ _ hvalue
    exact ⟨e, ts, hs, .present hts, trivial⟩

theorem argumentList_sound {s : Cursor} (ih : s.SoundBelow) {c : Context} {count : Nat}
    {xs : List Expr} {rest : List Token} (hr : (argumentList c count s).Reads xs rest) :
    ∃ ts, s.rest = ts ++ rest ∧ Phrase c .argumentList .closed ts xs ∧
      (count ≤ maxArity → count + xs.length ≤ maxArity) := by
  rw [argumentList] at hr
  obtain ⟨hcount, hr⟩ := Reply.reads_note_iff.mp hr
  have hne := overflow_eq_nil_iff.mp hcount
  obtain ⟨value, s₁, h₁, hvalue, hr⟩ := hr.parts
  obtain ⟨e, ts, hs, hts, -⟩ := assignment_sound ih _ _ _ hvalue
  split at hr
  · next comma s₂ h₂ ha =>
    obtain ⟨hs₁, hcomma⟩ := Cursor.rest_of_accept ha
    obtain ⟨values, s₃, h₃, hvalues, hr⟩ := hr.parts
    obtain ⟨rfl, rfl⟩ := Reply.reads_pure_iff.mp hr
    obtain ⟨us, hs₂, hus, hle⟩ := argumentList_sound (ih.mono (by omega)) hvalues
    refine ⟨ts ++ comma :: us, by simp [hs, hs₁, hs₂], .moreArguments hts hcomma hus, fun hc => ?_⟩
    have := hle (by omega)
    rw [List.length_cons]
    omega
  · obtain ⟨close, s₂, h₂, hs₁, hclose, hr⟩ := hr.expected
    obtain ⟨rfl, rfl⟩ := Reply.reads_pure_iff.mp hr
    refine ⟨ts ++ [close], by simp [hs, hs₁], .lastArgument hts hclose, fun hc => ?_⟩
    rw [List.length_singleton]
    omega
termination_by s.size

theorem arguments_sound (ih : s.SoundBelow) : s.Sound .arguments := by
  intro c xs rest hr
  change (arguments c s).Reads xs rest at hr
  rw [arguments] at hr
  split at hr
  · next close s₁ h₁ ha =>
    obtain ⟨rfl, rfl⟩ := Reply.reads_pure_iff.mp hr
    obtain ⟨hs, hclose⟩ := Cursor.rest_of_accept ha
    exact ⟨.closed, [close], hs, .noArguments hclose, trivial⟩
  · obtain ⟨ts, hs, hts, hle⟩ := argumentList_sound ih hr
    exact ⟨.closed, ts, hs, .someArguments hts (by simpa using hle), trivial⟩

/-! ### Statements -/

theorem expressionStatement_sound (ih : s.SoundBelow) {x : Stmt}
    (hr : (expressionStatement c s).Reads x rest) :
    ∃ e ts close y, s.rest = ts ++ [close] ++ rest ∧ Phrase c (.expression .comma) e ts y ∧
      close.kind = .symbol .semicolon ∧ x = .expression y := by
  rw [expressionStatement] at hr
  obtain ⟨y, s₁, h₁, hy, hr⟩ := hr.parts
  obtain ⟨close, s₂, h₂, hs₁, hclose, hr⟩ := hr.expected
  obtain ⟨rfl, rfl⟩ := Reply.reads_pure_iff.mp hr
  obtain ⟨e, ts, hs, hts, -⟩ := comma_sound ih _ _ _ hy
  exact ⟨e, ts, close, y, by simp [hs, hs₁], hts, hclose, rfl⟩

/-- What is shown of the functions that read a statement behind its keyword. -/
def StatementBehind (c : Context) (word : Token) (s : Cursor) (x : Stmt) (rest : List Token) :
    Prop :=
  ∃ e ts, s.rest = ts ++ rest ∧ Phrase c .statement e (word :: ts) x ∧ Follows .statement e rest

variable {word : Token} {x : Stmt}

theorem forStatement_sound (ih : s.SoundBelow) (hword : word.kind = .symbol .forWord)
    (hr : (forStatement c s).Reads x rest) : StatementBehind c word s x rest := by
  rw [forStatement] at hr
  obtain ⟨opening, s₁, h₁, hs, hopen, hr⟩ := hr.expected
  obtain ⟨initial, s₂, h₂, hinitial, hr⟩ := hr.parts
  obtain ⟨ts, hs₁, hts⟩ := ih.closed h₁ .initial rfl hinitial
  obtain ⟨condition, s₃, h₃, hcondition, hr⟩ := hr.parts
  obtain ⟨e₂, us, hs₂, hus, -⟩ := ih s₂ (by omega) .optional _ _ _ ⟨_, hcondition⟩
  obtain ⟨semicolon, s₄, h₄, hs₃, hsemicolon, hr⟩ := hr.expected
  obtain ⟨step, s₅, h₅, hstep, hr⟩ := hr.parts
  obtain ⟨e₃, vs, hs₄, hvs, -⟩ := ih s₄ (by omega) .optional _ _ _ ⟨_, hstep⟩
  obtain ⟨close, s₆, h₆, hs₅, hclose, hr⟩ := hr.expected
  obtain ⟨body, s₇, h₇, hbody, hr⟩ := hr.parts
  obtain ⟨e, ws, hs₆, hws, hfollows⟩ := ih s₆ (by omega) .statement _ _ _ hbody
  obtain ⟨rfl, rfl⟩ := Reply.reads_pure_iff.mp hr
  exact ⟨e, opening :: (ts ++ (us ++ semicolon :: (vs ++ close :: ws))),
    by simp [hs, hs₁, hs₂, hs₃, hs₄, hs₅, hs₆],
    .forLoop hword hopen hts hus hsemicolon hvs hclose hws, hfollows⟩

theorem ifStatement_sound (ih : s.SoundBelow) (hword : word.kind = .symbol .ifWord)
    (hr : (ifStatement c s).Reads x rest) : StatementBehind c word s x rest := by
  rw [ifStatement] at hr
  obtain ⟨opening, s₁, h₁, hs, hopen, hr⟩ := hr.expected
  obtain ⟨condition, s₂, h₂, hcondition, hr⟩ := hr.parts
  obtain ⟨e₁, ts, hs₁, hts, -⟩ := ih s₁ h₁ (.expression .comma) _ _ _ hcondition
  obtain ⟨close, s₃, h₃, hs₂, hclose, hr⟩ := hr.expected
  obtain ⟨whenTrue, s₄, h₄, hwhenTrue, hr⟩ := hr.parts
  obtain ⟨e₂, us, hs₃, hus, hfollows⟩ := ih s₃ (by omega) .statement _ _ _ hwhenTrue
  split at hr
  · next other s₅ h₅ ha =>
    obtain ⟨hs₄, hother⟩ := Cursor.rest_of_accept ha
    obtain ⟨whenFalse, s₆, h₆, hwhenFalse, hr⟩ := hr.parts
    obtain ⟨rfl, rfl⟩ := Reply.reads_pure_iff.mp hr
    obtain ⟨e, vs, hs₅, hvs, hfollows'⟩ := ih s₅ (by omega) .statement _ _ _ hwhenFalse
    -- An `if` without `else` would have taken the `else` itself.
    have hclosed : e₂ = .closed := by
      cases e₂ with
      | closed => rfl
      | greedy => exact absurd hother (hfollows rfl other (by simp [hs₄]))
    subst hclosed
    exact ⟨e, opening :: (ts ++ close :: (us ++ other :: vs)),
      by simp [hs, hs₁, hs₂, hs₃, hs₄, hs₅], .branchElse hword hopen hts hclose hus hother hvs,
      hfollows'⟩
  · next ha =>
    obtain ⟨rfl, rfl⟩ := Reply.reads_pure_iff.mp hr
    exact ⟨.greedy, opening :: (ts ++ close :: us), by simp [hs, hs₁, hs₂, hs₃],
      .branch hword hopen hts hclose hus, fun _ => Cursor.head_of_accept_stop ha⟩

theorem whileStatement_sound (ih : s.SoundBelow) (hword : word.kind = .symbol .whileWord)
    (hr : (whileStatement c s).Reads x rest) : StatementBehind c word s x rest := by
  rw [whileStatement] at hr
  obtain ⟨opening, s₁, h₁, hs, hopen, hr⟩ := hr.expected
  obtain ⟨condition, s₂, h₂, hcondition, hr⟩ := hr.parts
  obtain ⟨e₁, ts, hs₁, hts, -⟩ := ih s₁ h₁ (.expression .comma) _ _ _ hcondition
  obtain ⟨close, s₃, h₃, hs₂, hclose, hr⟩ := hr.expected
  obtain ⟨body, s₄, h₄, hbody, hr⟩ := hr.parts
  obtain ⟨rfl, rfl⟩ := Reply.reads_pure_iff.mp hr
  obtain ⟨e, us, hs₃, hus, hfollows⟩ := ih s₃ (by omega) .statement _ _ _ hbody
  exact ⟨e, opening :: (ts ++ close :: us), by simp [hs, hs₁, hs₂, hs₃],
    .whileLoop hword hopen hts hclose hus, hfollows⟩

theorem jumpStatement_sound
    (hword : word.kind = .symbol .breakWord ∨ word.kind = .symbol .continueWord)
    (hr : (jumpStatement c word s).Reads x rest) : StatementBehind c word s x rest := by
  rw [jumpStatement] at hr
  obtain ⟨hnone, hr⟩ := Reply.reads_note_iff.mp hr
  have hc : c.inLoop = true := by simpa using hnone
  obtain ⟨close, s₁, h₁, hs, hclose, hr⟩ := hr.expected
  obtain ⟨rfl, rfl⟩ := Reply.reads_pure_iff.mp hr
  exact ⟨.closed, [close], hs, .jump hword hc hclose, follows_statement _⟩

theorem returnStatement_sound (ih : s.SoundBelow) (hword : word.kind = .symbol .returnWord)
    (hr : (returnStatement c word s).Reads x rest) : StatementBehind c word s x rest := by
  rw [returnStatement] at hr
  obtain ⟨hnone, hr⟩ := Reply.reads_note_iff.mp hr
  have hc : c.inFunction = true := by simpa using hnone
  obtain ⟨value, s₁, h₁, hvalue, hr⟩ := hr.parts
  obtain ⟨close, s₂, h₂, hs₁, hclose, hr⟩ := hr.expected
  obtain ⟨rfl, rfl⟩ := Reply.reads_pure_iff.mp hr
  obtain ⟨e, ts, hs, hts, -⟩ := optional_sound ih _ _ _ ⟨_, hvalue⟩
  exact ⟨.closed, ts ++ [close], by simp [hs, hs₁], .giveBack hword hc hts hclose,
    follows_statement _⟩

theorem statement_sound (ih : s.SoundBelow) : s.Sound .statement := by
  intro c x rest hr
  change (statement c s).Reads x rest at hr
  have expression (hr : (expressionStatement c s).Reads x rest) :
      ∃ e ts, s.rest = ts ++ rest ∧ Phrase c .statement e ts x ∧ Follows .statement e rest := by
    obtain ⟨e, ts, close, y, hs, hts, hclose, rfl⟩ := expressionStatement_sound ih hr
    exact ⟨.closed, ts ++ [close], hs, .expression hts hclose, follows_statement _⟩
  rw [statement] at hr
  split at hr
  · next t s₁ h₁ hn =>
    have hs := Cursor.rest_of_next hn
    have ih₁ : s₁.SoundBelow := ih.mono (Nat.le_of_lt h₁)
    have behind (hb : StatementBehind c t s₁ x rest) :
        ∃ e ts, s.rest = ts ++ rest ∧ Phrase c .statement e ts x ∧ Follows .statement e rest := by
      obtain ⟨e, ts, hs₁, hts, hfollows⟩ := hb
      exact ⟨e, t :: ts, by simp [hs, hs₁], hts, hfollows⟩
    split at hr
    · next ht => exact behind (forStatement_sound ih₁ ht (Reply.reads_widen_iff.mp hr))
    · next ht => exact behind (ifStatement_sound ih₁ ht (Reply.reads_widen_iff.mp hr))
    · next ht => exact behind (whileStatement_sound ih₁ ht (Reply.reads_widen_iff.mp hr))
    · next ht => exact behind (jumpStatement_sound (.inl ht) (Reply.reads_widen_iff.mp hr))
    · next ht => exact behind (jumpStatement_sound (.inr ht) (Reply.reads_widen_iff.mp hr))
    · next ht => exact behind (returnStatement_sound ih₁ ht (Reply.reads_widen_iff.mp hr))
    · next ht =>
      obtain ⟨body, s₂, h₂, hbody, hr⟩ := hr.parts
      obtain ⟨rfl, rfl⟩ := Reply.reads_pure_iff.mp hr
      obtain ⟨ts, hs₁, hts⟩ := ih.closed h₁ .block rfl hbody
      exact behind ⟨.closed, ts, hs₁, .block ht hts, follows_statement _⟩
    · next ht =>
      obtain ⟨value, s₂, h₂, hvalue, hr⟩ := hr.parts
      obtain ⟨close, s₃, h₃, hs₂, hclose, hr⟩ := hr.expected
      obtain ⟨rfl, rfl⟩ := Reply.reads_pure_iff.mp hr
      obtain ⟨e, ts, hs₁, hts, -⟩ := ih s₁ h₁ (.expression .comma) _ _ _ hvalue
      exact behind ⟨.closed, ts ++ [close], by simp [hs₁, hs₂], .print ht hts hclose,
        follows_statement _⟩
    · next ht =>
      obtain ⟨rfl, rfl⟩ := Reply.reads_pure_iff.mp hr
      exact behind ⟨.closed, [], rfl, .empty ht, follows_statement _⟩
    · exact expression hr
  · exact expression hr

theorem initial_sound (ih : s.SoundBelow) : s.Sound .initial := by
  intro c x rest hr
  change (forInitial c s).Reads x rest at hr
  have expression (hr : ((expressionStatement c s).andThen fun initial s₂ h₂ =>
      .pure (some initial) s₂).Reads x rest) :
      ∃ e ts, s.rest = ts ++ rest ∧ Phrase c .initial e ts x ∧ Follows .initial e rest := by
    obtain ⟨initial, s₂, h₂, hinitial, hr⟩ := hr.parts
    obtain ⟨rfl, rfl⟩ := Reply.reads_pure_iff.mp hr
    obtain ⟨e, ts, close, y, hs, hts, hclose, rfl⟩ := expressionStatement_sound ih hinitial
    exact ⟨.closed, ts ++ [close], hs, .initialExpression hts hclose, trivial⟩
  rw [forInitial] at hr
  split at hr
  · next t s₁ h₁ hn =>
    have hs := Cursor.rest_of_next hn
    split at hr
    · next ht =>
      obtain ⟨rfl, rfl⟩ := Reply.reads_pure_iff.mp hr
      exact ⟨.closed, [t], hs, .noInitial ht, trivial⟩
    · next ht =>
      obtain ⟨initial, s₂, h₂, hinitial, hr⟩ := hr.parts
      obtain ⟨rfl, rfl⟩ := Reply.reads_pure_iff.mp hr
      obtain ⟨ts, hs₁, hts⟩ := ih.closed h₁ .variableDefinition rfl hinitial
      exact ⟨.closed, t :: ts, by simp [hs, hs₁], .initialVariable ht hts, trivial⟩
    · exact expression hr
  · exact expression hr

/-! ### Declarations -/

theorem variableDefinition_sound (ih : s.SoundBelow) : s.Sound .variableDefinition := by
  intro c x rest hr
  change (variableDefinition c s).Reads x rest at hr
  rw [variableDefinition] at hr
  obtain ⟨name, s₁, h₁, hs, hname, hr⟩ := hr.expectedName
  split at hr
  · next equal s₂ h₂ ha =>
    obtain ⟨hs₁, hequal⟩ := Cursor.rest_of_accept ha
    obtain ⟨value, s₃, h₃, hvalue, hr⟩ := hr.parts
    obtain ⟨close, s₄, h₄, hs₃, hclose, hr⟩ := hr.expected
    obtain ⟨rfl, rfl⟩ := Reply.reads_pure_iff.mp hr
    obtain ⟨e, ts, hs₂, hts, -⟩ := ih s₂ (by omega) (.expression .comma) _ _ _ hvalue
    exact ⟨.closed, name :: equal :: (ts ++ [close]), by simp [hs, hs₁, hs₂, hs₃],
      .value hname hequal hts hclose, trivial⟩
  · obtain ⟨close, s₂, h₂, hs₁, hclose, hr⟩ := hr.expected
    obtain ⟨rfl, rfl⟩ := Reply.reads_pure_iff.mp hr
    exact ⟨.closed, [name, close], by simp [hs, hs₁], .noValue hname hclose, trivial⟩

theorem definition_sound (ih : s.SoundBelow) : s.Sound .definition := by
  intro c x rest hr
  change (definition c s).Reads x rest at hr
  rw [definition] at hr
  obtain ⟨name, s₁, h₁, hs, hname, hr⟩ := hr.expectedName
  obtain ⟨names, s₂, h₂, hnames, hr⟩ := hr.parts
  obtain ⟨ps, hs₁, hps⟩ := parameters_sound hnames
  obtain ⟨brace, s₃, h₃, hs₂, hbrace, hr⟩ := hr.expected
  obtain ⟨body, s₄, h₄, hbody, hr⟩ := hr.parts
  obtain ⟨rfl, rfl⟩ := Reply.reads_pure_iff.mp hr
  obtain ⟨ts, hs₃, hts⟩ := ih.closed (by omega) .block rfl hbody
  exact ⟨.closed, name :: (ps ++ brace :: ts), by simp [hs, hs₁, hs₂, hs₃],
    .definition hname hps hbrace hts, trivial⟩

theorem members_sound (ih : s.SoundBelow) : s.Sound .members := by
  intro c x rest hr
  change (members c s).Reads x rest at hr
  rw [members] at hr
  split at hr
  · next t s₁ h₁ hn =>
    have hs := Cursor.rest_of_next hn
    split at hr
    · next ht =>
      obtain ⟨rfl, rfl⟩ := Reply.reads_pure_iff.mp hr
      exact ⟨.closed, [t], hs, .membersEnd ht, trivial⟩
    · next ht =>
      obtain ⟨d, s₂, h₂, hd, hr⟩ := hr.parts
      obtain ⟨ms, s₃, h₃, hms, hr⟩ := hr.parts
      obtain ⟨rfl, rfl⟩ := Reply.reads_pure_iff.mp hr
      obtain ⟨ts, hs₁, hts⟩ := ih.closed h₁ .definition rfl hd
      obtain ⟨us, hs₂, hus⟩ := ih.closed (by omega) .members rfl hms
      exact ⟨.closed, t :: (ts ++ us), by simp [hs, hs₁, hs₂], .classMethod ht hts hus, trivial⟩
    · obtain ⟨d, s₂, h₂, hd, hr⟩ := hr.parts
      obtain ⟨ms, s₃, h₃, hms, hr⟩ := hr.parts
      obtain ⟨rfl, rfl⟩ := Reply.reads_pure_iff.mp hr
      obtain ⟨e, ts, hs, hts, -⟩ := definition_sound ih _ _ _ hd
      obtain rfl := hts.eq_closed rfl
      obtain ⟨us, hs₂, hus⟩ := ih.closed h₂ .members rfl hms
      exact ⟨.closed, ts ++ us, by simp [hs, hs₂], .method hts hus, trivial⟩
  · exact absurd hr Reply.not_reads_fail

theorem classDefinition_sound (ih : s.SoundBelow) (hword : word.kind = .symbol .classWord)
    (hr : (classDefinition c s).Reads x rest) :
    ∃ ts, s.rest = ts ++ rest ∧ Phrase c .declaration .closed (word :: ts) x := by
  rw [classDefinition] at hr
  obtain ⟨name, s₁, h₁, hs, hname, hr⟩ := hr.expectedName
  obtain ⟨brace, s₂, h₂, hs₁, hbrace, hr⟩ := hr.expected
  obtain ⟨ms, s₃, h₃, hms, hr⟩ := hr.parts
  obtain ⟨rfl, rfl⟩ := Reply.reads_pure_iff.mp hr
  obtain ⟨ts, hs₂, hts⟩ := ih.closed (by omega) .members rfl hms
  exact ⟨name :: brace :: ts, by simp [hs, hs₁, hs₂], .classDefinition hword hname hbrace hts⟩

theorem declaration_sound (ih : s.SoundBelow) : s.Sound .declaration := by
  intro c x rest hr
  change (declaration c s).Reads x rest at hr
  -- A statement stands in the place of a declaration if it does not begin with `fun`.
  have statement (hfun : Lacks .funWord s.rest) (hr : (statement c s).Reads x rest) :
      ∃ e ts, s.rest = ts ++ rest ∧ Phrase c .declaration e ts x ∧ Follows .declaration e rest := by
    obtain ⟨e, ts, hs, hts, hfollows⟩ := statement_sound ih _ _ _ hr
    refine ⟨e, ts, hs, .statement hts fun t ht => hfun t ?_, hfollows⟩
    rw [hs, List.head?_append, ht]
    rfl
  rw [declaration] at hr
  split at hr
  · next t s₁ h₁ hn =>
    have hs := Cursor.rest_of_next hn
    split at hr
    · next ht =>
      obtain ⟨ts, hs₁, hts⟩ := classDefinition_sound (ih.mono (Nat.le_of_lt h₁)) ht
        (Reply.reads_widen_iff.mp hr)
      exact ⟨.closed, t :: ts, by simp [hs, hs₁], hts, follows_declaration _⟩
    · next ht =>
      obtain ⟨d, s₂, h₂, hd, hr⟩ := hr.parts
      obtain ⟨rfl, rfl⟩ := Reply.reads_pure_iff.mp hr
      obtain ⟨ts, hs₁, hts⟩ := ih.closed h₁ .definition rfl hd
      exact ⟨.closed, t :: ts, by simp [hs, hs₁], .function ht hts, follows_declaration _⟩
    · next ht =>
      have hr := Reply.reads_widen_iff.mp hr
      obtain ⟨ts, hs₁, hts⟩ := ih.closed h₁ .variableDefinition rfl hr
      exact ⟨.closed, t :: ts, by simp [hs, hs₁], .declare ht hts, follows_declaration _⟩
    · next hclass hfun hvar =>
      refine statement ?_ hr
      intro t' ht'
      obtain rfl : t = t' := by simpa [hs] using ht'
      exact hfun
  · next hn =>
    exact statement (by simp [Lacks, Cursor.rest_of_next_stop hn]) hr

theorem block_sound (ih : s.SoundBelow) : s.Sound .block := by
  intro c x rest hr
  change (block c s).Reads x rest at hr
  rw [block] at hr
  split at hr
  · next t s₁ h₁ hn =>
    split at hr
    · next ht =>
      obtain ⟨rfl, rfl⟩ := Reply.reads_pure_iff.mp hr
      exact ⟨.closed, [t], Cursor.rest_of_next hn, .blockEnd (Token.is_iff.mp ht), trivial⟩
    · obtain ⟨first, s₂, h₂, hfirst, hr⟩ := hr.parts
      obtain ⟨others, s₃, h₃, hothers, hr⟩ := hr.parts
      obtain ⟨rfl, rfl⟩ := Reply.reads_pure_iff.mp hr
      obtain ⟨e, ts, hs, hts, -⟩ := declaration_sound ih _ _ _ hfirst
      obtain ⟨us, hs₂, hus⟩ := ih.closed h₂ .block rfl hothers
      exact ⟨.closed, ts ++ us, by simp [hs, hs₂], .blockMore hts hus, trivial⟩
  · exact absurd hr Reply.not_reads_fail

theorem program_sound (ih : s.SoundBelow) : s.Sound .program := by
  rintro c x rest ⟨rfl, rfl, hr⟩
  rw [Parsed.ofCursor] at hr
  split at hr
  · next hn =>
    obtain ⟨rfl, -⟩ := Parsed.mk.inj hr
    exact ⟨.closed, [], Cursor.rest_of_next_stop hn, .programEnd, trivial⟩
  · next t s₁ h₁ hn =>
    split at hr
    · next first s₂ reports h₂ hd =>
      obtain ⟨rfl, herrors⟩ := Parsed.mk.inj hr
      obtain ⟨rfl, hnone⟩ := List.append_eq_nil_iff.mp herrors
      have hothers : Part.program.Reads .outermost s₂ (Parsed.ofCursor s₂).program [] :=
        ⟨rfl, rfl, by rw [← hnone]⟩
      obtain ⟨e, ts, hs, hts, -⟩ := declaration_sound ih _ _ _ ⟨s₂, h₂, hd, rfl⟩
      obtain ⟨us, hs₂, hus⟩ := ih.closed h₂ .program rfl hothers
      exact ⟨.closed, ts ++ us, by simp [hs, hs₂], .programMore hts hus, trivial⟩
    · next e s₂ reports h₂ hd =>
      obtain ⟨-, herrors⟩ := Parsed.mk.inj hr
      exact absurd herrors (by simp)

end Reading

/-- **What is read is a phrase**: a part that the reader reads without a mistake is a phrase of that
part, and what is left may stand behind it. -/
theorem phrase_of_reads (s : Cursor) (p : Part) : s.Sound p := by
  have ih : s.SoundBelow := fun s' _ p' => phrase_of_reads s' p'
  cases p with
  | expression l =>
    cases l with
    | comma => exact Reading.comma_sound ih
    | assignment => exact Reading.assignment_sound ih
    | conditional => exact Reading.conditional_sound ih
    | tier t => exact Reading.tiers_sound ih t
    | unary => exact Reading.unary_sound ih
    | call => exact Reading.call_sound ih
  | primary => exact Reading.primary_sound ih
  | arguments => exact Reading.arguments_sound ih
  | argumentList =>
    intro c x rest hr
    obtain ⟨ts, hs, hts, -⟩ := Reading.argumentList_sound ih hr
    exact ⟨.closed, ts, hs, hts, trivial⟩
  | optional => exact Reading.optional_sound ih
  | block => exact Reading.block_sound ih
  | declaration => exact Reading.declaration_sound ih
  | members => exact Reading.members_sound ih
  | definition => exact Reading.definition_sound ih
  | variableDefinition => exact Reading.variableDefinition_sound ih
  | statement => exact Reading.statement_sound ih
  | initial => exact Reading.initial_sound ih
  | program => exact Reading.program_sound ih
termination_by s.size

end Lox
