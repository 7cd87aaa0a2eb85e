import Lox.Proofs.Machine.Match

/-!
# Runs that simulate each other

`Run.Sim` says of two runs that from machines that match in a world they come to the same end on
machines that match in a larger one: both end with values, or both with errors. A bound on the depth
may be too low for one run and not for the other; a `Slack` says for which of them.

The machines enter new frames together (`Run.Sim.inFrame`), or the second one does so alone
(`Run.Sim.inFrameIdle`). There is one lemma for each step.
-/

namespace Lox

variable {α α' β β' : Type}

/-- Which of two runs may reach its bound alone. -/
structure Slack where
  /-- The first run may. -/
  first : Prop
  /-- The second run may. -/
  second : Prop

/-- Outcomes that match in a larger world, with values as `R` says in that world. -/
inductive Outcome.Sim (cs : List Revision) (S : Slack) (w : World N) (a a' : Scopes)
    (R : World N → α → α' → Prop) : Outcome α → Outcome α' → Prop where
  | done {w₁ : World N} {value : α} {value' : α'} {m m' : Machine} (hw : w ≤ w₁)
      (hvalue : R w₁ value value') (hm : m.Match cs w₁ a a' m') :
    Sim cs S w a a' R (.done value m) (.done value' m')
  | failed {w₁ : World N} {e e' : RuntimeError} {m m' : Machine} (hw : w ≤ w₁)
      (he : e.Revised cs e') (hm : m.Match cs w₁ a a' m') : Sim cs S w a a' R (.failed e m) (.failed e' m')
  | unfinished : Sim cs S w a a' R .unfinished .unfinished
  | first (h : S.first) (o' : Outcome α') : Sim cs S w a a' R .unfinished o'
  | second (h : S.second) (o : Outcome α) : Sim cs S w a a' R o .unfinished

variable {cs : List Revision} {S : Slack} {w w₁ : World N} {a a' b b' : Scopes} {f f' : FrameId}
  {R : World N → α → α' → Prop} {T : World N → β → β' → Prop}

namespace Outcome.Sim

variable {o : Outcome α} {o' : Outcome α'}

theorem of_le (h : Outcome.Sim cs S w₁ a a' R o o') (hw : w ≤ w₁) :
    Outcome.Sim cs S w a a' R o o' := by
  cases h with
  | done hw₁ hvalue hm => exact .done (hw.trans hw₁) hvalue hm
  | failed hw₁ he hm => exact .failed (hw.trans hw₁) he hm
  | unfinished => exact .unfinished
  | first h o' => exact .first h o'
  | second h o => exact .second h o

theorem onMachine {k k' : Machine → Machine} (h : Outcome.Sim cs S w₁ b b' R o o') (hw : w ≤ w₁)
    (hk : ∀ w₂ m m', w₁ ≤ w₂ → m.Match cs w₂ b b' m' → (k m).Match cs w₂ a a' (k' m')) :
    Outcome.Sim cs S w a a' R (o.onMachine k) (o'.onMachine k') := by
  cases h with
  | done hw₁ hvalue hm => exact .done (hw.trans hw₁) hvalue (hk _ _ _ hw₁ hm)
  | failed hw₁ he hm => exact .failed (hw.trans hw₁) he (hk _ _ _ hw₁ hm)
  | unfinished => exact .unfinished
  | first h o' => exact .first h _
  | second h o => exact .second h _

end Outcome.Sim

namespace Run

/-- Two runs that take machines that match to outcomes that match. -/
def Sim (cs : List Revision) (S : Slack) (w : World N) (a a' : Scopes) (R : World N → α → α' → Prop)
    (r : Run α) (r' : Run α') : Prop :=
  ∀ m m', m.Match cs w a a' m' → (r m).Sim cs S w a a' R (r' m')

/-! ### Runs put together -/

theorem sim_pure {value : α} {value' : α'} (h : R w value value') :
    Sim cs S w a a' R (pure value) (pure value') :=
  fun _ _ hm => .done le_rfl h hm

theorem sim_look {k : Machine → α} {k' : Machine → α'}
    (h : ∀ m m', m.Match cs w a a' m' → R w (k m) (k' m')) : Sim cs S w a a' R (look k) (look k') :=
  fun m m' hm => .done le_rfl (h m m' hm) hm

theorem sim_fault {t t' : Token} (ht : t.Revised cs t') (cause : RuntimeFault) :
    Sim cs S w a a' R (fault t cause) (fault t' cause) :=
  fun _ _ hm => .failed le_rfl (.fault ht cause) hm

theorem Sim.bind {r : Run α} {r' : Run α'} {next : α → Run β} {next' : α' → Run β'}
    (hr : Sim cs S w a a' R r r')
    (hnext : ∀ w₁, w ≤ w₁ → ∀ value value', R w₁ value value' →
      Sim cs S w₁ a a' T (next value) (next' value')) :
    Sim cs S w a a' T (r >>= next) (r' >>= next') := by
  intro m m' hm
  have hfirst := hr m m' hm
  show Outcome.Sim cs S w a a' T (r.bind next m) (r'.bind next' m')
  unfold Run.bind
  generalize r m = o, r' m' = o' at hfirst
  cases hfirst with
  | done hw hvalue hm₁ => exact (hnext _ hw _ _ hvalue _ _ hm₁).of_le hw
  | failed hw he hm₁ => exact .failed hw he hm₁
  | unfinished => exact .unfinished
  | first h o' => exact .first h _
  | second h o => exact .second h _

/-- Both runs enter new frames. -/
theorem Sim.inFrame {r : Run α} {r' : Run α'}
    (h : ∀ w₁ f f', w ≤ w₁ → w₁.Main f f' → Sim cs S w₁ (a.inside f) (a'.inside f') R r r') :
    Sim cs S w a a' R (inFrame r) (inFrame r') := by
  intro m m' hm
  have hle := w.le_extend m.store.nextFrame
  have hinside := h _ _ _ hle hm.store.main_nextFrame _ _ hm.enterFrame
  rw [inFrame_eq, inFrame_eq, hm.scope, hm.scope']
  exact hinside.onMachine hle fun w₂ _ _ hw₂ hm₁ =>
    hm₁.backIn (hm.stands.scope.mono (hle.trans hw₂))

/-- The second run enters a new frame alone. -/
theorem Sim.inFrameIdle {w : World .renamed} {R : World .renamed → α → α' → Prop} {r : Run α}
    {r' : Run α'} (h : ∀ w₁ f', w ≤ w₁ → w₁.Stands a.scope f' →
      Sim cs S w₁ a (a'.inside f') R r r') :
    Sim cs S w a a' R r (Run.inFrame r') := by
  intro m m' hm
  have hle := w.le_extend a.scope
  have hinside := h _ _ hle hm.enterIdle.stands.scope _ _ hm.enterIdle
  rw [inFrame_eq, hm.scope', ← (r m).onMachine_id]
  exact hinside.onMachine hle fun w₂ _ _ hw₂ hm₁ =>
    hm₁.backInIdle (hm.stands.scope.mono (hle.trans hw₂))

/-- Both runs enter a call, and leave it where it was entered. -/
theorem Sim.inCall {r : Run α} {r' : Run α'} (hf : w.Stands f f')
    (h : Sim cs S w (a.called f) (a'.called f') R r r') :
    Sim cs S w a a' R (inCall f r) (inCall f' r') := by
  intro m m' hm
  have hinside := h _ _ (hm.enterCall hf)
  rw [inCall_eq, inCall_eq]
  exact hinside.onMachine le_rfl fun w₂ _ _ hw₂ hm₁ => hm₁.leaveCall (hm.stands.mono hw₂)

/-! ### Steps -/

/-- The same value in all worlds. -/
abbrev Same : World N → α → α → Prop := fun _ => Eq

variable {v v' u u' : Value} {t t' : Token}

theorem sim_has (ht : t'.lexeme = t.lexeme) :
    Sim cs S w a a' Same (look fun m => m.store.frames.has m.scope t.lexeme)
      (look fun m => m.store.frames.has m.scope t'.lexeme) :=
  sim_look fun m m' hm => by
    rw [hm.scope, hm.scope', ht, hm.store.frames.has t.lexeme hm.stands.scope]

theorem sim_lookUp (ht : t.Revised cs t') :
    Sim cs S w a a' (Value.Match cs) (lookUp t) (lookUp t') := by
  intro m m' hm
  have hget := hm.store.frames.get? t.lexeme hm.stands.scope
  unfold lookUp
  rw [hm.scope, hm.scope', ht.lexeme]
  generalize m.store.frames.get? a.scope t.lexeme = found,
    m'.store.frames.get? a'.scope t.lexeme = found' at hget
  cases hget with
  | none => exact .failed le_rfl (.fault ht _) hm
  | some hv => exact .done le_rfl hv hm

theorem sim_change {k k' : Store → Store}
    (h : ∀ s s' : Store, s.Match cs w s' → (k s).Match cs w (k' s')) :
    Sim cs S w a a' Same (change k) (change k') :=
  fun _ _ hm => .done le_rfl rfl (hm.withStore le_rfl (h _ _ hm.store))

theorem sim_define (hf : w.Main a.scope a'.scope) (ht : t'.lexeme = t.lexeme)
    (hv : v.Match cs w v') : Sim cs S w a a' Same (define t.lexeme v) (define t'.lexeme v') := by
  intro m m' hm
  rw [ht]
  refine .done le_rfl rfl (hm.withStore le_rfl ?_)
  rw [hm.scope, hm.scope']
  exact hm.store.define hf t.lexeme hv

theorem sim_assign (ht : t'.lexeme = t.lexeme) (hv : v.Match cs w v') :
    Sim cs S w a a' Same (assign t.lexeme v) (assign t'.lexeme v') := by
  intro m m' hm
  rw [ht]
  refine .done le_rfl rfl (hm.withStore le_rfl ?_)
  rw [hm.scope, hm.scope']
  exact hm.store.assign hm.stands.scope t.lexeme hv

theorem sim_defineAll {V : Variation} (hf : w.Main a.scope a'.scope) {ps ps' : List Token}
    (hps : List.Forall₂ V.token ps ps') {vs vs' : List Value}
    (hvs : List.Forall₂ (Value.Match cs w) vs vs') :
    Sim cs S w a a' Same (defineAll ps vs) (defineAll ps' vs') := by
  induction hps generalizing w vs vs' with
  | nil => exact sim_pure rfl
  | cons ht hps ih =>
    cases hvs with
    | nil => exact sim_pure rfl
    | cons hv hvs =>
      exact (sim_define hf (V.lexeme ht) hv).bind fun w₁ hw _ _ _ =>
        ih (hf.mono hw) (forall₂_mono hvs hw)

theorem sim_takeSerial : Sim cs S w a a' Same takeSerial takeSerial := by
  have hserial : Sim cs S w a a' Same (look fun m => m.store.serial)
      (look fun m => m.store.serial) :=
    sim_look fun _ _ hm => hm.store.serial.symm
  exact hserial.bind fun _ _ _ _ h => (sim_change fun _ _ hs => hs.takeSerial).bind
    fun _ _ _ _ _ => sim_pure h

theorem sim_makeClosure {r r' : Routine} (hr : r.Revised cs r') (isInitializer : Bool) :
    Sim cs S w a a' (Closure.Match cs) (makeClosure r isInitializer)
      (makeClosure r' isInitializer) := by
  have hscope (w₁ : World N) :
      Sim cs S w₁ a a' World.Stands (look Machine.scope) (look Machine.scope) :=
    sim_look fun _ _ hm => by rw [hm.scope, hm.scope']; exact hm.stands.scope
  exact sim_takeSerial.bind fun w₁ _ serial serial' hserial => (hscope w₁).bind
    fun w₂ _ scope scope' hscope => sim_pure ⟨hserial.symm, hr, hscope, rfl⟩

theorem sim_makeMethods {ds ds' : List Definition}
    (hds : List.Forall₂ (Definition.Revised cs) ds ds') :
    Sim cs S w a a' (fun w₁ => Table.Like (Closure.Match cs w₁)) (makeMethods ds)
      (makeMethods ds') := by
  suffices hgo : ∀ methods methods' : Table Closure, methods.Like (Closure.Match cs w) methods' →
      Sim cs S w a a' (fun w₁ => Table.Like (Closure.Match cs w₁)) (makeMethods.go methods ds)
        (makeMethods.go methods' ds') from hgo .empty .empty .empty
  induction hds generalizing w with
  | nil => exact fun methods methods' hmethods => sim_pure hmethods
  | @cons d d' ds ds' hd hds ih =>
    intro methods methods' hmethods
    unfold makeMethods.go
    dsimp only
    rw [hd.name]
    exact (sim_makeClosure hd.routine _).bind fun w₁ hw method method' hmethod =>
      ih _ _ ((hmethods.imp fun _ _ h => h.mono hw).insert d.name.lexeme hmethod)

theorem sim_makeClass (ht : t'.lexeme = t.lexeme)
    {methods methods' classMethods classMethods' : Table Closure}
    (hm : methods.Like (Closure.Match cs w) methods')
    (hc : classMethods.Like (Closure.Match cs w) classMethods') :
    Sim cs S w a a' (Class.Match cs) (makeClass t.lexeme methods classMethods)
      (makeClass t'.lexeme methods' classMethods') :=
  sim_takeSerial.bind fun _ hw _ _ hserial => sim_pure
    ⟨hserial.symm, ht, hm.imp fun _ _ h => h.mono hw, hc.imp fun _ _ h => h.mono hw⟩

theorem sim_makeObject {c c' : Class} (hc : c.Match cs w c') :
    Sim cs S w a a' Same (makeObject c) (makeObject c') := by
  have hnext : Sim cs S w a a' Same (look fun m => m.store.nextObject)
      (look fun m => m.store.nextObject) := sim_look fun _ _ hm => hm.store.nextObject.symm
  exact hnext.bind fun _ hw _ _ h => (sim_change fun _ _ hs => hs.allocObject (hc.mono hw)).bind
    fun _ _ _ _ _ => sim_pure h

/-- A method is bound in new frames, which stand for each other. -/
theorem sim_bindMethod {c c' : Closure} (hc : c.Match cs w c') (hv : v.Match cs w v') :
    Sim cs S w a a' (Closure.Match cs) (bindMethod c v) (bindMethod c' v') := by
  intro m m' hm
  have hle := w.le_extend m.store.nextFrame
  have hmain := hm.store.main_nextFrame
  have hstore : Store.Match cs (w.extend m.store.nextFrame)
      (((m.store.allocFrame (some c.scope)).define m.store.nextFrame thisName v).takeSerial)
      (((m'.store.allocFrame (some c'.scope)).define m'.store.nextFrame thisName v').takeSerial) :=
    ((hm.store.allocFrame hc.scope).define hmain thisName (hv.mono hle)).takeSerial
  refine .done hle ⟨hm.store.serial, hc.routine, hmain.stands, hc.isInitializer⟩ ?_
  exact hm.withStore hle hstore

theorem sim_member (hv : v.Match cs w v') (ht : t.Revised cs t') :
    Sim cs S w a a' (Value.Match cs) (member v t) (member v' t') := by
  have hlexeme := ht.lexeme
  cases hv with
  | @klass c c' hc =>
    unfold member
    dsimp only
    rw [hlexeme]
    obtain ⟨hg, hg'⟩ | ⟨method, method', hg, hg', hmethod⟩ :=
        eq_none_or_exists_of_rel (hc.classMethods.get? t.lexeme) <;>
      rw [hg, hg']
    · exact sim_fault ht _
    · exact sim_pure (.function hmethod)
  | object id =>
    have hobject : Sim cs S w a a' (fun w₁ => Option.Rel (Object.Match cs w₁))
        (look fun m => m.store.objects[id]?) (look fun m => m.store.objects[id]?) :=
      sim_look fun _ _ hm => hm.store.objects id
    refine hobject.bind fun w₁ _ found found' hfound => ?_
    obtain ⟨rfl, rfl⟩ | ⟨o, o', rfl, rfl, ho⟩ := eq_none_or_exists_of_rel hfound
    · rw [hlexeme]
      exact sim_fault ht _
    · dsimp only
      rw [hlexeme]
      obtain ⟨hg, hg'⟩ | ⟨value, value', hg, hg', hvalue⟩ :=
        eq_none_or_exists_of_rel (ho.fields.get? t.lexeme) <;> rw [hg, hg']
      · obtain ⟨hg, hg'⟩ | ⟨method, method', hg, hg', hmethod⟩ :=
          eq_none_or_exists_of_rel (ho.ofClass.methods.get? t.lexeme) <;> rw [hg, hg']
        · obtain ⟨hg, hg'⟩ | ⟨method, method', hg, hg', hmethod⟩ :=
            eq_none_or_exists_of_rel (ho.ofClass.classMethods.get? t.lexeme) <;> rw [hg, hg']
          · exact sim_fault ht _
          · exact sim_pure (.function hmethod)
        · exact (sim_bindMethod hmethod (.object id)).bind fun _ _ _ _ h => sim_pure (.function h)
      · exact sim_pure hvalue
  | _ => exact sim_fault ht _

/-- The value of an operator on two numbers is plain data. -/
theorem match_arithmetic (operator : Symbol) (a b : Float) :
    Option.Rel (Value.Match cs w) (arithmetic operator a b) (arithmetic operator a b) := by
  unfold arithmetic
  split
  case h_10 => exact .none
  all_goals first | exact .some (.number _) | exact .some (.bool _)

theorem match_applied {s s' : Store} (hs : s.Match cs w s') (operator : Symbol)
    (hv : v.Match cs w v') (hu : u.Match cs w u') :
    Option.Rel (Value.Match cs w) (applied? s operator v u) (applied? s' operator v' u') := by
  fun_cases applied? s operator v u
  case case1 => exact .some hu
  case case2 =>
    rw [applied?, hv.same hu]
    exact .some (.bool _)
  case case3 =>
    rw [applied?, hv.same hu]
    exact .some (.bool _)
  case case4 hcomma hequal hunequal =>
    cases hv
    cases hu
    rw [applied?.eq_4 _ _ _ _ hcomma hequal hunequal]
    exact match_arithmetic operator _ _
  case case5 =>
    cases hv
    rw [applied?.eq_5, hs.display hu]
    exact .some (.text _)
  -- Values that match are of one kind, so the operator does not take the others either.
  case case6 hcomma hequal hunequal htext hnumbers =>
    rw [applied?.eq_6 s' operator v' u' hcomma hequal hunequal]
    · exact .none
    · rintro a rfl rfl
      cases hv
      exact htext a rfl rfl
    · rintro a b rfl rfl
      cases hv
      cases hu
      exact hnumbers a b rfl rfl

theorem sim_binary (ht : t.Revised cs t') (hv : v.Match cs w v') (hu : u.Match cs w u') :
    Sim cs S w a a' (Value.Match cs) (binary t v u) (binary t' v' u') := by
  intro m m' hm
  have happlied (s : Symbol) := match_applied hm.store s hv hu
  unfold binary
  rw [ht.kind, ht.lexeme]
  cases t.kind with
  | symbol s =>
    dsimp only
    obtain ⟨hg, hg'⟩ | ⟨value, value', hg, hg', hvalue⟩ :=
      eq_none_or_exists_of_rel (happlied s) <;> rw [hg, hg']
    · exact .failed le_rfl (.fault ht _) hm
    · exact .done le_rfl hvalue hm
  | _ => exact .failed le_rfl (.fault ht _) hm

theorem sim_unary (ht : t.Revised cs t') (hv : v.Match cs w v') :
    Sim cs S w a a' (Value.Match cs) (unary t v) (unary t' v') := by
  unfold unary
  rw [ht.is, hv.isTruthy, ht.lexeme]
  split
  · exact sim_pure (.bool _)
  · cases hv with
    | number value => exact sim_pure (.number _)
    | _ => exact sim_fault ht _

theorem sim_display (hv : v.Match cs w v') :
    Sim cs S w a a' Same (look fun m => m.store.display v) (look fun m => m.store.display v') :=
  sim_look fun _ _ hm => (hm.store.display hv).symm

theorem sim_printLine (text : String) : Sim cs S w a a' Same (printLine text) (printLine text) := by
  intro m m' hm
  unfold printLine
  dsimp only
  rw [hm.output]
  have hwritten (channel : Channel) : Machine.Match cs w a a' { m with output := channel }
      { m' with output := channel } := { hm with output := rfl }
  split
  · exact .done le_rfl rfl (hwritten _)
  · exact .failed le_rfl .outputClosed (hwritten _)

theorem sim_setReturned (hv : v.Match cs w v') :
    Sim cs S w a a' Same (setReturned v) (setReturned v') :=
  fun _ _ hm => .done le_rfl rfl { hm with returned := hv }

theorem sim_takeReturned : Sim cs S w a a' (Value.Match cs) takeReturned takeReturned :=
  fun _ _ hm => .done le_rfl hm.returned { hm with returned := .nil }

theorem sim_reading (host : Host) (b : Builtin) :
    Sim cs S w a a' (Value.Match cs) (reading host b) (reading host b) := by
  intro m m' hm
  unfold reading
  rw [hm.readings]
  exact .done le_rfl (.number _) { hm with readings := rfl }

end Run

end Lox
