import Lox.Proofs.Machine.Within
import Lox.Proofs.Program.Boxed

/-!
# Arrows and blocks agree

A function that is written with an arrow does the same as one with a block that returns the value:
statement by statement, a program and the program with its arrows in blocks end in the same way
(`Run.trace_boxed`). The block is one frame more, and functions made in it are run in that frame, so
the machines correspond only up to frames that are empty. The machine at the start is one of a
session, or any other that refers only to frames that exist (`Session.sound_of_reaches`).

How the statements of a program end one by one tells how the program itself ends
(`Run.interpret_eq_ofTrace`).
-/

namespace Lox

/-- Machines that are the same up to a renaming of frames, empty frames, and arrows in blocks: in
some world the second one matches the first one. -/
def Machine.Corresponds (m m' : Machine) : Prop :=
  ∃ w : World .renamed, m.Match Variation.boxes.throughout w m.scopes m'.scopes m'

theorem Machine.Match.corresponds {w : World .renamed} {a a' : Scopes} {m m' : Machine}
    (h : m.Match Variation.boxes.throughout w a a' m') : m.Corresponds m' := by
  obtain rfl := h.scopes
  obtain rfl := h.scopes'
  exact ⟨w, h⟩

namespace Outcome

variable {α β : Type}

/-- A result that may be absent, as an outcome. -/
def ofOption : Option (α × Machine) → Outcome α
  | some (value, m) => .done value m
  | none => .unfinished

theorem ofOption_map (k : α → β) (r : Machine → Option (α × Machine)) (m : Machine) :
    ofOption ((r m).map fun (value, m₁) => (k value, m₁)) =
      Run.bind (fun m => ofOption (r m)) (fun value => Run.pure (k value)) m := by
  unfold Run.bind
  dsimp only
  cases r m <;> rfl

/-- How a program ends, read off the list of how its statements ended. -/
def ofTrace : Option (List (Except RuntimeError Completion) × Machine) → Outcome Unit
  | none => .unfinished
  | some (results, m) =>
    match results.getLast? with
    | some (.error e) => .failed e m
    | _ => .done () m

theorem ofTrace_map_ok (completion : Completion)
    (o : Option (List (Except RuntimeError Completion) × Machine)) :
    ofTrace (o.map fun (results, m) => (.ok completion :: results, m)) = ofTrace o := by
  obtain _ | ⟨results, m⟩ := o
  · rfl
  · cases results with
    | nil => rfl
    | cons result results => simp [ofTrace, List.getLast?_cons_cons]

theorem ofOption_eq_done {o : Option (α × Machine)} {value : α} {m : Machine} :
    ofOption o = .done value m ↔ o = some (value, m) := by
  cases o with
  | none => simp [ofOption]
  | some found => simp [ofOption, Prod.ext_iff]

end Outcome

variable {S : Slack} {w : World .renamed} {a a' : Scopes} {host : Host} {n k : Nat}

namespace Run

/-- **The list of how the statements ended tells how the program ends**: with the error at its end,
if there is one there, on the machine that it gives. -/
theorem interpret_eq_ofTrace (host : Host) (n : Nat) (ss : List Stmt) (m : Machine) :
    interpret host n ss m = .ofTrace (trace host n ss m) := by
  induction ss generalizing m with
  | nil => rfl
  | cons s ss ih =>
    rw [interpret, trace]
    change Run.bind (execute host n s) (fun _ => interpret host n ss) m = _
    unfold Run.bind
    cases execute host n s m with
    | done completion m => rw [Outcome.ofTrace_map_ok, ← ih]
    | failed e m => rfl
    | unfinished => rfl

/-- Programs that vary by arrows in blocks end statement by statement in the same way. -/
theorem sim_trace (host : Host) (h : S.Allows .renamed Variation.boxes.throughout n k)
    {ss ss' : List Stmt} (hss : List.Forall₂ (Stmt.Varies .boxes) ss ss')
    (hmain : w.Main a.scope a'.scope) :
    Sim Variation.boxes.throughout S w a a' Same (fun m => .ofOption (trace host n ss m))
      (fun m => .ofOption (trace host k ss' m)) := by
  induction hss generalizing w with
  | nil => exact fun _ _ hm => .done le_rfl rfl hm
  | @cons s s' ss ss' hs hss ih =>
    intro m m' hm
    have hs : (Task.execute s).Revised Variation.boxes.throughout w a a' (.execute s') :=
      .execute (Variation.mem_throughout _) s.has_any hs (.inl hmain)
    have hfirst : Outcome.Sim Variation.boxes.throughout S w a a' Same (execute host n s m)
        (execute host k s' m') := Task.sim_run host h w a a' _ _ hs m m' hm
    dsimp only
    rw [trace, trace]
    generalize execute host n s m = o, execute host k s' m' = o' at hfirst
    cases hfirst with
    | @done _ completion _ _ _ hw hvalue hm₁ =>
      subst hvalue
      have hrest : Sim Variation.boxes.throughout S _ a a' Same _ _ := (ih (hmain.mono hw)).bind
        fun _ _ results results' hresults => sim_pure (congrArg (.ok completion :: ·) hresults)
      dsimp only
      rw [Outcome.ofOption_map, Outcome.ofOption_map]
      exact (hrest _ _ hm₁).of_le hw
    | failed hw he hm₁ =>
      obtain rfl := he.eq fun _ _ ht => ht
      exact .done hw rfl hm₁
    | unfinished => exact .unfinished
    | first h o' => exact .first h _
    | second h o => exact .second h _

/-- **Arrows and blocks agree.** A program and the same program with its arrows in blocks, started
on the same machine, end statement by statement in the same way, with the same errors on the same
lines, and leave machines that correspond behind; if the one does not end, the other does not
either. -/
theorem trace_boxed (host : Host) (ss : List Stmt) {m : Machine} (hm : m.Sound) :
    (∀ n results m₁, trace host n ss m = some (results, m₁) →
      ∃ k m₁', trace host k (Stmt.allBoxed ss) m = some (results, m₁') ∧ m₁.Corresponds m₁') ∧
    ∀ k results m₁', trace host k (Stmt.allBoxed ss) m = some (results, m₁') →
      ∃ n m₁, trace host n ss m = some (results, m₁) ∧ m₁.Corresponds m₁' := by
  have hsim {S : Slack} {n k : Nat} (h : S.Allows .renamed Variation.boxes.throughout n k) :
      Outcome.Sim Variation.boxes.throughout S (.same m.store.nextFrame) m.scopes m.scopes Same
        (.ofOption (trace host n ss m)) (.ofOption (trace host k (Stmt.allBoxed ss) m)) :=
    sim_trace host h (Stmt.varies_allBoxed ss) (World.main_same hm.scope) m m
      (Machine.Sound.match_same Routine.revised_self hm)
  constructor
  · intro n results m₁ htrace
    have hbound : Slack.Allows ⟨True, False⟩ .renamed Variation.boxes.throughout n (3 * n) :=
      ⟨.inl trivial, .inr (.inl (Nat.le_refl _)), fun _ => rfl⟩
    have houtcome := hsim hbound
    rw [htrace] at houtcome
    generalize ho : Outcome.ofOption (trace host (3 * n) (Stmt.allBoxed ss) m) = o at houtcome
    cases houtcome with
    | done _ hvalue hm₁ =>
      subst hvalue
      exact ⟨3 * n, _, Outcome.ofOption_eq_done.mp ho, hm₁.corresponds⟩
    | second hfalse _ => exact hfalse.elim
  · intro k results m₁' htrace
    have hbound : Slack.Allows ⟨False, True⟩ .renamed Variation.boxes.throughout k k :=
      ⟨.inr (Nat.le_refl _), .inl trivial, fun _ => rfl⟩
    have houtcome := hsim hbound
    rw [htrace] at houtcome
    generalize ho : Outcome.ofOption (trace host k ss m) = o at houtcome
    cases houtcome with
    | done _ hvalue hm₁ =>
      subst hvalue
      exact ⟨k, _, Outcome.ofOption_eq_done.mp ho, hm₁.corresponds⟩
    | first hfalse _ => exact hfalse.elim

/-- An arrow in an arrow: the inner function is made in the block of the outer one. -/
theorem trace_boxed_captured :
    let ss := Session.program "var f = fun (x) -> fun () -> x; print f(\"captured\")();"
    let m := Machine.initial (.ofLimit none)
    m.Sound ∧ ∃ k results m₁ m₁', trace (.ofSeed 0 0) 30 ss m = some (results, m₁) ∧
      trace (.ofSeed 0 0) k (Stmt.allBoxed ss) m = some (results, m₁') ∧ m₁.Corresponds m₁' := by
  intro ss m
  have hm : m.Sound := Machine.sound_initial _
  have hended : (trace (.ofSeed 0 0) 30 ss m).isSome = true := by decide +kernel
  obtain ⟨⟨results, m₁⟩, htrace⟩ := Option.isSome_iff_exists.mp hended
  obtain ⟨k, m₁', hboxed, hcorresponds⟩ := (trace_boxed _ ss hm).1 30 results m₁ htrace
  exact ⟨hm, k, results, m₁, m₁', htrace, hboxed, hcorresponds⟩

end Run

end Lox
