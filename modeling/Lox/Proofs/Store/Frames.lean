import Lox.Store.Frames

/-!
# Chains of frames

What a name means in a frame is decided by two views of a collection of frames: the names that a
frame defines itself (`Frames.own?`) and the frame around it (`Frames.parent?`). There is one lemma
for each of them and each change of the collection. Reading, testing and assigning are walks from a
frame outwards, and for each of the three there is a lemma that says what one step of it does.
-/

namespace Lox

namespace Frames

variable {α : Type} {fs fs' : Frames α} {f g p : FrameId} {name : String} {value : α}

theorem lt_of_own? (h : fs.own? f name = some value) : f < fs.cells.size := by
  obtain ⟨frame, hframe, -⟩ := Option.bind_eq_some_iff.mp h
  exact (Array.getElem?_eq_some_iff.mp hframe).1

theorem own?_of_le (h : fs.cells.size ≤ f) (name : String) : fs.own? f name = none := by
  rw [own?, Array.getElem?_eq_none h]
  rfl

/-! ### One step of each walk -/

/-- A name means what the frame itself says, or else what it means in the frame around it. -/
theorem get?_eq (fs : Frames α) (f : FrameId) (name : String) :
    fs.get? f name = (fs.own? f name).or ((fs.parent? f).bind fun p => fs.get? p name) := by
  rw [get?]
  cases fs.own? f name with
  | some value => rfl
  | none =>
    dsimp only
    split
    · rename_i p hp
      show fs.get? p name = _
      rw [hp]
      rfl
    · rename_i hp
      rw [hp]
      rfl

/-- A name is defined if the frame itself defines it, or else if it is defined in the frame around
it. -/
theorem has_eq (fs : Frames α) (f : FrameId) (name : String) :
    fs.has f name = ((fs.own? f name).isSome || (fs.parent? f).any fun p => fs.has p name) := by
  rw [has]
  congr 1
  split
  · rename_i p hp
    show fs.has p name = _
    rw [hp]
    rfl
  · rename_i hp
    rw [hp]
    rfl

theorem assign_of_own? (h : (fs.own? f name).isSome) (value : α) :
    fs.assign f name value = (true, fs.define f name value) := by
  rw [assign, if_pos h]

theorem assign_of_parent? (h : fs.own? f name = none) (hp : fs.parent? f = some p) (value : α) :
    fs.assign f name value = fs.assign p name value := by
  rw [assign, if_neg (by rw [h]; exact Bool.false_ne_true)]
  split
  · rename_i q hq
    obtain rfl := Option.some.inj (hq.symm.trans hp)
    rfl
  · rename_i hq
    exact absurd (hq.symm.trans hp) (Option.some_ne_none p).symm

theorem assign_of_parent?_eq_none (h : fs.own? f name = none) (hp : fs.parent? f = none)
    (value : α) : fs.assign f name value = (false, fs) := by
  rw [assign, if_neg (by rw [h]; exact Bool.false_ne_true)]
  split
  · rename_i q hq
    exact absurd (hp.symm.trans hq) (Option.some_ne_none q).symm
  · rfl

/-- The meaning of a name depends on the frames around a frame only. -/
theorem get?_congr {n : Nat} (hown : ∀ f < n, fs'.own? f name = fs.own? f name)
    (hparent : ∀ f < n, fs'.parent? f = fs.parent? f) (hf : f < n) :
    fs'.get? f name = fs.get? f name := by
  induction f using Nat.strongRecOn with
  | ind f ih =>
    rw [get?_eq, get?_eq fs, hown f hf, hparent f hf]
    cases hp : fs.parent? f with
    | none => rfl
    | some p =>
      have hlt := lt_of_parent? hp
      rw [Option.bind_some, Option.bind_some, ih p hlt (Nat.lt_trans hlt hf)]

/-! ### New frames -/

@[simp]
theorem size_alloc (fs : Frames α) (parent : Option FrameId) :
    (fs.alloc parent).cells.size = fs.cells.size + 1 :=
  Array.size_push _

@[simp]
theorem own?_alloc (fs : Frames α) (parent : Option FrameId) (f : FrameId) (name : String) :
    (fs.alloc parent).own? f name = fs.own? f name := by
  show ((fs.cells.push _)[f]?.bind _) = _
  rw [Array.getElem?_push]
  split
  · rename_i hf
    rw [hf, own?_of_le (Nat.le_refl _)]
    rfl
  · rfl

theorem parent?_alloc_of_ne (fs : Frames α) (parent : Option FrameId) (hf : f ≠ fs.cells.size) :
    (fs.alloc parent).parent? f = fs.parent? f := by
  show ((fs.cells.push _)[f]?.bind _) = _
  rw [Array.getElem?_push, if_neg hf]
  rfl

theorem parent?_alloc (fs : Frames α) (parent : Option FrameId) (hf : f < fs.cells.size) :
    (fs.alloc parent).parent? f = fs.parent? f :=
  parent?_alloc_of_ne fs parent (Nat.ne_of_lt hf)

/-- A new frame lies in the one it was made in, if that one exists. -/
theorem parent?_alloc_self (fs : Frames α) (parent : Option FrameId) :
    (fs.alloc parent).parent? fs.cells.size = parent.filter (· < fs.cells.size) := by
  show ((fs.cells.push _)[_]?.bind _) = _
  rw [Array.getElem?_push, if_pos rfl]
  rfl

theorem parent?_alloc_size (hp : p < fs.cells.size) :
    (fs.alloc (some p)).parent? fs.cells.size = some p := by
  rw [parent?_alloc_self]
  exact Option.filter_eq_some_iff.mpr ⟨rfl, decide_eq_true hp⟩

/-- A new frame is no obstacle: a name means in it what it means in the frame around it. -/
theorem get?_alloc_size (hp : p < fs.cells.size) (name : String) :
    (fs.alloc (some p)).get? fs.cells.size name = fs.get? p name := by
  rw [get?_eq, own?_alloc, own?_of_le (Nat.le_refl _), parent?_alloc_size hp]
  exact get?_congr (fun f _ => own?_alloc fs _ f name) (fun f hf => parent?_alloc fs _ hf) hp

/-! ### Definitions and assignments -/

@[simp]
theorem size_define (fs : Frames α) (g : FrameId) (name : String) (value : α) :
    (fs.define g name value).cells.size = fs.cells.size :=
  Array.size_modify

theorem own?_define (fs : Frames α) (g : FrameId) (name : String) (value : α) (f : FrameId)
    (name' : String) : (fs.define g name value).own? f name' =
      if f = g ∧ f < fs.cells.size ∧ name' = name then some value else fs.own? f name' := by
  show ((fs.cells.modify g _)[f]?.bind _) = _
  rw [Array.getElem?_modify]
  by_cases hg : g = f
  · rw [if_pos hg, own?]
    cases hf : fs.cells[f]? with
    | none =>
      rw [if_neg fun h => Nat.not_lt.mpr (Array.getElem?_eq_none_iff.mp hf) h.2.1]
      rfl
    | some frame =>
      have hlt := (Array.getElem?_eq_some_iff.mp hf).1
      rw [Option.map_some, Option.bind_some, Table.get?_insert, Option.bind_some]
      simp only [hg, hlt, true_and]
  · rw [if_neg hg, if_neg fun h => hg h.1.symm]
    rfl

theorem own?_define_of_ne (fs : Frames α) (g : FrameId) {name name' : String} (h : name' ≠ name)
    (value : α) (f : FrameId) : (fs.define g name value).own? f name' = fs.own? f name' := by
  rw [own?_define, if_neg fun hall => h hall.2.2]

@[simp]
theorem parent?_define (fs : Frames α) (g : FrameId) (name : String) (value : α) (f : FrameId) :
    (fs.define g name value).parent? f = fs.parent? f := by
  show ((fs.cells.modify g _)[f]?.bind _) = _
  rw [Array.getElem?_modify, parent?]
  split
  · cases fs.cells[f]? <;> rfl
  · rfl

end Frames

end Lox
