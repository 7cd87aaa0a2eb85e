import Lox.Proofs.Store.Frames
import Mathlib.Data.List.Find

/-!
# Chains of frames are shared nested maps

The frames around a frame form its **chain**, which starts with the frame itself. Reading a name,
asking for it and giving it another value are three walks along the chain, each with a recursion of
its own, and all of them stop at the same frame, the first one that defines the name. So what a
change does to the meaning of names can be said for all frames at once, however they shadow and
share each other.

Main statements:

* `Frames.get?_eq_nearest?`, `Frames.has_eq_nearest?`, `Frames.assign_eq_nearest?` — the three walks
  stop at the nearest frame that defines the name;
* `Frames.get?_define` — from where a definition is seen;
* `Frames.shared_nested_maps` — the lookups that each operation changes, in all frames.
-/

namespace Lox

namespace Frames

variable {α : Type} {fs fs' : Frames α} {f g : FrameId} {name : String}

/-- The frames around a frame, from the frame itself outwards. -/
def chain (fs : Frames α) (f : FrameId) : List FrameId :=
  if f < fs.cells.size then
    f :: match h : fs.parent? f with
      | none => []
      | some p =>
        have : p < f := lt_of_parent? h
        fs.chain p
  else []
termination_by f

/-- The nearest frame that defines a name. -/
def nearest? (fs : Frames α) (f : FrameId) (name : String) : Option FrameId :=
  (fs.chain f).find? fun g => (fs.own? g name).isSome

/-- The frames that are strictly nearer to a frame than another one. -/
def nearer (fs : Frames α) (g f : FrameId) : List FrameId :=
  (fs.chain g).takeWhile (· != f)

/-- What the frame `f` says about a name is seen from the frame `g`: `f` is on the chain, and no
frame that is strictly nearer defines the name. -/
def SeenFrom (fs : Frames α) (g f : FrameId) (name : String) : Prop :=
  f ∈ fs.chain g ∧ ∀ h ∈ fs.nearer g f, fs.own? h name = none

instance (fs : Frames α) (g f : FrameId) (name : String) : Decidable (fs.SeenFrom g f name) :=
  inferInstanceAs (Decidable (_ ∧ _))

/-! ### Walks along the chain -/

theorem chain_of_lt (h : f < fs.cells.size) :
    fs.chain f = f :: ((fs.parent? f).map fs.chain).getD [] := by
  rw [chain, if_pos h]
  congr 1
  split
  · rename_i hp
    rw [hp]
    rfl
  · rename_i p hp
    show fs.chain p = _
    rw [hp]
    rfl

theorem chain_of_le (h : fs.cells.size ≤ f) : fs.chain f = [] := by
  rw [chain, if_neg (Nat.not_lt.mpr h)]

theorem parent?_of_le (h : fs.cells.size ≤ f) : fs.parent? f = none := by
  rw [parent?, Array.getElem?_eq_none h]
  rfl

theorem lt_size_of_mem_chain (h : g ∈ fs.chain f) : g < fs.cells.size := by
  induction f using Nat.strongRecOn with
  | ind f ih =>
    by_cases hf : f < fs.cells.size
    · rw [chain_of_lt hf, List.mem_cons] at h
      rcases h with rfl | h
      · exact hf
      · cases hp : fs.parent? f with
        | none => simp [hp] at h
        | some p => exact ih p (lt_of_parent? hp) (by simpa [hp] using h)
    · simp [chain_of_le (Nat.not_lt.mp hf)] at h

/-- Changes that leave the frames around frames alone leave the chains alone. -/
theorem chain_congr (hsize : fs'.cells.size = fs.cells.size)
    (hparent : ∀ f, fs'.parent? f = fs.parent? f) (f : FrameId) : fs'.chain f = fs.chain f := by
  induction f using Nat.strongRecOn with
  | ind f ih =>
    by_cases hf : f < fs.cells.size
    · rw [chain_of_lt hf, chain_of_lt (hsize ▸ hf), hparent]
      cases hp : fs.parent? f with
      | none => rfl
      | some p => simp only [Option.map_some, Option.getD_some, ih p (lt_of_parent? hp)]
    · have hle := Nat.not_lt.mp hf
      rw [chain_of_le hle, chain_of_le (hsize ▸ hle)]

/-- The chains of older frames do not depend on newer ones. -/
theorem chain_congr_of_lt {n : Nat} (hsize : n ≤ fs.cells.size) (hsize' : n ≤ fs'.cells.size)
    (hparent : ∀ f < n, fs'.parent? f = fs.parent? f) (hf : f < n) : fs'.chain f = fs.chain f := by
  induction f using Nat.strongRecOn with
  | ind f ih =>
    rw [chain_of_lt (Nat.lt_of_lt_of_le hf hsize), chain_of_lt (Nat.lt_of_lt_of_le hf hsize'),
      hparent f hf]
    cases hp : fs.parent? f with
    | none => rfl
    | some p =>
      have hlt := lt_of_parent? hp
      simp only [Option.map_some, Option.getD_some, ih p hlt (Nat.lt_trans hlt hf)]

theorem le_of_mem_chain (h : g ∈ fs.chain f) : g ≤ f := by
  induction f using Nat.strongRecOn with
  | ind f ih =>
    by_cases hf : f < fs.cells.size
    · rw [chain_of_lt hf, List.mem_cons] at h
      rcases h with rfl | h
      · exact Nat.le_refl _
      · cases hp : fs.parent? f with
        | none => simp [hp] at h
        | some p =>
          have hlt := lt_of_parent? hp
          exact Nat.le_of_lt (Nat.lt_of_le_of_lt (ih p hlt (by simpa [hp] using h)) hlt)
    · simp [chain_of_le (Nat.not_lt.mp hf)] at h

/-- The nearest frame that defines a name depends on the names that older frames define only. -/
theorem nearest?_congr_of_lt {n : Nat} (hsize : n ≤ fs.cells.size) (hsize' : n ≤ fs'.cells.size)
    (hparent : ∀ f < n, fs'.parent? f = fs.parent? f)
    (hown : ∀ f < n, (fs'.own? f name).isSome = (fs.own? f name).isSome) (hf : f < n) :
    fs'.nearest? f name = fs.nearest? f name := by
  unfold nearest?
  rw [chain_congr_of_lt hsize hsize' hparent hf]
  refine List.find?_congr fun g hg => hown g ?_
  exact Nat.lt_of_le_of_lt (le_of_mem_chain hg) hf

@[simp]
theorem chain_define (fs : Frames α) (g : FrameId) (name : String) (value : α) :
    (fs.define g name value).chain f = fs.chain f :=
  chain_congr (size_define fs g name value) (parent?_define fs g name value) f

/-- **Reading** finds the first value on the chain. -/
theorem get?_eq_findSome? (fs : Frames α) (f : FrameId) (name : String) :
    fs.get? f name = (fs.chain f).findSome? fun g => fs.own? g name := by
  induction f using Nat.strongRecOn with
  | ind f ih =>
    rw [get?_eq]
    by_cases hf : f < fs.cells.size
    · rw [chain_of_lt hf, List.findSome?_cons]
      cases fs.own? f name with
      | some value => rfl
      | none =>
        cases hp : fs.parent? f with
        | none => rfl
        | some p => exact ih p (lt_of_parent? hp)
    · have hle := Nat.not_lt.mp hf
      rw [own?_of_le hle, parent?_of_le hle, chain_of_le hle]
      rfl

/-- The nearest frame that defines a name is the frame itself, or else it is found from the frame
around it. -/
theorem nearest?_eq (fs : Frames α) (f : FrameId) (name : String) :
    fs.nearest? f name = if (fs.own? f name).isSome then some f
      else (fs.parent? f).bind fun p => fs.nearest? p name := by
  unfold nearest?
  by_cases hf : f < fs.cells.size
  · rw [chain_of_lt hf, List.find?_cons]
    cases (fs.own? f name).isSome with
    | true => rfl
    | false => cases fs.parent? f <;> rfl
  · have hle := Nat.not_lt.mp hf
    rw [chain_of_le hle, own?_of_le hle, parent?_of_le hle]
    rfl

theorem own?_of_nearest? (h : fs.nearest? f name = some g) : (fs.own? g name).isSome :=
  List.find?_some (p := fun g => (fs.own? g name).isSome) h

theorem nearest?_of_own? (h : (fs.own? f name).isSome) : fs.nearest? f name = some f := by
  rw [nearest?_eq, if_pos h]

theorem nearest?_of_own?_eq_none (h : fs.own? f name = none) :
    fs.nearest? f name = (fs.parent? f).bind fun p => fs.nearest? p name := by
  rw [nearest?_eq, if_neg (by rw [h]; exact Bool.false_ne_true)]

/-! ### The three walks stop at the same frame -/

/-- **Reading** a name gives its value in the nearest frame that defines it. -/
theorem get?_eq_nearest? (fs : Frames α) (f : FrameId) (name : String) :
    fs.get? f name = (fs.nearest? f name).bind fun g => fs.own? g name := by
  induction f using Nat.strongRecOn with
  | ind f ih =>
    rw [get?_eq]
    cases hown : fs.own? f name with
    | some value =>
      rw [nearest?_of_own? (Option.isSome_of_eq_some hown), Option.bind_some, hown]
      rfl
    | none =>
      rw [nearest?_of_own?_eq_none hown]
      cases hp : fs.parent? f with
      | none => rfl
      | some p => exact ih p (lt_of_parent? hp)

/-- **Testing** for a name tells whether some frame is the nearest one that defines it. -/
theorem has_eq_nearest? (fs : Frames α) (f : FrameId) (name : String) :
    fs.has f name = (fs.nearest? f name).isSome := by
  induction f using Nat.strongRecOn with
  | ind f ih =>
    rw [has_eq]
    cases hown : fs.own? f name with
    | some value =>
      rw [nearest?_of_own? (Option.isSome_of_eq_some hown)]
      rfl
    | none =>
      rw [nearest?_of_own?_eq_none hown]
      cases hp : fs.parent? f with
      | none => rfl
      | some p => exact ih p (lt_of_parent? hp)

/-- **Assigning** writes to the nearest frame that defines the name; if there is none it changes
nothing, and tells so. -/
theorem assign_eq_nearest? (fs : Frames α) (f : FrameId) (name : String) (value : α) :
    fs.assign f name value =
      (fs.nearest? f name).elim (false, fs) fun g => (true, fs.define g name value) := by
  induction f using Nat.strongRecOn with
  | ind f ih =>
    by_cases hown : (fs.own? f name).isSome
    · rw [assign_of_own? hown, nearest?_of_own? hown]
      rfl
    · have hnone := Option.not_isSome_iff_eq_none.mp hown
      rw [nearest?_of_own?_eq_none hnone]
      cases hp : fs.parent? f with
      | none => exact assign_of_parent?_eq_none hnone hp value
      | some p =>
        rw [assign_of_parent? hnone hp]
        exact ih p (lt_of_parent? hp)

theorem has_eq_isSome_get? (fs : Frames α) (f : FrameId) (name : String) :
    fs.has f name = (fs.get? f name).isSome := by
  rw [has_eq_nearest?, get?_eq_nearest?]
  cases hg : fs.nearest? f name with
  | none => rfl
  | some g => exact (own?_of_nearest? hg).symm

/-- An assignment either changes nothing or defines the name in a frame that defines it. -/
theorem assign_cases (fs : Frames α) (f : FrameId) (name : String) (value : α) :
    (fs.assign f name value).2 = fs ∨ ∃ g, (fs.own? g name).isSome ∧
      (fs.assign f name value).2 = fs.define g name value := by
  rw [assign_eq_nearest?]
  cases hg : fs.nearest? f name with
  | none => exact .inl rfl
  | some g => exact .inr ⟨g, own?_of_nearest? hg, rfl⟩

/-! ### Definitions and assignments -/

/-- What is found first on a list of frames, if a frame is given a value. -/
theorem findSome?_own?_define (fs : Frames α) (f : FrameId) (name : String) (value : α)
    {gs : List FrameId} (hgs : ∀ g ∈ gs, g < fs.cells.size) :
    gs.findSome? (fun g => (fs.define f name value).own? g name) =
      if f ∈ gs ∧ ∀ h ∈ gs.takeWhile (· != f), fs.own? h name = none then some value
      else gs.findSome? fun g => fs.own? g name := by
  induction gs with
  | nil => simp
  | cons g gs ih =>
    obtain ⟨hg, hgs⟩ := List.forall_mem_cons.mp hgs
    rw [List.findSome?_cons, List.findSome?_cons, own?_define, ih hgs]
    by_cases hgf : g = f
    · subst hgf
      simp [hg]
    · rw [if_neg fun h => hgf h.1]
      cases hown : fs.own? g name with
      | none => simp [hgf, Ne.symm hgf, hown]
      | some w => simp [hgf, hown]

/-- **From where a definition is seen.** A name that is given a value in a frame means that value in
all frames whose chain leads to the frame, unless a nearer frame defines the name too; in the other
frames, and for all other names, nothing changes. -/
theorem get?_define (fs : Frames α) (f : FrameId) (name : String) (value : α) (g : FrameId)
    (name' : String) : (fs.define f name value).get? g name' =
      if name' = name ∧ fs.SeenFrom g f name then some value else fs.get? g name' := by
  rw [get?_eq_findSome?, get?_eq_findSome?, chain_define]
  by_cases hname : name' = name
  · subst hname
    rw [findSome?_own?_define fs f name' value fun _ => lt_size_of_mem_chain]
    simp only [true_and]
    rfl
  · rw [if_neg fun h => hname h.1]
    simp only [own?_define_of_ne fs f hname]

/-- A frame that defines a name is seen from just those frames whose nearest definition it is. -/
theorem seenFrom_iff_nearest? (hf : (fs.own? f name).isSome) :
    fs.SeenFrom g f name ↔ fs.nearest? g name = some f := by
  unfold SeenFrom nearer nearest?
  induction fs.chain g with
  | nil => simp
  | cons h hs ih =>
    by_cases hhf : h = f
    · subst hhf
      simp [hf]
    · rw [List.find?_cons]
      cases hown : fs.own? h name with
      | none => simpa [hhf, Ne.symm hhf, hown] using ih
      | some w => simp [hhf, hown]

/-- **Chains of frames are shared nested maps.** In every collection of frames, however it was
built,

* a name is defined, seen from a frame, if and only if it has a value there;
* giving a name a value in a frame `f` changes what the name means in the frames from which `f` is
  seen, that is, whose chain leads to `f` without a nearer frame that defines the name, and it
  changes nothing else;
* an assignment tells whether the name is defined. If so, it changes what the name means in the
  frames whose nearest definition of the name is the same as that of `f`, and if not, nothing
  changes. -/
theorem shared_nested_maps (fs : Frames α) (f : FrameId) (name : String) (value : α) :
    (fs.has f name = true ↔ ∃ v, fs.get? f name = some v) ∧
    (∀ g name', (fs.define f name value).get? g name' =
      if name' = name ∧ fs.SeenFrom g f name then some value else fs.get? g name') ∧
    (fs.assign f name value).1 = fs.has f name ∧
    ∀ g name', (fs.assign f name value).2.get? g name' =
      if fs.has f name = true ∧ name' = name ∧ fs.nearest? g name = fs.nearest? f name
        then some value else fs.get? g name' := by
  refine ⟨by rw [has_eq_isSome_get?, Option.isSome_iff_exists], get?_define fs f name value, ?_⟩
  rw [assign_eq_nearest?, has_eq_nearest?]
  cases hd : fs.nearest? f name with
  | none => simp
  | some d =>
    refine ⟨rfl, fun g name' => ?_⟩
    show (fs.define d name value).get? g name' = _
    rw [get?_define]
    simp only [seenFrom_iff_nearest? (own?_of_nearest? hd), Option.isSome_some, true_and]

end Frames

end Lox
