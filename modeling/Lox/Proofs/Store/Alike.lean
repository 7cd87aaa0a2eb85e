import Lox.Table
import Mathlib.Data.List.Forall2
import Mathlib.Data.Option.Basic

/-!
# Tables and arrays that are alike

Two tables are alike if they have the same names in the same order, with values that are alike
(`Table.Like`), and two arrays if they are so at every place. What is done to both of them keeps
them alike.
-/

namespace Lox

/-- Tables with the same names in the same order, and with values that are alike. -/
def Table.Like {α β : Type} (R : α → β → Prop) (t : Table α) (t' : Table β) : Prop :=
  List.Forall₂ (fun e e' => e'.1 = e.1 ∧ R e.2 e'.2) t.entries t'.entries

theorem optionRel_mono {α β : Type} {R S : α → β → Prop} (hRS : ∀ a b, R a b → S a b)
    {a : Option α} {b : Option β} (h : Option.Rel R a b) : Option.Rel S a b := by
  cases h with
  | none => exact .none
  | some hab => exact .some (hRS _ _ hab)

theorem eq_none_or_exists_of_rel {α β : Type} {R : α → β → Prop} {a : Option α} {b : Option β}
    (h : Option.Rel R a b) :
    a = none ∧ b = none ∨ ∃ x y, a = some x ∧ b = some y ∧ R x y := by
  cases h with
  | none => exact .inl ⟨rfl, rfl⟩
  | some hxy => exact .inr ⟨_, _, rfl, rfl, hxy⟩

/-! ### Tables -/

namespace Table.Like

variable {α β : Type} {R S : α → β → Prop} {t : Table α} {t' : Table β}

theorem empty : Table.Like R .empty .empty := List.Forall₂.nil

theorem imp (h : t.Like R t') (hRS : ∀ a b, R a b → S a b) : t.Like S t' :=
  List.Forall₂.imp (fun _ _ he => ⟨he.1, hRS _ _ he.2⟩) h

theorem insert (h : t.Like R t') (name : String) {a : α} {b : β} (hab : R a b) :
    (t.insert name a).Like R (t'.insert name b) := by
  obtain ⟨entries⟩ := t
  obtain ⟨entries'⟩ := t'
  replace h : List.Forall₂ (fun e e' => e'.1 = e.1 ∧ R e.2 e'.2) entries entries' := h
  show List.Forall₂ _ (Table.insert.go name a entries) (Table.insert.go name b entries')
  induction h with
  | nil => exact .cons ⟨rfl, hab⟩ .nil
  | @cons e e' rest rest' he hrest ih =>
    obtain ⟨key, value⟩ := e
    obtain ⟨key', value'⟩ := e'
    obtain ⟨rfl, hvalue⟩ := he
    simp only [Table.insert.go]
    split
    · exact .cons ⟨rfl, hab⟩ hrest
    · exact .cons ⟨rfl, hvalue⟩ ih

theorem get? (h : t.Like R t') (name : String) : Option.Rel R (t.get? name) (t'.get? name) := by
  obtain ⟨entries⟩ := t
  obtain ⟨entries'⟩ := t'
  replace h : List.Forall₂ (fun e e' => e'.1 = e.1 ∧ R e.2 e'.2) entries entries' := h
  show Option.Rel R (entries.lookup name) (entries'.lookup name)
  induction h with
  | nil => exact .none
  | @cons e e' rest rest' he hrest ih =>
    obtain ⟨key, value⟩ := e
    obtain ⟨key', value'⟩ := e'
    obtain ⟨rfl, hvalue⟩ := he
    rw [List.lookup_cons, List.lookup_cons]
    dsimp only
    cases name == key'
    · exact ih
    · exact .some hvalue

/-- What is alike on the right has all properties that follow from being alike. -/
theorem forall_right {P : β → Prop} (h : t.Like R t') (hP : ∀ a b, R a b → P b) :
    ∀ e ∈ t'.entries, P e.2 := by
  obtain ⟨entries⟩ := t
  obtain ⟨entries'⟩ := t'
  replace h : List.Forall₂ (fun e e' => e'.1 = e.1 ∧ R e.2 e'.2) entries entries' := h
  induction h with
  | nil => exact List.forall_mem_nil _
  | cons he hrest ih => exact List.forall_mem_cons.mpr ⟨hP _ _ he.2, ih⟩

end Table.Like

theorem Table.like_self {α : Type} {R : α → α → Prop} {t : Table α}
    (h : ∀ e ∈ t.entries, R e.2 e.2) : t.Like R t :=
  List.forall₂_same.mpr fun e he => ⟨rfl, h e he⟩

/-! ### Arrays -/

section

variable {α β : Type} {R : α → β → Prop} {a : Array α} {b : Array β}

/-- What is alike at all places has the same size. -/
theorem size_eq_of_rel (h : ∀ i : Nat, Option.Rel R a[i]? b[i]?) : b.size = a.size := by
  have hnone (i : Nat) : a[i]? = none ↔ b[i]? = none := by
    obtain ⟨ha, hb⟩ | ⟨x, y, ha, hb, -⟩ := eq_none_or_exists_of_rel (h i) <;> simp [ha, hb]
  simp only [Array.getElem?_eq_none_iff] at hnone
  exact Nat.le_antisymm ((hnone _).mp (Nat.le_refl _)) ((hnone _).mpr (Nat.le_refl _))

theorem rel_push (h : ∀ i : Nat, Option.Rel R a[i]? b[i]?) {x : α} {y : β} (hxy : R x y) (i : Nat) :
    Option.Rel R (a.push x)[i]? (b.push y)[i]? := by
  rw [Array.getElem?_push, Array.getElem?_push, size_eq_of_rel h]
  split
  · exact .some hxy
  · exact h i

theorem rel_modify (h : ∀ i : Nat, Option.Rel R a[i]? b[i]?) {f : α → α} {g : β → β}
    (hfg : ∀ x y, R x y → R (f x) (g y)) (j i : Nat) :
    Option.Rel R (a.modify j f)[i]? (b.modify j g)[i]? := by
  rw [Array.getElem?_modify, Array.getElem?_modify]
  split
  · obtain ⟨ha, hb⟩ | ⟨x, y, ha, hb, hxy⟩ := eq_none_or_exists_of_rel (h i) <;> rw [ha, hb]
    · exact .none
    · exact .some (hfg x y hxy)
  · exact h i

end

end Lox
