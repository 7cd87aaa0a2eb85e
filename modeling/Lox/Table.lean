/-!
# Tables

A table holds a value for each of finitely many names. It is seen through `Table.get?`, and
`Table.get?_insert` says what writing does to that view.
-/

namespace Lox

/-- Values by name. -/
structure Table (α : Type) where
  /-- The names with their values, each name once, in the order of their first insertion. -/
  entries : List (String × α)

namespace Table

variable {α : Type}

/-- The table without names. -/
def empty : Table α := ⟨[]⟩

/-- The value of a name. -/
def get? (t : Table α) (name : String) : Option α :=
  t.entries.lookup name

/-- Whether a table has a name. -/
def contains (t : Table α) (name : String) : Bool :=
  (t.get? name).isSome

/-- The table in which a name has a value; another value of the name is lost. -/
def insert (t : Table α) (name : String) (value : α) : Table α :=
  ⟨go t.entries⟩
where
  /-- Replaces the entry of the name, or adds one at the end. -/
  go : List (String × α) → List (String × α)
    | [] => [(name, value)]
    | (k, v) :: rest => if k == name then (name, value) :: rest else (k, v) :: go rest

/-- The table of a list of names with values; of several values of a name the last one counts. -/
def ofList (l : List (String × α)) : Table α :=
  l.foldl (fun t e => t.insert e.1 e.2) empty

@[simp] theorem get?_empty (name : String) : (empty : Table α).get? name = none := rfl

theorem lookup_insert_go (name : String) (value : α) (l : List (String × α)) (k : String) :
    (insert.go name value l).lookup k = if k = name then some value else l.lookup k := by
  induction l with
  | nil =>
    simp only [insert.go, List.lookup_cons, List.lookup_nil]
    by_cases h : k = name
    · simp [h]
    · simp [h, beq_eq_false_iff_ne.2 h]
  | cons e rest ih =>
    obtain ⟨k', v⟩ := e
    by_cases hk : k' = name
    · subst hk
      simp only [insert.go, beq_self_eq_true, if_true, List.lookup_cons]
      by_cases h : k = k'
      · simp [h]
      · simp [h, beq_eq_false_iff_ne.2 h]
    · simp only [insert.go, beq_eq_false_iff_ne.2 hk, Bool.false_eq_true, if_false,
        List.lookup_cons, ih]
      by_cases h : k = k'
      · subst h
        simp [hk]
      · simp [beq_eq_false_iff_ne.2 h]

/-- A name that is written has the value written; the other names keep theirs. -/
@[simp] theorem get?_insert (t : Table α) (name : String) (value : α) (k : String) :
    (t.insert name value).get? k = if k = name then some value else t.get? k :=
  lookup_insert_go name value t.entries k

/-- Writing adds the name and removes none. -/
@[simp] theorem contains_insert (t : Table α) (name : String) (value : α) (k : String) :
    (t.insert name value).contains k = (decide (k = name) || t.contains k) := by
  by_cases h : k = name <;> simp [contains, h]

end Table

end Lox
