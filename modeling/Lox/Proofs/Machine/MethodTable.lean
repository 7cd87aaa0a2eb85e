import Lox.Program.Form
import Lox.Proofs.Machine.Contract
import Lox.Proofs.Store.Alike
import Lox.Proofs.Program.Members

/-!
# Method tables

The methods of a class are made from a list of definitions, one after another, and each goes into a
table under its name. What an insertion does to the table and what it does to a list of definitions
is the same: `Table.Holds` says that a table has the names of a list, in the order of the list, with
functions made of its definitions, and an insertion on both sides keeps it (`Table.Holds.insert`).
So the definitions as they are written make the same table as the list that is read of them, and in
both each name has a function made of its last definition (`methods_last_wins`).
-/

namespace Lox

/-- A function is made of a definition in a scope. -/
def Definition.Makes (d : Definition) (scope : FrameId) (f : Closure) : Prop :=
  ∃ serial, f = ⟨serial, d.routine, scope, d.name.lexeme == Run.initializerName⟩

/-- Two functions differ in nothing but the number that tells functions apart. -/
def Closure.SameButSerial (f f' : Closure) : Prop :=
  f' = { f with serial := f'.serial }

namespace Table

/-- A table has the names of definitions, in their order, with functions made of them in a scope. -/
def Holds (scope : FrameId) (ds : List Definition) (t : Table Closure) : Prop :=
  List.Forall₂ (fun d e => e.1 = d.name.lexeme ∧ d.Makes scope e.2) ds t.entries

/-- A table has the names that members define with a mark, each with a function made in a scope of
the last definition of the name, and no other name. -/
structure HoldsLast (scope : FrameId) (ofClass : Bool) (members : List Member)
    (t : Table Closure) : Prop where
  /-- The last definition of a name makes the function of the name. -/
  made : ∀ d, Member.IsLast ofClass members d →
    ∃ f, t.get? d.name.lexeme = some f ∧ d.Makes scope f
  /-- There are no other names. -/
  only : ∀ name, t.contains name = true →
    ∃ d, Member.IsLast ofClass members d ∧ d.name.lexeme = name

namespace Holds

variable {scope : FrameId} {ds : List Definition} {d : Definition} {f : Closure}
  {t t' : Table Closure}

theorem empty : Table.Holds scope [] .empty := List.Forall₂.nil

/-- **Inserting into a list and into a table go alike**: either replaces what stands under the name,
or adds it at the end. -/
theorem insert (h : t.Holds scope ds) (hf : d.Makes scope f) :
    (t.insert d.name.lexeme f).Holds scope (d.insert ds) := by
  obtain ⟨entries⟩ := t
  replace h : List.Forall₂ (fun d e => e.1 = d.name.lexeme ∧ d.Makes scope e.2) ds entries := h
  show List.Forall₂ _ (d.insert ds) (Table.insert.go d.name.lexeme f entries)
  induction h with
  | nil => exact .cons ⟨rfl, hf⟩ .nil
  | @cons a e as rest he hrest ih =>
    obtain ⟨key, value⟩ := e
    obtain ⟨rfl, hvalue⟩ := he
    rw [Definition.insert, Table.insert.go]
    split
    · exact .cons ⟨rfl, hf⟩ hrest
    · exact .cons ⟨rfl, hvalue⟩ ih

/-- Under the name of a definition stands a function made of it. -/
theorem get?_of_mem (h : t.Holds scope ds) (hds : Definition.Distinct ds) (hd : d ∈ ds) :
    ∃ f, t.get? d.name.lexeme = some f ∧ d.Makes scope f := by
  obtain ⟨entries⟩ := t
  replace h : List.Forall₂ (fun d e => e.1 = d.name.lexeme ∧ d.Makes scope e.2) ds entries := h
  show ∃ f, entries.lookup d.name.lexeme = some f ∧ d.Makes scope f
  induction h with
  | nil => exact absurd hd List.not_mem_nil
  | @cons a e as rest he hrest ih =>
    obtain ⟨key, value⟩ := e
    obtain ⟨rfl, hvalue⟩ := he
    obtain ⟨ha, has⟩ := List.nodup_cons.mp hds
    rw [List.lookup_cons]
    obtain rfl | hd := List.mem_cons.mp hd
    · exact ⟨value, by rw [beq_self_eq_true], hvalue⟩
    · have hne : d.name.lexeme ≠ a.name.lexeme := fun heq =>
        ha (List.mem_map.mpr ⟨d, hd, heq⟩)
      rw [beq_eq_false_iff_ne.mpr hne]
      exact ih has hd

/-- Every name of the table is that of a definition. -/
theorem exists_of_contains (h : t.Holds scope ds) {name : String} (hname : t.contains name = true) :
    ∃ d ∈ ds, d.name.lexeme = name := by
  obtain ⟨entries⟩ := t
  replace h : List.Forall₂ (fun d e => e.1 = d.name.lexeme ∧ d.Makes scope e.2) ds entries := h
  replace hname : (entries.lookup name).isSome = true := hname
  induction h with
  | nil => exact nomatch hname
  | @cons a e as rest he hrest ih =>
    obtain ⟨key, value⟩ := e
    obtain ⟨rfl, -⟩ := he
    rw [List.lookup_cons] at hname
    by_cases heq : name = a.name.lexeme
    · exact ⟨a, List.mem_cons_self, heq.symm⟩
    · rw [beq_eq_false_iff_ne.mpr heq] at hname
      obtain ⟨d, hd, hname⟩ := ih hname
      exact ⟨d, List.mem_cons_of_mem a hd, hname⟩

/-- Two tables that hold the same definitions are the same, but for the serial numbers. -/
theorem like (h : t.Holds scope ds) (h' : t'.Holds scope ds) : t.Like Closure.SameButSerial t' := by
  obtain ⟨entries⟩ := t
  obtain ⟨entries'⟩ := t'
  replace h : List.Forall₂ (fun d e => e.1 = d.name.lexeme ∧ d.Makes scope e.2) ds entries := h
  replace h' : List.Forall₂ (fun d e => e.1 = d.name.lexeme ∧ d.Makes scope e.2) ds entries' := h'
  show List.Forall₂ _ entries entries'
  induction h generalizing entries' with
  | nil =>
    cases h'
    exact .nil
  | cons he hrest ih =>
    cases h' with
    | cons he' hrest' =>
      obtain ⟨hname, serial, hf⟩ := he
      obtain ⟨hname', serial', hf'⟩ := he'
      refine .cons ⟨hname'.trans hname.symm, ?_⟩ (ih _ hrest')
      rw [Closure.SameButSerial, hf, hf']

/-- A table of the list of the members with a mark has the last definition of every name. -/
theorem holdsLast {ofClass : Bool} {members : List Member}
    (h : t.Holds scope (Member.collect ofClass members)) :
    t.HoldsLast scope ofClass members where
  made d hd := h.get?_of_mem Member.collect_distinct (Member.mem_collect_iff.mpr hd)
  only name hname := by
    obtain ⟨d, hd, hname⟩ := h.exists_of_contains hname
    exact ⟨d, Member.mem_collect_iff.mp hd, hname⟩

end Holds

end Table

/-! ### Making the methods of a class -/

namespace Run

/-- Methods are made whatever the machine, and the table holds what comes of inserting their
definitions into a list. -/
theorem holds_makeMethods_go {t : Table Closure} {ds : List Definition} (es : List Definition)
    {m : Machine} (h : t.Holds m.scope ds) :
    ∃ t' m', makeMethods.go t es m = .done t' m' ∧
      t'.Holds m.scope (es.foldl (fun ds d => d.insert ds) ds) := by
  induction es generalizing t ds m with
  | nil => exact ⟨t, m, rfl, h⟩
  | cons d es ih =>
    -- Making the function takes a serial number and leaves the scope.
    let m₁ : Machine := { m with store := m.store.takeSerial }
    let f : Closure :=
      ⟨m.store.serial, d.routine, m.scope, d.name.lexeme == initializerName⟩
    exact ih (m := m₁) (h.insert (f := f) ⟨m.store.serial, rfl⟩)

theorem holds_makeMethods (ds : List Definition) (m : Machine) :
    ∃ t m', makeMethods ds m = .done t m' ∧
      t.Holds m.scope (ds.foldl (fun es d => d.insert es) []) :=
  holds_makeMethods_go ds .empty

/-- The list of the members with a mark and the members as they are written make the same table, in
which every name has its last definition. -/
theorem makeMethods_collect (ofClass : Bool) (members : List Member) (m : Machine) :
    ∃ t m₁ t' m₂, makeMethods (Member.collect ofClass members) m = .done t m₁ ∧
      makeMethods (Member.marked ofClass members) m = .done t' m₂ ∧
      t.HoldsLast m.scope ofClass members ∧ t.Like Closure.SameButSerial t' := by
  obtain ⟨t, m₁, ht, hholds⟩ := holds_makeMethods (Member.collect ofClass members) m
  obtain ⟨t', m₂, ht', hholds'⟩ := holds_makeMethods (Member.marked ofClass members) m
  rw [Member.foldl_insert_collect] at hholds
  rw [← Member.collect_eq_foldl_marked] at hholds'
  exact ⟨t, m₁, t', m₂, ht, ht', hholds.holdsLast, hholds.like hholds'⟩

end Run

/-- **Of several methods of a name the last one counts, in the place of the first.** A class is read
where one is written, whatever its members and their order. In each of its two lists every name
stands once, the names in the order in which they first appear with the mark, and each with its last
definition that has the mark; these definitions make the table of the methods, which has no other
names and is the one that the definitions make as they are written. -/
theorem methods_last_wins (c : Context) (s s' : Cursor) (stmt : Stmt) :
    (Job.classDefinition.read c s).Gives stmt s' ↔
      ∃ (name : Token) (members : List Member) (lists : Bool → List Definition),
        Member.WrittenClass c s name members s' ∧
        stmt = .classDef name (lists false) (lists true) ∧
        ∀ ofClass, Member.Listed ofClass members (lists ofClass) ∧
          ∀ m : Machine, ∃ t m₁ t' m₂, Run.makeMethods (lists ofClass) m = .done t m₁ ∧
            Run.makeMethods (Member.marked ofClass members) m = .done t' m₂ ∧
            t.HoldsLast m.scope ofClass members ∧ t.Like Closure.SameButSerial t' := by
  rw [Job.gives_classDefinition_iff]
  constructor
  · rintro ⟨name, ms, hwritten, rfl⟩
    exact ⟨name, ms, fun ofClass => Member.collect ofClass ms, hwritten, rfl, fun ofClass =>
      ⟨Member.listed_collect ofClass ms, Run.makeMethods_collect ofClass ms⟩⟩
  · rintro ⟨name, ms, lists, hwritten, rfl, hlists⟩
    exact ⟨name, ms, hwritten, by rw [(hlists false).1.eq_collect, (hlists true).1.eq_collect]⟩

/-- A name that is defined twice for the objects and, in between, once for the class. -/
example :
    let source := "class A \x7b f() \x7b old; \x7d class f() \x7b\x7d " ++
      "g() \x7b\x7d f() \x7b new; \x7d \x7d"
    (Parsed.ofTokens (tokens source)).program.map Stmt.form =
      ["(class A (fun f () (block (; new))) (fun g () (block)) (class (fun f () (block))))"] := by
  decide +kernel

end Lox
