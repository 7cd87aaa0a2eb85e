import Lox.Proofs.Program.Unambiguous

/-!
# Programs are told by their text

A `Node` is an expression or a statement, and `Node.Of` says that it stands in a program, at
whatever depth. If two nodes of programs that are read without a mistake have the same text in
parenthesised form, they are the same but for the lines of their tokens
(`Session.varies_of_form_eq`). Three things have to be left out: strings, which are written without
quotes; numbers too great to be finite, which are all written alike; and names that are the mark for
an absent part.
-/

namespace Lox

/-! ### Nodes -/

/-- An expression or a statement. -/
inductive Node where
  /-- An expression. -/
  | expression (e : Expr)
  /-- A statement. -/
  | statement (s : Stmt)

/-- The expressions and statements that stand right under an expression. -/
def Expr.children : Expr → List Node
  | literal _ | name _ => []
  | assign _ value => [.expression value]
  | get object _ => [.expression object]
  | set object _ value => [.expression object, .expression value]
  | conditional condition whenTrue whenFalse =>
    [.expression condition, .expression whenTrue, .expression whenFalse]
  | logical left _ right | binary left _ right => [.expression left, .expression right]
  | unary _ right => [.expression right]
  | call callee _ arguments => .expression callee :: arguments.map .expression
  | lambda routine => [.statement routine.body]

/-- The expressions and statements that stand right under a statement. -/
def Stmt.children : Stmt → List Node
  | block body => body.map .statement
  | declare _ initial => initial.toList.map .expression
  | function definition => [.statement definition.routine.body]
  | classDef _ methods classMethods =>
    (methods ++ classMethods).map fun d => .statement d.routine.body
  | expression value | print value => [.expression value]
  | branch condition whenTrue whenFalse =>
    .expression condition :: .statement whenTrue :: whenFalse.toList.map .statement
  | whileLoop condition body => [.expression condition, .statement body]
  | forLoop initial condition step body => initial.toList.map .statement ++
      (condition.toList ++ step.toList).map .expression ++ [.statement body]
  | jump _ value => value.toList.map .expression
  | empty => []

namespace Node

/-- The nodes right under a node. -/
def children : Node → List Node
  | expression e => e.children
  | statement s => s.children

/-- A node stands in a program. -/
inductive Of (program : List Stmt) : Node → Prop where
  | statement {s : Stmt} (h : s ∈ program) : Of program (.statement s)
  | child {n child : Node} (h : Of program n) (hchild : child ∈ n.children) : Of program child

/-- The text of a node in parenthesised form. -/
def form : Node → String
  | expression e => e.form
  | statement s => s.form

/-- A node as a nest of words. -/
def nest : Node → Nest Word
  | expression e => e.nest
  | statement s => s.nest

/-- A node is **plain** when there are no strings, no infinite numbers and no names that are the
mark for an absent part in it. -/
def IsPlain (n : Node) : Prop :=
  n.nest.All Word.IsPlain

/-- Nodes of the same sort that vary. -/
def Varies (V : Variation) : Node → Node → Prop
  | expression e, expression e' => e.Varies V e'
  | statement s, statement s' => s.Varies V s'
  | _, _ => False

theorem text_nest (n : Node) : n.nest.text Word.text = n.form := by
  cases n with
  | expression e => exact e.text_nest
  | statement s => exact s.text_nest

end Node

/-! ### The words of a node are among those of the program -/

variable {P : Word → Prop}

open Nest

theorem Expr.all_children {e : Expr} (h : e.nest.All P) : ∀ n ∈ e.children, n.nest.All P := by
  cases e with
  | literal value | name t => exact List.forall_mem_nil _
  | assign t value => exact List.forall_mem_singleton.mpr h.2.2.1
  | get object t => exact List.forall_mem_singleton.mpr h.2.1
  | set object t value =>
    exact List.forall_mem_cons.mpr ⟨h.2.1.2.1, List.forall_mem_singleton.mpr h.2.2.1⟩
  | conditional condition whenTrue whenFalse =>
    exact List.forall_mem_cons.mpr
      ⟨h.2.1, List.forall_mem_cons.mpr ⟨h.2.2.1, List.forall_mem_singleton.mpr h.2.2.2.1⟩⟩
  | logical left operator right | binary left operator right =>
    exact List.forall_mem_cons.mpr ⟨h.2.1, List.forall_mem_singleton.mpr h.2.2.1⟩
  | unary operator right => exact List.forall_mem_singleton.mpr h.2.1
  | call callee paren arguments =>
    have harguments : Every P (Expr.nests arguments) := h.2.2
    rw [Expr.nests_eq_map, every_iff] at harguments
    exact List.forall_mem_cons.mpr
      ⟨h.2.1, List.forall_mem_map.mpr (List.forall_mem_map.mp harguments)⟩
  | lambda routine =>
    cases routine
    exact List.forall_mem_singleton.mpr h.2.2.1

theorem Expr.all_of_mem_option {e : Option Expr} (h : (Expr.optionNest e).All P) :
    ∀ n ∈ e.toList.map Node.expression, n.nest.All P := by
  cases e with
  | none => exact List.forall_mem_nil _
  | some e => exact List.forall_mem_singleton.mpr h

theorem Stmt.all_of_mem_option {s : Option Stmt} (h : (Stmt.optionNest s).All P) :
    ∀ n ∈ s.toList.map Node.statement, n.nest.All P := by
  cases s with
  | none => exact List.forall_mem_nil _
  | some s => exact List.forall_mem_singleton.mpr h

theorem Definition.all_body {d : Definition} (h : d.nest.All P) : d.routine.body.nest.All P := by
  obtain ⟨t, ⟨names, body⟩⟩ := d
  exact h.2.2.2.1

theorem Stmt.all_children {s : Stmt} (h : s.nest.All P) : ∀ n ∈ s.children, n.nest.All P := by
  cases s with
  | block body =>
    have hbody : Every P (Stmt.nests body) := h.2
    rw [Stmt.nests_eq_map, every_iff] at hbody
    exact List.forall_mem_map.mpr (List.forall_mem_map.mp hbody)
  | declare t initial =>
    cases initial with
    | none => exact List.forall_mem_nil _
    | some e => exact List.forall_mem_singleton.mpr h.2.2.1
  | function d => exact List.forall_mem_singleton.mpr (Definition.all_body h)
  | classDef t methods classMethods =>
    have hmembers : Every P (Definition.nests methods ++ Definition.classNests classMethods) :=
      h.2.2
    rw [Definition.nests_eq_map, Definition.classNests_eq_map, every_iff] at hmembers
    obtain ⟨hmethods, hclass⟩ := List.forall_mem_append.mp hmembers
    refine List.forall_mem_map.mpr (List.forall_mem_append.mpr ⟨fun d hd => ?_, fun d hd => ?_⟩)
    · exact Definition.all_body (List.forall_mem_map.mp hmethods d hd)
    · exact Definition.all_body (List.forall_mem_map.mp hclass d hd).2.1
  | expression e | print e => exact List.forall_mem_singleton.mpr h.2.1
  | branch condition whenTrue whenFalse =>
    cases whenFalse with
    | none => exact List.forall_mem_cons.mpr ⟨h.2.1, List.forall_mem_singleton.mpr h.2.2.1⟩
    | some whenFalse =>
      exact List.forall_mem_cons.mpr
        ⟨h.2.1, List.forall_mem_cons.mpr ⟨h.2.2.1, List.forall_mem_singleton.mpr h.2.2.2.1⟩⟩
  | whileLoop condition body =>
    exact List.forall_mem_cons.mpr ⟨h.2.1, List.forall_mem_singleton.mpr h.2.2.1⟩
  | forLoop initial condition step body =>
    obtain ⟨-, hinitial, hcondition, hstep, hbody, -⟩ := h
    rw [Stmt.children, List.map_append]
    refine List.forall_mem_append.mpr ⟨List.forall_mem_append.mpr
      ⟨Stmt.all_of_mem_option hinitial, List.forall_mem_append.mpr ⟨?_, ?_⟩⟩, ?_⟩
    · exact Expr.all_of_mem_option hcondition
    · exact Expr.all_of_mem_option hstep
    · exact List.forall_mem_singleton.mpr hbody
  | jump keyword value =>
    cases value with
    | none => exact List.forall_mem_nil _
    | some e => exact List.forall_mem_singleton.mpr h.2.1
  | empty => exact List.forall_mem_nil _

/-- What holds of the words of a program holds of those of its nodes. -/
theorem Node.Of.all {program : List Stmt} {n : Node} (h : n.Of program)
    (hprogram : Every P (Stmt.nests program)) : n.nest.All P := by
  rw [Stmt.nests_eq_map, every_iff] at hprogram
  induction h with
  | statement h => exact List.forall_mem_map.mp hprogram _ h
  | @child n child h hchild ih =>
    cases n with
    | expression e => exact Expr.all_children ih _ hchild
    | statement s => exact Stmt.all_children ih _ hchild

/-! ### Texts -/

/-- Whether a shape is that of a statement. -/
def Shape.isStatement : Shape → Bool
  | block | declare | function | classDef | expression | print | branch | whileLoop | forLoop | jump
  | empty => true
  | _ => false

namespace Node

theorem varies_of_alike {n n' : Node} (hn : n.nest.IsReadable) (hn' : n'.nest.IsReadable)
    (h : n.nest.Alike Word.text n'.nest) : n.Varies .lines n' := by
  have hsort : ∀ {e : Expr} {s : Stmt}, e.nest.IsReadable → s.nest.IsReadable →
      ¬ e.nest.Alike Word.text s.nest := by
    intro e s he hs h
    have hshape : e.shape = s.shape :=
      (Expr.shape_nest he).symm.trans (h.shape_eq.trans (Stmt.shape_nest hs))
    have hexpression : e.shape.isStatement = false := by cases e <;> rfl
    have hstatement : s.shape.isStatement = true := by cases s <;> rfl
    rw [hshape, hstatement] at hexpression
    cases hexpression
  cases n with
  | expression e =>
    cases n' with
    | expression e' => exact e.varies_of_alike e' hn hn' h
    | statement s' => exact absurd h (hsort hn hn')
  | statement s =>
    cases n' with
    | expression e' => exact absurd (Nest.Alike.symm h) (hsort hn' hn)
    | statement s' => exact s.varies_of_alike s' hn hn' h

end Node

namespace Session

variable {source source' : String}

theorem isReadable_of_isPlain (h : rejections source = []) {n : Node} (hn : n.Of (program source))
    (hplain : n.IsPlain) : n.nest.IsReadable :=
  ((hn.all (spelled_program h)).and hplain).imp fun _ hw => ⟨hw.1, hw.2⟩

/-- **Parenthesised form is unambiguous.** Two expressions or statements of programs that are read
without a mistake, in which there are no strings, no infinite numbers and no names that are the mark
for an absent part, are the same but for the lines of their tokens if they have the same text. -/
theorem varies_of_form_eq (h : rejections source = []) (h' : rejections source' = [])
    {n n' : Node} (hn : n.Of (program source)) (hn' : n'.Of (program source'))
    (hplain : n.IsPlain) (hplain' : n'.IsPlain) (hform : n.form = n'.form) :
    n.Varies .lines n' := by
  have hread := isReadable_of_isPlain h hn hplain
  have hread' := isReadable_of_isPlain h' hn' hplain'
  refine Node.varies_of_alike hread hread' (alike_of_text_eq (f := Word.text) ?_ ?_ ?_)
  · exact hread.imp fun _ hw => hw.isWord
  · exact hread'.imp fun _ hw => hw.isWord
  · rw [n.text_nest, n'.text_nest, hform]

/-- A loop without a first part, on one line and on three. -/
theorem varies_of_form_eq_loop :
    let source := "for (; a < 12; a = a - 1) \x7b f(a, !b.c); \x7d"
    let source' := "for (;\n a<12; a=a-1)\n\x7bf(a, !(b.c));\x7d"
    ∃ s s', rejections source = [] ∧ rejections source' = [] ∧
      Node.Of (program source) (.statement s) ∧ Node.Of (program source') (.statement s') ∧
      (Node.statement s).IsPlain ∧ (Node.statement s').IsPlain ∧
      s.form = "(for _ (< a 12.0) (= a (- a 1.0)) (block (; (call f a (! (. b c))))))" ∧
      s.form = s'.form ∧ (Node.statement s).Varies .lines (.statement s') := by
  intro source source'
  have h : rejections source = [] := by decide +kernel
  have h' : rejections source' = [] := by decide +kernel
  have hfound : ∀ p ∈ [source, source'], (program p).any (fun s =>
      decide (s.nest.All Word.IsPlain) && s.form ==
        "(for _ (< a 12.0) (= a (- a 1.0)) (block (; (call f a (! (. b c))))))") = true := by
    decide +kernel
  obtain ⟨s, hs, hchecks⟩ := List.any_eq_true.mp (hfound source List.mem_cons_self)
  obtain ⟨s', hs', hchecks'⟩ :=
    List.any_eq_true.mp (hfound source' (List.mem_cons_of_mem _ List.mem_cons_self))
  rw [Bool.and_eq_true, decide_eq_true_eq, beq_iff_eq] at hchecks hchecks'
  have hform : s.form = s'.form := hchecks.2.trans hchecks'.2.symm
  exact ⟨s, s', h, h', .statement hs, .statement hs', hchecks.1, hchecks'.1, hchecks.2, hform,
    varies_of_form_eq h h' (.statement hs) (.statement hs') hchecks.1 hchecks'.1 hform⟩

end Session

end Lox
