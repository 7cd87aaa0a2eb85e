import Lox.Proofs.Program.Complete

/-!
# Trees that can be written

A tree is **legal** in a context if some phrase stands for it there: its names are names, its
operators are operators of their levels, its jumps stand in a loop or in a function, its lists are
not too long, and so on. Two things that a tree cannot show follow from how phrases end: the first
branch of an `if` with `else` does not end in an `if` without one, and the body of a function
without a name is a block or what an arrow stands for.

Main definitions:

* `Expr.Legal`, `Stmt.Legal`, `Routine.Legal`, `Definition.Legal` — the trees that can be written;
* `Stmt.endsOpen` — the statements that an `else` could go on with.

Main statements: `Phrase.legal`, `legal_of_errors_eq_nil` — phrases stand for legal trees, and so
what is read without a mistake is legal.
-/

namespace Lox

/-- Whether the right operand of a tier's operators may stay unevaluated. -/
def Tier.isLazy : Tier → Bool
  | disjunction | conjunction => true
  | _ => false

/-- Whether a statement can stand in a block only. -/
def Stmt.isDeclaration : Stmt → Bool
  | .declare .. | .function _ | .classDef .. => true
  | _ => false

/-- Whether a statement can be the first part of a `for` loop. -/
def Stmt.isInitial : Stmt → Bool
  | .declare .. | .expression _ => true
  | _ => false

/-- Whether a statement ends in an `if` without `else`. -/
def Stmt.endsOpen : Stmt → Bool
  | .branch _ _ none => true
  | .branch _ _ (some whenFalse) => whenFalse.endsOpen
  | .whileLoop _ body => body.endsOpen
  | .forLoop _ _ _ body => body.endsOpen
  | _ => false

/-- The names that a routine gives to its arguments are names, and no more than it may have. -/
def LegalNames (names : List Token) : Prop :=
  (∀ name ∈ names, name.kind = .identifier) ∧ names.length ≤ maxArity

/-- No two definitions have the same name. -/
def Definition.Distinct (ds : List Definition) : Prop :=
  (ds.map fun d => d.name.lexeme).Nodup

mutual

/-- The expression can be written in a context. -/
def Expr.Legal (c : Context) : Expr → Prop
  | .literal _ => True
  | .name token => token.kind = .identifier ∨ token.kind = .symbol .thisWord ∧ c.inClass = true
  | .assign name value => name.kind = .identifier ∧ value.Legal c
  | .get object name => object.Legal c ∧ name.kind = .identifier
  | .set object name value => object.Legal c ∧ name.kind = .identifier ∧ value.Legal c
  | .conditional condition whenTrue whenFalse =>
    condition.Legal c ∧ whenTrue.Legal c ∧ whenFalse.Legal c
  | .logical left operator right =>
    (∃ t : Tier, t.admits operator = true ∧ t.isLazy = true) ∧ left.Legal c ∧ right.Legal c
  | .binary left operator right =>
    (operator.kind = .symbol .comma ∨ ∃ t : Tier, t.admits operator = true ∧ t.isLazy = false) ∧
      left.Legal c ∧ right.Legal c
  | .unary operator right =>
    (operator.kind = .symbol .bang ∨ operator.kind = .symbol .minus) ∧ right.Legal c
  | .call callee paren arguments => callee.Legal c ∧ paren.kind = .symbol .leftParen ∧
      Expr.AllLegal c arguments ∧ arguments.length ≤ maxArity
  | .lambda routine => routine.Legal c

/-- The expressions can be written in a context. -/
def Expr.AllLegal (c : Context) : List Expr → Prop
  | [] => True
  | e :: es => e.Legal c ∧ Expr.AllLegal c es

/-- The expression can be written in a context, if there is one. -/
def Expr.OptionLegal (c : Context) : Option Expr → Prop
  | none => True
  | some e => e.Legal c

/-- The statement can be written in a context. -/
def Stmt.Legal (c : Context) : Stmt → Prop
  | .block body => Stmt.AllLegal c body
  | .declare name initial => name.kind = .identifier ∧ Expr.OptionLegal c initial
  | .function definition => definition.Legal c
  | .classDef name methods classMethods => name.kind = .identifier ∧
      (Definition.AllLegal c.enterClass methods ∧ Definition.Distinct methods) ∧
      (Definition.AllLegal c.enterClass classMethods ∧ Definition.Distinct classMethods)
  | .expression value => value.Legal c
  | .print value => value.Legal c
  | .branch condition whenTrue none =>
    condition.Legal c ∧ whenTrue.Legal c ∧ whenTrue.isDeclaration = false
  -- An `else` would go to an open `if` at the end of the first branch.
  | .branch condition whenTrue (some whenFalse) => condition.Legal c ∧
      (whenTrue.Legal c ∧ whenTrue.isDeclaration = false ∧ whenTrue.endsOpen = false) ∧
      (whenFalse.Legal c ∧ whenFalse.isDeclaration = false)
  | .whileLoop condition body =>
    condition.Legal c ∧ body.Legal c.enterLoop ∧ body.isDeclaration = false
  | .forLoop initial condition step body => Stmt.InitialLegal c initial ∧
      Expr.OptionLegal c condition ∧ Expr.OptionLegal c step ∧ body.Legal c.enterLoop ∧
      body.isDeclaration = false
  | .jump keyword none =>
    (keyword.kind = .symbol .breakWord ∨ keyword.kind = .symbol .continueWord) ∧ c.inLoop = true ∨
      keyword.kind = .symbol .returnWord ∧ c.inFunction = true
  | .jump keyword (some value) =>
    keyword.kind = .symbol .returnWord ∧ c.inFunction = true ∧ value.Legal c
  | .empty => True

/-- The statements can be written in a block in a context. -/
def Stmt.AllLegal (c : Context) : List Stmt → Prop
  | [] => True
  | s :: ss => s.Legal c ∧ Stmt.AllLegal c ss

/-- The first part of a `for` loop can be written in a context. -/
def Stmt.InitialLegal (c : Context) : Option Stmt → Prop
  | none => True
  | some s => s.Legal c ∧ s.isInitial = true

/-- The routine of a function without a name can be written in a context. The jump that stands for
an arrow is that of a `return` statement. -/
def Routine.Legal (c : Context) : Routine → Prop
  | .mk names (.block body) => LegalNames names ∧ Stmt.AllLegal c.enterFunction body
  -- The body of an arrow is read in the context around it, not in one of its own.
  | .mk names (.jump keyword (some value)) => LegalNames names ∧
      keyword.kind = .symbol .returnWord ∧ keyword.lexeme = Symbol.returnWord.spelling ∧
      value.Legal c
  | _ => False

/-- The definition can be written in a context. -/
def Definition.Legal (c : Context) : Definition → Prop
  | .mk name (.mk names (.block body)) =>
    name.kind = .identifier ∧ LegalNames names ∧ Stmt.AllLegal c.enterFunction body
  | _ => False

/-- The definitions can be written in a context. -/
def Definition.AllLegal (c : Context) : List Definition → Prop
  | [] => True
  | d :: ds => d.Legal c ∧ Definition.AllLegal c ds

end

/-! ### Lists of definitions -/

theorem Definition.allLegal_iff {c : Context} {ds : List Definition} :
    Definition.AllLegal c ds ↔ ∀ d ∈ ds, d.Legal c := by
  induction ds with
  | nil => simp [Definition.AllLegal]
  | cons d ds ih => rw [Definition.AllLegal, ih, List.forall_mem_cons]

theorem Definition.mem_insert {d e : Definition} {ds : List Definition} (h : e ∈ d.insert ds) :
    e = d ∨ e ∈ ds := by
  induction ds with
  | nil => exact .inl (List.mem_singleton.mp h)
  | cons a as ih =>
    rw [Definition.insert] at h
    split at h
    · obtain rfl | h := List.mem_cons.mp h
      · exact .inl rfl
      · exact .inr (List.mem_cons_of_mem _ h)
    · obtain rfl | h := List.mem_cons.mp h
      · exact .inr List.mem_cons_self
      · exact (ih h).imp_right (List.mem_cons_of_mem _)

/-- A definition takes the place of the one of its name, so the names stay distinct. -/
theorem Definition.Distinct.insert {ds : List Definition} (h : Distinct ds) (d : Definition) :
    Distinct (d.insert ds) := by
  induction ds with
  | nil => exact List.nodup_cons.mpr ⟨List.not_mem_nil, List.nodup_nil⟩
  | cons a as ih =>
    obtain ⟨ha, has⟩ := List.nodup_cons.mp h
    rw [Definition.insert]
    split
    -- The new definition has the name of the one it replaces, and no other has that name.
    case isTrue heq =>
      have heq : a.name.lexeme = d.name.lexeme := by simpa using heq
      refine List.nodup_cons.mpr ⟨?_, has⟩
      show d.name.lexeme ∉ _
      rw [← heq]
      exact ha
    case isFalse hne =>
      have hne : a.name.lexeme ≠ d.name.lexeme := by simpa using hne
      refine List.nodup_cons.mpr ⟨fun hmem => ?_, ih has⟩
      obtain ⟨e, he, hname⟩ := List.mem_map.mp hmem
      obtain rfl | he := mem_insert he
      · exact hne hname.symm
      · exact ha (List.mem_map.mpr ⟨e, he, hname⟩)

/-- A definition of a new name goes to the end. -/
theorem Definition.insert_of_forall_ne {d : Definition} {ds : List Definition}
    (h : ∀ e ∈ ds, e.name.lexeme ≠ d.name.lexeme) : d.insert ds = ds ++ [d] := by
  induction ds with
  | nil => rfl
  | cons a as ih =>
    have ha : a.name.lexeme ≠ d.name.lexeme := h a List.mem_cons_self
    rw [Definition.insert, if_neg (by simpa using ha),
      ih fun e he => h e (List.mem_cons_of_mem _ he)]
    rfl

namespace Member

variable {ofClass : Bool} {members : List Member}

/-- What holds of no definition and is kept by insertions holds of the list of the members. -/
theorem collect_induction {P : List Definition → Prop} (hnil : P [])
    (hinsert : ∀ m ∈ members, ∀ ds, P ds → P (m.definition.insert ds)) :
    P (collect ofClass members) := by
  -- The fold goes on with the list made so far, so the induction is over all lists to go on with.
  suffices h : ∀ (ms : List Member) (ds : List Definition), (∀ m ∈ ms, m ∈ members) → P ds →
      P (ms.foldl (fun ds m => m.definition.insert ds) ds) from
    h _ [] (fun m hm => (List.mem_filter.mp hm).1) hnil
  intro ms
  induction ms with
  | nil => exact fun ds _ hds => hds
  | cons m ms ih =>
    intro ds hms hds
    obtain ⟨hm, hms⟩ := List.forall_mem_cons.mp hms
    exact ih _ hms (hinsert m hm ds hds)

theorem collect_distinct : Definition.Distinct (collect ofClass members) :=
  collect_induction List.nodup_nil fun m _ _ h => h.insert m.definition

theorem allLegal_collect {c : Context} (h : ∀ m ∈ members, m.definition.Legal c) :
    Definition.AllLegal c (collect ofClass members) := by
  refine collect_induction trivial fun m hm ds hds => ?_
  rw [Definition.allLegal_iff] at hds ⊢
  intro d hd
  obtain rfl | hd := Definition.mem_insert hd
  · exact h m hm
  · exact hds d hd

/-- Members of distinct names are all kept, in their order. -/
theorem foldl_insert_of_distinct {ds es : List Definition} (h : Definition.Distinct (ds ++ es)) :
    es.foldl (fun ds d => d.insert ds) ds = ds ++ es := by
  induction es generalizing ds with
  | nil => rw [List.append_nil]; rfl
  | cons e es ih =>
    -- The names of `ds ++ e :: es` are distinct, so `e` replaces nothing in `ds`.
    have hne : ∀ d ∈ ds, d.name.lexeme ≠ e.name.lexeme := by
      intro d hd
      rw [Definition.Distinct, List.map_append, List.map_cons] at h
      exact (List.nodup_append.mp h).2.2 _ (List.mem_map.mpr ⟨d, hd, rfl⟩) _ List.mem_cons_self
    rw [List.foldl_cons, Definition.insert_of_forall_ne hne, ih (by simpa using h),
      List.append_assoc]
    rfl

/-- No two members with the same mark have the same name. -/
def Distinct (members : List Member) : Prop :=
  ∀ ofClass, Definition.Distinct ((members.filter fun m => m.ofClass == ofClass).map definition)

instance (members : List Member) : Decidable (Distinct members) :=
  inferInstanceAs (Decidable (∀ ofClass, (((members.filter fun m => m.ofClass == ofClass).map
    definition).map fun d => d.name.lexeme).Nodup))

/-- If no name is repeated, the members with a mark are kept as they are written. -/
theorem Distinct.collect_eq (h : Distinct members) :
    collect ofClass members = (members.filter fun m => m.ofClass == ofClass).map definition := by
  have := @foldl_insert_of_distinct [] _ (h ofClass)
  rwa [List.foldl_map, List.nil_append] at this

theorem Distinct.map_collect {α : Type} (h : Distinct members) (f : Bool → Definition → α) :
    (collect ofClass members).map (f ofClass) =
      (members.filter fun m => m.ofClass == ofClass).map fun m => f m.ofClass m.definition := by
  rw [h.collect_eq, List.map_map]
  refine List.map_congr_left fun m hm => ?_
  have hclass : m.ofClass = ofClass := by simpa using (List.mem_filter.mp hm).2
  rw [Function.comp_apply, hclass]

/-- The members of a class body that are written list by list. -/
theorem collect_append {methods classMethods : List Definition}
    (hm : Definition.Distinct methods) (hc : Definition.Distinct classMethods) :
    collect false (methods.map (Member.mk false) ++ classMethods.map (Member.mk true)) = methods ∧
      collect true (methods.map (Member.mk false) ++ classMethods.map (Member.mk true)) =
        classMethods := by
  have hsame (b : Bool) (ds : List Definition) :
      (ds.map (Member.mk b)).filter (fun m => m.ofClass == b) = ds.map (Member.mk b) :=
    List.filter_eq_self.mpr (by simp)
  have hother (b b' : Bool) (hb : b ≠ b') (ds : List Definition) :
      (ds.map (Member.mk b)).filter (fun m => m.ofClass == b') = [] :=
    List.filter_eq_nil_iff.mpr (by simpa using fun _ _ => hb)
  constructor
  · rw [collect, List.filter_append, hsame, hother true false nofun, List.append_nil,
      List.foldl_map]
    exact foldl_insert_of_distinct hm
  · rw [collect, List.filter_append, hsame, hother false true nofun, List.nil_append,
      List.foldl_map]
    exact foldl_insert_of_distinct hc

end Member

/-! ### What phrases stand for -/

variable {c : Context}

theorem Expr.legal_join {t : Tier} {x y : Expr} {op : Token} (hop : t.admits op = true)
    (hx : x.Legal c) (hy : y.Legal c) : (t.join x op y).Legal c := by
  cases t with
  | disjunction | conjunction => exact ⟨⟨_, hop, rfl⟩, hx, hy⟩
  | equality | comparison | sum | product => exact ⟨.inr ⟨_, hop, rfl⟩, hx, hy⟩

theorem Expr.legal_assigned {x v y : Expr} (hy : x.assigned? v = some y) (hx : x.Legal c)
    (hv : v.Legal c) : y.Legal c := by
  obtain ⟨t, rfl, hkind, rfl⟩ | ⟨object, member, rfl, rfl⟩ := Expr.assigned?_eq_some.mp hy
  · exact ⟨hkind, hv⟩
  · exact ⟨hx.1, hx.2, hv⟩

theorem ParameterNames.kind {ts names : List Token} (h : ParameterNames ts names) :
    ∀ name ∈ names, name.kind = .identifier := by
  induction h with
  | last hname _ => exact List.forall_mem_singleton.mpr hname
  | more hname _ _ ih => exact List.forall_mem_cons.mpr ⟨hname, ih⟩

theorem Parameters.legalNames {ts names : List Token} (h : Parameters ts names) :
    LegalNames names := by
  cases h with
  | none _ _ => exact ⟨nofun, Nat.zero_le _⟩
  | some _ hnames hle => exact ⟨hnames.kind, hle⟩

/-- The legal results of a part that ends in some way. -/
def Part.Legal (c : Context) (e : Ending) : (p : Part) → p.Result → Prop
  | .expression _, x | .primary, x => x.Legal c
  | .arguments, xs => Expr.AllLegal c xs ∧ xs.length ≤ maxArity
  | .argumentList, xs => Expr.AllLegal c xs
  | .optional, x => Expr.OptionLegal c x
  | .block, xs | .program, xs => Stmt.AllLegal c xs
  | .declaration, x => x.Legal c
  | .variableDefinition, x => x.Legal c ∧ x.isInitial = true
  | .members, ms => ∀ m ∈ ms, m.definition.Legal c
  | .definition, d => d.Legal c
  | .statement, x =>
    x.Legal c ∧ x.isDeclaration = false ∧ (e = .closed → x.endsOpen = false)
  | .initial, x => Stmt.InitialLegal c x

/-- **Phrases stand for legal trees.** -/
theorem Phrase.legal {p : Part} {e : Ending} {ts : List Token} {x : p.Result}
    (h : Phrase c p e ts x) : p.Legal c e x := by
  induction h with
  | lift _ _ ih => exact ih
  | comma _ hop _ ihx ihy => exact ⟨.inl hop, ihx, ihy⟩
  | assign _ _ _ hy ihx ihv => exact Expr.legal_assigned hy ihx ihv
  | conditional _ _ _ _ _ ihx ihy ihz => exact ⟨ihx, ihy, ihz⟩
  | operator _ hop _ ihx ihy => exact Expr.legal_join hop ihx ihy
  | unary hop _ ih => exact ⟨hop, ih⟩
  | callee _ ih => exact ih
  | call _ hparen _ ihf ihxs => exact ⟨ihf, hparen, ihxs.1, ihxs.2⟩
  | member _ _ hname ih => exact ⟨ih, hname⟩
  | literal _ => trivial
  | name ht => exact .inl ht
  | this ht hc => exact .inr ⟨ht, hc⟩
  | paren _ _ _ ih => exact ih
  | lambda _ hps _ _ ih => exact ⟨hps.legalNames, ih⟩
  | arrow _ hps _ _ ih => exact ⟨hps.legalNames, rfl, rfl, ih⟩
  | noArguments _ => exact ⟨trivial, Nat.zero_le _⟩
  | someArguments _ hle ih => exact ⟨ih, hle⟩
  | lastArgument _ _ ih => exact ⟨ih, trivial⟩
  | moreArguments _ _ _ ihx ihxs => exact ⟨ihx, ihxs⟩
  | absent => trivial
  | present _ ih => exact ih
  | blockEnd _ => trivial
  | blockMore _ _ ihx ihxs => exact ⟨ihx, ihxs⟩
  | classDefinition _ hname _ _ ih =>
    exact ⟨hname, ⟨Member.allLegal_collect ih, Member.collect_distinct⟩,
      Member.allLegal_collect ih, Member.collect_distinct⟩
  | function _ _ ih => exact ih
  | declare _ _ ih => exact ih.1
  | statement _ _ ih => exact ih.1
  | membersEnd _ => exact fun _ h => nomatch h
  | method _ _ ihd ihms => exact List.forall_mem_cons.mpr ⟨ihd, ihms⟩
  | classMethod _ _ _ ihd ihms => exact List.forall_mem_cons.mpr ⟨ihd, ihms⟩
  | definition hname hps _ _ ih => exact ⟨hname, hps.legalNames, ih⟩
  | noValue hname _ => exact ⟨⟨hname, trivial⟩, rfl⟩
  | value hname _ _ _ ih => exact ⟨⟨hname, ih⟩, rfl⟩
  | expression _ _ ih => exact ⟨ih, rfl, fun _ => rfl⟩
  | print _ _ _ ih => exact ⟨ih, rfl, fun _ => rfl⟩
  | branch _ _ _ _ _ ihx ihy => exact ⟨⟨ihx, ihy.1, ihy.2.1⟩, rfl, nofun⟩
  | branchElse _ _ _ _ _ _ _ ihx ihy ihz =>
    -- The first branch is closed by the rule, and so it does not end open.
    exact ⟨⟨ihx, ⟨ihy.1, ihy.2.1, ihy.2.2 rfl⟩, ihz.1, ihz.2.1⟩, rfl, ihz.2.2⟩
  | whileLoop _ _ _ _ _ ihx ihy => exact ⟨⟨ihx, ihy.1, ihy.2.1⟩, rfl, ihy.2.2⟩
  | forLoop _ _ _ _ _ _ _ _ ihx ihy ihz ihbody =>
    exact ⟨⟨ihx, ihy, ihz, ihbody.1, ihbody.2.1⟩, rfl, ihbody.2.2⟩
  | jump hword hc _ => exact ⟨.inl ⟨hword, hc⟩, rfl, fun _ => rfl⟩
  | @giveBack _ _ _ _ _ x hword hc _ _ ih =>
    refine ⟨?_, rfl, fun _ => rfl⟩
    cases x with
    | none => exact .inr ⟨hword, hc⟩
    | some x => exact ⟨hword, hc, ih⟩
  | block _ _ ih => exact ⟨ih, rfl, fun _ => rfl⟩
  | empty _ => exact ⟨trivial, rfl, fun _ => rfl⟩
  | noInitial _ => trivial
  | initialVariable _ _ ih => exact ih
  | initialExpression _ _ ih => exact ⟨ih, rfl⟩
  | programEnd => trivial
  | programMore _ _ ihx ihxs => exact ⟨ihx, ihxs⟩

/-- **What is read without a mistake is legal.** -/
theorem legal_of_errors_eq_nil {ts : List Token} (h : (Parsed.ofTokens ts).errors = []) :
    Stmt.AllLegal .outermost (Parsed.ofTokens ts).program := by
  have hparsed : Parsed.ofCursor (Cursor.ofTokens ts) = ⟨(Parsed.ofTokens ts).program, []⟩ := by
    rw [← h]
    rfl
  exact (parsed_ofCursor_iff.mp hparsed).legal

end Lox
