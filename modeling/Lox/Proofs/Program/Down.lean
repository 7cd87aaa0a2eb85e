import Lox.Proofs.Program.Varies

/-!
# Programs further down

A program that stands further down in a text has other lines and is the same otherwise: `Expr.down`
and its companions add a number to the line of every token. Nothing that decides what a program does
is changed by that, neither the kind nor the text of a token.
-/

namespace Lox

/-- The token some lines further down. -/
def Token.down (lines : Nat) (t : Token) : Token :=
  { t with line := t.line + lines }

mutual

/-- The expression some lines further down. -/
def Expr.down (lines : Nat) : Expr → Expr
  | .literal value => .literal value
  | .name token => .name (token.down lines)
  | .assign name value => .assign (name.down lines) (value.down lines)
  | .get object name => .get (object.down lines) (name.down lines)
  | .set object name value => .set (object.down lines) (name.down lines) (value.down lines)
  | .conditional condition whenTrue whenFalse =>
    .conditional (condition.down lines) (whenTrue.down lines) (whenFalse.down lines)
  | .logical left operator right =>
    .logical (left.down lines) (operator.down lines) (right.down lines)
  | .binary left operator right =>
    .binary (left.down lines) (operator.down lines) (right.down lines)
  | .unary operator right => .unary (operator.down lines) (right.down lines)
  | .call callee paren arguments =>
    .call (callee.down lines) (paren.down lines) (Expr.allDown lines arguments)
  | .lambda routine => .lambda (routine.down lines)

/-- The expressions some lines further down. -/
def Expr.allDown (lines : Nat) : List Expr → List Expr
  | [] => []
  | e :: es => e.down lines :: Expr.allDown lines es

/-- The expression, if there is one, some lines further down. -/
def Expr.optionDown (lines : Nat) : Option Expr → Option Expr
  | none => none
  | some e => some (e.down lines)

/-- The statement some lines further down. -/
def Stmt.down (lines : Nat) : Stmt → Stmt
  | .block body => .block (Stmt.allDown lines body)
  | .declare name initial => .declare (name.down lines) (Expr.optionDown lines initial)
  | .function definition => .function (definition.down lines)
  | .classDef name methods classMethods =>
    .classDef (name.down lines) (Definition.allDown lines methods)
      (Definition.allDown lines classMethods)
  | .expression value => .expression (value.down lines)
  | .print value => .print (value.down lines)
  | .branch condition whenTrue whenFalse =>
    .branch (condition.down lines) (whenTrue.down lines) (Stmt.optionDown lines whenFalse)
  | .whileLoop condition body => .whileLoop (condition.down lines) (body.down lines)
  | .forLoop initial condition step body =>
    .forLoop (Stmt.optionDown lines initial) (Expr.optionDown lines condition)
      (Expr.optionDown lines step) (body.down lines)
  | .jump keyword value => .jump (keyword.down lines) (Expr.optionDown lines value)
  | .empty => .empty

/-- The statements some lines further down. -/
def Stmt.allDown (lines : Nat) : List Stmt → List Stmt
  | [] => []
  | s :: ss => s.down lines :: Stmt.allDown lines ss

/-- The statement, if there is one, some lines further down. -/
def Stmt.optionDown (lines : Nat) : Option Stmt → Option Stmt
  | none => none
  | some s => some (s.down lines)

/-- The routine some lines further down. -/
def Routine.down (lines : Nat) : Routine → Routine
  | .mk parameters body => .mk (parameters.map (Token.down lines)) (body.down lines)

/-- The definition some lines further down. -/
def Definition.down (lines : Nat) : Definition → Definition
  | .mk name routine => .mk (name.down lines) (routine.down lines)

/-- The definitions some lines further down. -/
def Definition.allDown (lines : Nat) : List Definition → List Definition
  | [] => []
  | d :: ds => d.down lines :: Definition.allDown lines ds

end

variable {lines : Nat}

@[simp] theorem Token.kind_down (t : Token) : (t.down lines).kind = t.kind := rfl

@[simp] theorem Token.lexeme_down (t : Token) : (t.down lines).lexeme = t.lexeme := rfl

@[simp] theorem Routine.parameters_down (r : Routine) :
    (r.down lines).parameters = r.parameters.map (Token.down lines) := by
  obtain ⟨parameters, body⟩ := r
  rfl

@[simp] theorem Definition.name_down (d : Definition) :
    (d.down lines).name = d.name.down lines := by
  obtain ⟨name, routine⟩ := d
  rfl

theorem Expr.allDown_eq_map (es : List Expr) :
    Expr.allDown lines es = es.map (Expr.down lines) := by
  induction es with
  | nil => rfl
  | cons e es ih => rw [Expr.allDown, ih, List.map_cons]

theorem Definition.allDown_eq_map (ds : List Definition) :
    Definition.allDown lines ds = ds.map (Definition.down lines) := by
  induction ds with
  | nil => rfl
  | cons d ds ih => rw [Definition.allDown, ih, List.map_cons]

/-! ### No lines further down -/

@[simp] theorem Token.down_zero (t : Token) : t.down 0 = t := rfl

theorem Token.map_down_zero (ts : List Token) : ts.map (Token.down 0) = ts := by
  rw [funext Token.down_zero, List.map_id']

mutual

theorem Expr.down_zero : (e : Expr) → e.down 0 = e
  | .literal _ => rfl
  | .name _ => rfl
  | .assign _ value => by rw [Expr.down, value.down_zero, Token.down_zero]
  | .get object _ => by rw [Expr.down, object.down_zero, Token.down_zero]
  | .set object _ value => by
    rw [Expr.down, object.down_zero, value.down_zero, Token.down_zero]
  | .conditional condition whenTrue whenFalse => by
    rw [Expr.down, condition.down_zero, whenTrue.down_zero, whenFalse.down_zero]
  | .logical left _ right => by rw [Expr.down, left.down_zero, right.down_zero, Token.down_zero]
  | .binary left _ right => by rw [Expr.down, left.down_zero, right.down_zero, Token.down_zero]
  | .unary _ right => by rw [Expr.down, right.down_zero, Token.down_zero]
  | .call callee _ arguments => by
    rw [Expr.down, callee.down_zero, Expr.allDown_zero arguments, Token.down_zero]
  | .lambda routine => by rw [Expr.down, routine.down_zero]

theorem Expr.allDown_zero : (es : List Expr) → Expr.allDown 0 es = es
  | [] => rfl
  | e :: es => by rw [Expr.allDown, e.down_zero, Expr.allDown_zero es]

theorem Expr.optionDown_zero : (e : Option Expr) → Expr.optionDown 0 e = e
  | none => rfl
  | some e => by rw [Expr.optionDown, e.down_zero]

theorem Stmt.down_zero : (s : Stmt) → s.down 0 = s
  | .block body => by rw [Stmt.down, Stmt.allDown_zero body]
  | .declare _ initial => by rw [Stmt.down, Expr.optionDown_zero initial, Token.down_zero]
  | .function definition => by rw [Stmt.down, definition.down_zero]
  | .classDef _ methods classMethods => by
    rw [Stmt.down, Definition.allDown_zero methods, Definition.allDown_zero classMethods,
      Token.down_zero]
  | .expression value => by rw [Stmt.down, value.down_zero]
  | .print value => by rw [Stmt.down, value.down_zero]
  | .branch condition whenTrue whenFalse => by
    rw [Stmt.down, condition.down_zero, whenTrue.down_zero, Stmt.optionDown_zero whenFalse]
  | .whileLoop condition body => by rw [Stmt.down, condition.down_zero, body.down_zero]
  | .forLoop initial condition step body => by
    rw [Stmt.down, Stmt.optionDown_zero initial, Expr.optionDown_zero condition,
      Expr.optionDown_zero step, body.down_zero]
  | .jump _ value => by rw [Stmt.down, Expr.optionDown_zero value, Token.down_zero]
  | .empty => rfl

theorem Stmt.allDown_zero : (ss : List Stmt) → Stmt.allDown 0 ss = ss
  | [] => rfl
  | s :: ss => by rw [Stmt.allDown, s.down_zero, Stmt.allDown_zero ss]

theorem Stmt.optionDown_zero : (s : Option Stmt) → Stmt.optionDown 0 s = s
  | none => rfl
  | some s => by rw [Stmt.optionDown, s.down_zero]

theorem Routine.down_zero : (r : Routine) → r.down 0 = r
  | .mk parameters body => by rw [Routine.down, body.down_zero, Token.map_down_zero]

theorem Definition.down_zero : (d : Definition) → d.down 0 = d
  | .mk _ routine => by rw [Definition.down, routine.down_zero, Token.down_zero]

theorem Definition.allDown_zero : (ds : List Definition) → Definition.allDown 0 ds = ds
  | [] => rfl
  | d :: ds => by rw [Definition.allDown, d.down_zero, Definition.allDown_zero ds]

end

/-! ### Programs further down vary -/

/-- Code stands some lines further down. -/
def Variation.down (lines : Nat) : Variation where
  token t t' := t' = t.down lines
  boxed := False
  kind h := by rw [h, Token.kind_down]
  lexeme h := by rw [h, Token.lexeme_down]

instance : Std.Refl (Variation.down 0).token := ⟨fun t => t.down_zero.symm⟩

section

variable {V : Variation}

mutual

theorem Expr.varies_down (hV : ∀ t, V.token t (t.down lines)) (e : Expr) :
    e.Varies V (e.down lines) := by
  cases e with
  | literal value => exact .literal value
  | name t => exact .name (hV t)
  | assign t e => exact .assign (hV t) (e.varies_down hV)
  | get e t => exact .get (e.varies_down hV) (hV t)
  | set e t value => exact .set (e.varies_down hV) (hV t) (value.varies_down hV)
  | conditional e whenTrue whenFalse =>
    exact .conditional (e.varies_down hV) (whenTrue.varies_down hV) (whenFalse.varies_down hV)
  | logical left t right => exact .logical (left.varies_down hV) (hV t) (right.varies_down hV)
  | binary left t right => exact .binary (left.varies_down hV) (hV t) (right.varies_down hV)
  | unary t right => exact .unary (hV t) (right.varies_down hV)
  | call callee t arguments =>
    exact .call (callee.varies_down hV) (hV t) (Expr.varies_allDown hV arguments)
  | lambda r => exact .lambda (r.varies_down hV)

theorem Expr.varies_allDown (hV : ∀ t, V.token t (t.down lines)) (es : List Expr) :
    List.Forall₂ (Expr.Varies V) es (Expr.allDown lines es) := by
  cases es with
  | nil => exact .nil
  | cons e es => exact .cons (e.varies_down hV) (Expr.varies_allDown hV es)

theorem Expr.varies_optionDown (hV : ∀ t, V.token t (t.down lines)) (e : Option Expr) :
    Option.Rel (Expr.Varies V) e (Expr.optionDown lines e) := by
  cases e with
  | none => exact .none
  | some e => exact .some (e.varies_down hV)

theorem Stmt.varies_down (hV : ∀ t, V.token t (t.down lines)) (s : Stmt) :
    s.Varies V (s.down lines) := by
  cases s with
  | block body => exact .block (Stmt.varies_allDown hV body)
  | declare t initial => exact .declare (hV t) (Expr.varies_optionDown hV initial)
  | function d => exact .function (d.varies_down hV)
  | classDef t methods classMethods =>
    exact .classDef (hV t) (Definition.varies_allDown hV methods)
      (Definition.varies_allDown hV classMethods)
  | expression e => exact .expression (e.varies_down hV)
  | print e => exact .print (e.varies_down hV)
  | branch e whenTrue whenFalse =>
    exact .branch (e.varies_down hV) (whenTrue.varies_down hV) (Stmt.varies_optionDown hV whenFalse)
  | whileLoop e body => exact .whileLoop (e.varies_down hV) (body.varies_down hV)
  | forLoop initial condition step body =>
    exact .forLoop (Stmt.varies_optionDown hV initial) (Expr.varies_optionDown hV condition)
      (Expr.varies_optionDown hV step) (body.varies_down hV)
  | jump t value => exact .jump (hV t) (Expr.varies_optionDown hV value)
  | empty => exact .empty

theorem Stmt.varies_allDown (hV : ∀ t, V.token t (t.down lines)) (ss : List Stmt) :
    List.Forall₂ (Stmt.Varies V) ss (Stmt.allDown lines ss) := by
  cases ss with
  | nil => exact .nil
  | cons s ss => exact .cons (s.varies_down hV) (Stmt.varies_allDown hV ss)

theorem Stmt.varies_optionDown (hV : ∀ t, V.token t (t.down lines)) (s : Option Stmt) :
    Option.Rel (Stmt.Varies V) s (Stmt.optionDown lines s) := by
  cases s with
  | none => exact .none
  | some s => exact .some (s.varies_down hV)

theorem Routine.varies_down (hV : ∀ t, V.token t (t.down lines)) (r : Routine) :
    r.Varies V (r.down lines) := by
  cases r with
  | mk ps body =>
    have hps : List.Forall₂ V.token ps (ps.map (Token.down lines)) :=
      List.forall₂_map_right_iff.mpr (List.forall₂_same.mpr fun t _ => hV t)
    exact .mk hps (body.varies_down hV)

theorem Definition.varies_down (hV : ∀ t, V.token t (t.down lines)) (d : Definition) :
    d.Varies V (d.down lines) := by
  cases d with
  | mk t r => exact .mk (hV t) (r.varies_down hV)

theorem Definition.varies_allDown (hV : ∀ t, V.token t (t.down lines)) (ds : List Definition) :
    List.Forall₂ (Definition.Varies V) ds (Definition.allDown lines ds) := by
  cases ds with
  | nil => exact .nil
  | cons d ds => exact .cons (d.varies_down hV) (Definition.varies_allDown hV ds)

end

/-! A program that need not differ varies from itself: it stands no lines further down. -/

variable [Std.Refl V.token]

theorem Expr.varies_refl (e : Expr) : e.Varies V e := by
  have hdown : e.Varies V (e.down 0) := e.varies_down fun t => refl t
  rwa [e.down_zero] at hdown

theorem Stmt.varies_refl (s : Stmt) : s.Varies V s := by
  have hdown : s.Varies V (s.down 0) := s.varies_down fun t => refl t
  rwa [s.down_zero] at hdown

theorem Stmt.forall₂_varies_refl (ss : List Stmt) : List.Forall₂ (Stmt.Varies V) ss ss :=
  List.forall₂_same.mpr fun s _ => s.varies_refl

theorem Routine.varies_refl (r : Routine) : r.Varies V r := by
  have hdown : r.Varies V (r.down 0) := r.varies_down fun t => refl t
  rwa [r.down_zero] at hdown

end

/-! Nothing else varies in this way. -/

theorem Token.eq_map_down {ts ts' : List Token}
    (h : List.Forall₂ (Variation.down lines).token ts ts') : ts' = ts.map (Token.down lines) := by
  induction h with
  | nil => rfl
  | cons ht _ ih => rw [List.map_cons, ← ih, ht]

mutual

theorem Expr.eq_down : (e : Expr) → {e' : Expr} → e.Varies (.down lines) e' → e' = e.down lines
  | .literal _, _, .literal _ => rfl
  | .name _, _, .name ht => by rw [ht, Expr.down]
  | .assign _ e, _, .assign ht he => by rw [ht, e.eq_down he, Expr.down]
  | .get e _, _, .get he ht => by rw [ht, e.eq_down he, Expr.down]
  | .set e _ value, _, .set he ht hvalue => by
    rw [ht, e.eq_down he, value.eq_down hvalue, Expr.down]
  | .conditional e whenTrue whenFalse, _, .conditional he htrue hfalse => by
    rw [e.eq_down he, whenTrue.eq_down htrue, whenFalse.eq_down hfalse, Expr.down]
  | .logical left _ right, _, .logical hleft ht hright => by
    rw [ht, left.eq_down hleft, right.eq_down hright, Expr.down]
  | .binary left _ right, _, .binary hleft ht hright => by
    rw [ht, left.eq_down hleft, right.eq_down hright, Expr.down]
  | .unary _ right, _, .unary ht hright => by rw [ht, right.eq_down hright, Expr.down]
  | .call callee _ arguments, _, .call hcallee ht harguments => by
    rw [ht, callee.eq_down hcallee, Expr.eq_allDown arguments harguments, Expr.down]
  | .lambda r, _, .lambda hr => by rw [r.eq_down hr, Expr.down]

theorem Expr.eq_allDown : (es : List Expr) → {es' : List Expr} →
    List.Forall₂ (Expr.Varies (.down lines)) es es' → es' = Expr.allDown lines es
  | [], _, .nil => rfl
  | e :: es, _, .cons he hes => by rw [e.eq_down he, Expr.eq_allDown es hes, Expr.allDown]

theorem Expr.eq_optionDown : (e : Option Expr) → {e' : Option Expr} →
    Option.Rel (Expr.Varies (.down lines)) e e' → e' = Expr.optionDown lines e
  | none, _, .none => rfl
  | some e, _, .some he => by rw [e.eq_down he, Expr.optionDown]

theorem Stmt.eq_down : (s : Stmt) → {s' : Stmt} → s.Varies (.down lines) s' → s' = s.down lines
  | .block body, _, .block hbody => by rw [Stmt.eq_allDown body hbody, Stmt.down]
  | .declare _ initial, _, .declare ht hinitial => by
    rw [ht, Expr.eq_optionDown initial hinitial, Stmt.down]
  | .function d, _, .function hd => by rw [d.eq_down hd, Stmt.down]
  | .classDef _ methods classMethods, _, .classDef ht hmethods hclassMethods => by
    rw [ht, Definition.eq_allDown methods hmethods,
      Definition.eq_allDown classMethods hclassMethods, Stmt.down]
  | .expression e, _, .expression he => by rw [e.eq_down he, Stmt.down]
  | .print e, _, .print he => by rw [e.eq_down he, Stmt.down]
  | .branch e whenTrue whenFalse, _, .branch he htrue hfalse => by
    rw [e.eq_down he, whenTrue.eq_down htrue, Stmt.eq_optionDown whenFalse hfalse, Stmt.down]
  | .whileLoop e body, _, .whileLoop he hbody => by
    rw [e.eq_down he, body.eq_down hbody, Stmt.down]
  | .forLoop initial condition step body, _, .forLoop hinitial hcondition hstep hbody => by
    rw [Stmt.eq_optionDown initial hinitial, Expr.eq_optionDown condition hcondition,
      Expr.eq_optionDown step hstep, body.eq_down hbody, Stmt.down]
  | .jump _ value, _, .jump ht hvalue => by rw [ht, Expr.eq_optionDown value hvalue, Stmt.down]
  | .empty, _, .empty => rfl

theorem Stmt.eq_allDown : (ss : List Stmt) → {ss' : List Stmt} →
    List.Forall₂ (Stmt.Varies (.down lines)) ss ss' → ss' = Stmt.allDown lines ss
  | [], _, .nil => rfl
  | s :: ss, _, .cons hs hss => by rw [s.eq_down hs, Stmt.eq_allDown ss hss, Stmt.allDown]

theorem Stmt.eq_optionDown : (s : Option Stmt) → {s' : Option Stmt} →
    Option.Rel (Stmt.Varies (.down lines)) s s' → s' = Stmt.optionDown lines s
  | none, _, .none => rfl
  | some s, _, .some hs => by rw [s.eq_down hs, Stmt.optionDown]

theorem Routine.eq_down : (r : Routine) → {r' : Routine} → r.Varies (.down lines) r' →
    r' = r.down lines
  | .mk _ body, _, .mk hps hbody => by
    rw [Token.eq_map_down hps, body.eq_down hbody, Routine.down]
  | .mk _ _, _, .boxed hV _ _ _ => hV.elim

theorem Definition.eq_down : (d : Definition) → {d' : Definition} → d.Varies (.down lines) d' →
    d' = d.down lines
  | .mk _ r, _, .mk ht hr => by rw [ht, r.eq_down hr, Definition.down]

theorem Definition.eq_allDown : (ds : List Definition) → {ds' : List Definition} →
    List.Forall₂ (Definition.Varies (.down lines)) ds ds' → ds' = Definition.allDown lines ds
  | [], _, .nil => rfl
  | d :: ds, _, .cons hd hds => by
    rw [d.eq_down hd, Definition.eq_allDown ds hds, Definition.allDown]

end

/-- A routine varies by the lines between the two only if it stands that much further down. -/
theorem Routine.varies_down_iff {r r' : Routine} :
    r.Varies (.down lines) r' ↔ r' = r.down lines := by
  constructor
  · exact r.eq_down
  · rintro rfl
    exact r.varies_down fun _ => rfl

/-! ### Members -/

theorem Definition.insert_down (d : Definition) (ds : List Definition) :
    (d.down lines).insert (ds.map (Definition.down lines)) =
      (d.insert ds).map (Definition.down lines) := by
  induction ds with
  | nil => rfl
  | cons e es ih =>
    rw [List.map_cons, Definition.insert, Definition.insert]
    simp only [Definition.name_down, Token.lexeme_down]
    split
    · rfl
    · rw [ih, List.map_cons]

/-- The member some lines further down. -/
def Member.down (lines : Nat) (m : Member) : Member :=
  ⟨m.ofClass, m.definition.down lines⟩

@[simp] theorem Member.definition_down (m : Member) :
    (m.down lines).definition = m.definition.down lines := rfl

theorem Member.collect_down (ofClass : Bool) (ms : List Member) :
    collect ofClass (ms.map (Member.down lines)) =
      (collect ofClass ms).map (Definition.down lines) := by
  have hfold (ms : List Member) (ds : List Definition) :
      (ms.map (Member.down lines)).foldl (fun ds m => m.definition.insert ds)
          (ds.map (Definition.down lines)) =
        (ms.foldl (fun ds m => m.definition.insert ds) ds).map (Definition.down lines) := by
    induction ms generalizing ds with
    | nil => rfl
    | cons m ms ih =>
      rw [List.map_cons, List.foldl_cons, List.foldl_cons, ← ih, definition_down,
        Definition.insert_down]
  unfold collect
  rw [List.filter_map, ← hfold]
  rfl

end Lox
