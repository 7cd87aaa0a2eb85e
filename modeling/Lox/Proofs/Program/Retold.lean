import Lox.Proofs.Program.Flat
import Lox.Proofs.Program.Progress
import Mathlib.Data.List.Forall2

/-!
# Readings retold

What is read in a place passes tokens and notes mistakes. Put down as leaves, in the order of the
text, this **retells** the reading (`Leaf.Retells`). A flattening **accounts** for readings if what
it makes of a tree is what a relation demands of the leaves that retell how the tree was read
(`Flattening.Accounts`); then it accounts for whole programs (`Parsing.retold`).

That a script tells what it passes is a matter of the script alone (`Script.Tells`), with one
statement for each job (`Job.tells`).
-/

namespace Lox

/-! ### Lists that may be too long -/

namespace Leaf

/-- Parameters or arguments behind the first `n`. -/
def crowdedFrom (mistake : Mistake) : Nat → List (List Leaf) → List Leaf
  | _, [] => []
  | n, w :: ws =>
    (if n = maxArity then [.flaw mistake] else []) ++ w ++ crowdedFrom mistake (n + 1) ws

theorem crowdedFrom_of_lt {mistake : Mistake} {n : Nat} (h : maxArity < n)
    (ws : List (List Leaf)) : crowdedFrom mistake n ws = ws.flatten := by
  induction ws generalizing n with
  | nil => rfl
  | cons w ws ih =>
    rw [crowdedFrom, if_neg (Nat.ne_of_gt h), ih (Nat.lt_succ_of_lt h), List.flatten_cons,
      List.nil_append]

theorem crowdedFrom_of_le {mistake : Mistake} {n : Nat} (h : n ≤ maxArity)
    (ws : List (List Leaf)) : crowdedFrom mistake n ws =
      (ws.take (maxArity - n)).flatten ++
        (if maxArity < n + ws.length then [.flaw mistake] else []) ++
        (ws.drop (maxArity - n)).flatten := by
  induction ws generalizing n with
  | nil => simp [crowdedFrom, Nat.not_lt_of_le h]
  | cons w ws ih =>
    rw [crowdedFrom]
    rcases Nat.lt_or_eq_of_le h with hlt | rfl
    · have hsucc : maxArity - n = maxArity - (n + 1) + 1 := by omega
      have hlength : n + (w :: ws).length = n + 1 + ws.length := by
        rw [List.length_cons]
        omega
      rw [if_neg (Nat.ne_of_lt hlt), ih hlt, hsucc, hlength, List.take_succ_cons,
        List.drop_succ_cons, List.flatten_cons]
      simp only [List.nil_append, List.append_assoc]
    · rw [if_pos rfl, crowdedFrom_of_lt (Nat.lt_succ_self _), Nat.sub_self, List.take_zero,
        List.drop_zero, if_pos (by rw [List.length_cons]; omega), List.flatten_cons,
        List.flatten_nil]
      simp only [List.nil_append, List.append_assoc]

theorem crowdedFrom_zero (mistake : Mistake) (ws : List (List Leaf)) :
    crowdedFrom mistake 0 ws = crowded mistake ws := by
  rw [crowdedFrom_of_le (Nat.zero_le _), crowded, Nat.sub_zero, Nat.zero_add]

end Leaf

@[simp]
theorem Context.enter_none (c : Context) : c.enter none = c := rfl

/-! ### Accounts -/

/-- What a flattening makes of trees is what a relation demands of the leaves in the order of the
text, the members of a class being as they are to be in a body. -/
structure Flattening.Accounts {M : Type} (f : Flattening M) (good : List Member → Prop)
    (R : List Leaf → M → Prop) : Prop where
  /-- Parts that stand one after the other. -/
  row {ws : List (List Leaf)} {parts : List M} (h : List.Forall₂ R ws parts) :
    R ws.flatten (f.row parts)
  /-- Names, `this` and operators. -/
  word (t : Token) : R [.word t] (f.word t)
  /-- Constants. -/
  constant (value : Literal) : R [.constant value] (f.constant value)
  /-- Jumps, with the mistake that there may be. -/
  jump (c : Context) (keyword : Token) :
    R (.jump keyword :: c.misplaced keyword) (f.jump c keyword)
  /-- The keyword of a class. -/
  classWord : R [.classWord] f.classWord
  /-- Parameters and arguments, with the mistake that there may be. -/
  list (mistake : Mistake) {ws : List (List Leaf)} {parts : List M}
    (h : List.Forall₂ R ws parts) : R (Leaf.crowded mistake ws) (f.list mistake parts)
  /-- The members of a class as they are written. -/
  members {ms : List Member} (hms : good ms) {flat : Definition → M} {ws : List (List Leaf)}
    (h : List.Forall₂ R ws (ms.map fun m => f.member m.ofClass (flat m.definition))) :
    R ws.flatten (f.members ((Member.collect false ms).map fun d => f.member false (flat d))
      ((Member.collect true ms).map fun d => f.member true (flat d)))

section

variable {M : Type} {f : Flattening M} {good : List Member → Prop} {R : List Leaf → M → Prop}

variable (f R) in
/-- What is demanded of the leaves that retell how a job was done. -/
@[simp]
def Job.Told (c : Context) : (j : Job) → j.Result → List Leaf → Prop
  | expression _, e, w | primary, e, w | lambda, e, w => R w (e.flat f c)
  | operands _ left, e, w => ∀ u, R u (left.flat f c) → R (u ++ w) (e.flat f c)
  | trailers callee, e, w => ∀ u, R u (callee.flat f c) → R (u ++ w) (e.flat f c)
  | arguments, es, w => R w (f.list .tooManyArguments (Expr.allFlat f c es))
  | argumentList count, es, w => ∃ ws, List.Forall₂ R ws (Expr.allFlat f c es) ∧
      w = Leaf.crowdedFrom .tooManyArguments count ws
  | parameters, names, w => R w (f.list .tooManyParameters (names.map f.word))
  | parameterList count, names, w => ∃ ws, List.Forall₂ R ws (names.map f.word) ∧
      w = Leaf.crowdedFrom .tooManyParameters count ws
  | block, body, w => ∃ ws, List.Forall₂ R ws (Stmt.allFlat f c body) ∧ w = ws.flatten
  | members, ms, w =>
    ∃ ws, List.Forall₂ R ws (ms.map fun m => f.member m.ofClass (m.definition.flat f c)) ∧
      w = ws.flatten
  -- The keyword is passed before the job begins.
  | classDefinition, s, w => R (.classWord :: w) (s.flat f c)
  | definition, d, w => R w (d.flat f c)
  | optionalExpression _, e, w => R w (Expr.optionFlat f c e)
  | forInitial, s, w => R w (Stmt.optionFlat f c s)
  | declaration, s, w | variableDefinition, s, w | statement, s, w | expressionStatement, s, w
  | forStatement, s, w | ifStatement, s, w | whileStatement, s, w => R w (s.flat f c)

/-- Whether what a job read is as it is to be: the members of a class body. -/
@[simp]
def Job.Allows (good : List Member → Prop) : (j : Job) → j.Result → Prop
  | members, ms => good ms
  | _, _ => True

variable (f good R) in
/-- A script tells what it passes: whatever it reads, the leaves `u` of what was passed before and
of what it passes are as demanded of the result. -/
@[simp]
def Script.Tells {α : Type} (told : α → List Leaf → Prop) (c : Context) :
    Script α → List Leaf → Prop
  | done x, u => told x u
  | take p found absent, u => (∀ t, p t = true → (found t).Tells told c (u ++ t.leaf?.toList)) ∧
      absent.Tells told c u
  | look next stop, u => (∀ t, (next t).Tells told c u) ∧ stop.Tells told c u
  | report reason _ mistake rest, u =>
    rest.Tells told c (u ++ if reason then [.flaw mistake] else [])
  | fail .., _ => True
  | ask a rest, u => (rest (c.has a)).Tells told c u
  | start a j rest, u => ∀ x w, j.Allows good x → j.Told f R (c.enter a) x w →
      (rest x).Tells told c (u ++ w)

/-! ### What the scripts tell -/

theorem Script.tells_ofArgumentList (c : Context) (count : Nat) :
    (ofArgumentList count).Tells f good R ((Job.argumentList count).Told f R c) c [] := by
  intro value v _ hv
  refine ⟨fun comma hcomma values w _ ⟨ws, hws, hw⟩ => ?_, fun paren hparen => ?_, trivial⟩
  · refine ⟨v :: ws, .cons hv hws, ?_⟩
    simp [Token.leaf?_of_is hcomma, Symbol.leaf?, Leaf.crowdedFrom, hw]
  · refine ⟨[v], .cons hv .nil, ?_⟩
    simp [Token.leaf?_of_is hparen, Symbol.leaf?, Leaf.crowdedFrom]

theorem Script.tells_ofBlock (c : Context) :
    ofBlock.Tells f good R (Job.block.Told f R c) c [] := by
  refine ⟨fun brace hbrace => ⟨[], .nil, ?_⟩,
    fun _ first v _ hv others w _ ⟨ws, hws, hw⟩ => ⟨v :: ws, .cons hv hws, ?_⟩, trivial⟩
  · simp [Token.leaf?_of_is hbrace, Symbol.leaf?]
  · simp [hw]

variable (h : f.Accounts good R)
include h

namespace Flattening.Accounts

theorem nil : R [] (f.row []) :=
  h.row .nil

theorem two {u v : List Leaf} {a b : M} (hu : R u a) (hv : R v b) : R (u ++ v) (f.row [a, b]) := by
  simpa using h.row (.cons hu (.cons hv .nil))

theorem three {u v w : List Leaf} {a b d : M} (hu : R u a) (hv : R v b) (hw : R w d) :
    R (u ++ (v ++ w)) (f.row [a, b, d]) := by
  simpa using h.row (.cons hu (.cons hv (.cons hw .nil)))

/-- A token that is an expression by itself. -/
theorem atom {c : Context} {t : Token} (ht : t.atom?.isSome = true) :
    R t.leaf?.toList ((t.atom?.getD (.name t)).flat f c) := by
  obtain ⟨kind, lexeme, line⟩ := t
  cases kind with
  | symbol x => cases x <;> first | exact h.constant _ | cases ht
  | identifier => exact h.word _
  | number value => exact h.constant _
  | string value => exact h.constant _
  | eof => cases ht

end Flattening.Accounts

theorem Script.tells_ofLevel (c : Context) (l : Level) :
    (ofLevel l).Tells f good R ((Job.expression l).Told f R c) c [] := by
  cases l with
  | comma =>
    intro left u _ hu
    refine ⟨fun operator hop right w _ hw => ?_, hu⟩
    simpa [Token.leaf?_of_is hop, Symbol.leaf?, Expr.flat, Flattening.operator, hop] using
      h.three hu h.nil hw
  | assignment =>
    intro target u _ hu
    refine ⟨fun equal hequal value w _ hw => ?_, hu⟩
    cases hassigned : target.assigned? value with
    | none => simp [hassigned]
    | some e =>
      have he := h.two hu hw
      rw [Context.enter_none, ← Expr.flat_assigned hassigned] at he
      simpa [hassigned, Token.leaf?_of_is hequal, Symbol.leaf?] using he
  | conditional =>
    intro condition u _ hu
    refine ⟨fun question hquestion whenTrue v _ hv =>
      ⟨fun colon hcolon whenFalse w _ hw => ?_, trivial⟩, hu⟩
    simpa [Token.leaf?_of_is hquestion, Token.leaf?_of_is hcolon, Symbol.leaf?, Expr.flat] using
      h.three hu hv hw
  | tier t => exact fun left u _ hu e w _ hw => hw u hu
  | unary =>
    refine ⟨fun operator hoperator right w _ hw => ?_, fun e w _ hw => hw⟩
    have hleaf : operator.leaf? = some (.word operator) := by
      rcases Bool.or_eq_true_iff.mp hoperator with hbang | hminus
      · exact Token.leaf?_of_is hbang
      · exact Token.leaf?_of_is hminus
    simpa [hleaf, Expr.flat] using h.two (h.word operator) hw
  | call => exact fun callee u _ hu e w _ hw => hw u hu

theorem Script.tells_ofOperands (c : Context) (t : Tier) (left : Expr) :
    (ofOperands t left).Tells f good R ((Job.operands t left).Told f R c) c [] := by
  refine ⟨fun operator hoperator right w _ hw e v _ hv u hu => ?_, fun u hu => by simpa using hu⟩
  have hjoin := h.three hu (h.word operator) hw
  rw [Context.enter_none, ← Expr.flat_join hoperator] at hjoin
  simpa [(Token.leaf?_of_admits hoperator).1] using hv _ hjoin

theorem Script.tells_ofTrailers (c : Context) (callee : Expr) :
    (ofTrailers callee).Tells f good R ((Job.trailers callee).Told f R c) c [] := by
  refine ⟨fun paren hparen values w _ hw e v _ hv u hu => ?_,
    fun dot hdot => ⟨fun name hname e v _ hv u hu => ?_, trivial⟩, fun u hu => by simpa using hu⟩
  · have hcall := h.two hu hw
    simpa [Token.leaf?_of_is hparen, Symbol.leaf?] using hv _ hcall
  · have hget := h.two hu (h.word name)
    simpa [Token.leaf?_of_is hdot, Symbol.leaf?, Token.leaf?_of_isIdentifier hname] using hv _ hget

theorem Script.tells_ofPrimary (c : Context) :
    ofPrimary.Tells f good R (Job.primary.Told f R c) c [] := by
  refine ⟨fun t ht => ?_, fun t ht => ?_,
    fun paren hparen e w _ hw => ⟨fun paren' hparen' => ?_, trivial⟩,
    fun t ht e w _ hw => ?_, fun _ => trivial, trivial⟩
  · simpa using h.atom ht
  · simp only [Tells]
    split
    · simpa [Token.leaf?_of_is ht, Symbol.leaf?, Expr.flat] using h.word t
    · trivial
  · simpa [Token.leaf?_of_is hparen, Token.leaf?_of_is hparen', Symbol.leaf?] using hw
  · simpa [Token.leaf?_of_is ht, Symbol.leaf?] using hw

theorem Script.tells_ofLambda (c : Context) :
    ofLambda.Tells f good R (Job.lambda.Told f R c) c [] := by
  intro names v _ hv
  refine ⟨fun brace hbrace body w _ ⟨ws, hws, hw⟩ => ?_, fun arrow harrow value w _ hw => ?_,
    trivial⟩
  · have hbody : R w (f.row (Stmt.allFlat f c.enterFunction body)) := hw ▸ h.row hws
    simpa [Token.leaf?_of_is hbrace, Symbol.leaf?, Expr.flat, Routine.flat_block] using
      h.two hv hbody
  · simpa [Token.leaf?_of_is harrow, Symbol.leaf?, Expr.flat, Routine.flat] using h.two hv hw

theorem Script.tells_ofMembers (c : Context) :
    ofMembers.Tells f good R (Job.members.Told f R c) c [] := by
  refine ⟨fun brace hbrace => ⟨[], .nil, ?_⟩,
    fun mark hmark d v _ hv ms w _ ⟨ws, hws, hw⟩ =>
      ⟨(.classWord :: v) :: ws, .cons (h.two h.classWord hv) hws, ?_⟩,
    fun _ d v _ hv ms w _ ⟨ws, hws, hw⟩ => ⟨v :: ws, .cons hv hws, ?_⟩, trivial⟩
  · simp [Token.leaf?_of_is hbrace, Symbol.leaf?]
  · simp [Token.leaf?_of_is hmark, Symbol.leaf?, hw]
  · simp [hw]

theorem Script.tells_ofVariable (c : Context) :
    ofVariable.Tells f good R (Job.variableDefinition.Told f R c) c [] := by
  refine ⟨fun name hname => ⟨fun equal hequal value w _ hw => ⟨fun semicolon hsemicolon => ?_,
    trivial⟩, fun semicolon hsemicolon => ?_, trivial⟩, trivial⟩
  · simpa [Token.leaf?_of_isIdentifier hname, Token.leaf?_of_is hequal,
      Token.leaf?_of_is hsemicolon, Symbol.leaf?, Stmt.flat, Expr.optionFlat]
      using h.two (h.word name) hw
  · simpa [Token.leaf?_of_isIdentifier hname, Token.leaf?_of_is hsemicolon, Symbol.leaf?,
      Stmt.flat, Expr.optionFlat] using h.two (h.word name) h.nil

theorem Script.tells_ofParameterList (c : Context) (count : Nat) :
    (ofParameterList count).Tells f good R ((Job.parameterList count).Told f R c) c [] := by
  refine ⟨fun name hname => ⟨fun comma hcomma names w _ ⟨ws, hws, hw⟩ =>
    ⟨[.word name] :: ws, .cons (h.word name) hws, ?_⟩, fun paren hparen =>
    ⟨[[.word name]], .cons (h.word name) .nil, ?_⟩, trivial⟩, trivial⟩
  · simp [Token.leaf?_of_isIdentifier hname, Token.leaf?_of_is hcomma, Symbol.leaf?,
      Leaf.crowdedFrom, hw]
  · simp [Token.leaf?_of_isIdentifier hname, Token.leaf?_of_is hparen, Symbol.leaf?,
      Leaf.crowdedFrom]

theorem Script.tells_ofJump (c : Context) {keyword : Token}
    (hkeyword : (keyword.is .breakWord || keyword.is .continueWord) = true) :
    (ofJump keyword).Tells f good R (Job.statement.Told f R c) c keyword.leaf?.toList := by
  have hleaf : keyword.leaf? = some (.jump keyword) ∧ keyword.is .returnWord = false := by
    rcases Bool.or_eq_true_iff.mp hkeyword with hword | hword
    · exact ⟨Token.leaf?_of_is hword, by simp [Token.is, Token.is_iff.mp hword]⟩
    · exact ⟨Token.leaf?_of_is hword, by simp [Token.is, Token.is_iff.mp hword]⟩
  refine ⟨fun semicolon hsemicolon => ?_, trivial⟩
  have hjump := h.two (h.jump c keyword) h.nil
  cases hloop : c.inLoop <;>
    simpa [hleaf, Token.leaf?_of_is hsemicolon, Symbol.leaf?, Stmt.flat, Expr.optionFlat,
      Context.misplaced, Context.has, hloop] using hjump

theorem Script.tells_ofReturn (c : Context) {keyword : Token}
    (hkeyword : keyword.is .returnWord = true) :
    (ofReturn keyword).Tells f good R (Job.statement.Told f R c) c keyword.leaf?.toList := by
  intro value w _ hw
  refine ⟨fun semicolon hsemicolon => ?_, trivial⟩
  have hjump := h.two (h.jump c keyword) hw
  cases hfunction : c.inFunction <;>
    simpa [Token.leaf?_of_is hkeyword, Token.leaf?_of_is hsemicolon, Symbol.leaf?, Stmt.flat,
      Context.misplaced, Context.has, hkeyword, hfunction] using hjump

theorem Script.tells_ofStatement (c : Context) :
    ofStatement.Tells f good R (Job.statement.Told f R c) c [] := by
  refine ⟨fun t ht s w _ hw => ?_, fun t ht s w _ hw => ?_, fun t ht s w _ hw => ?_,
    fun keyword hkeyword => tells_ofJump h c hkeyword,
    fun keyword hkeyword => tells_ofReturn h c hkeyword,
    fun brace hbrace body w _ ⟨ws, hws, hw⟩ => ?_,
    fun t ht value w _ hw => ⟨fun semicolon hsemicolon => ?_, trivial⟩, fun t ht => ?_,
    fun s w _ hw => hw⟩
  · simpa [Token.leaf?_of_is ht, Symbol.leaf?] using hw
  · simpa [Token.leaf?_of_is ht, Symbol.leaf?] using hw
  · simpa [Token.leaf?_of_is ht, Symbol.leaf?] using hw
  · simpa [Token.leaf?_of_is hbrace, Symbol.leaf?, Stmt.flat, hw] using h.row hws
  · simpa [Token.leaf?_of_is ht, Token.leaf?_of_is hsemicolon, Symbol.leaf?, Stmt.flat] using hw
  · simpa [Token.leaf?_of_is ht, Symbol.leaf?, Stmt.flat] using h.nil

theorem Script.tells_ofOptional (c : Context) (stop : Symbol) :
    (ofOptional stop).Tells f good R ((Job.optionalExpression stop).Told f R c) c [] := by
  refine ⟨fun t => ?_, fun e w _ hw => hw⟩
  by_cases hstop : t.is stop = true
  · simpa [hstop, Expr.optionFlat] using h.nil
  · simp [hstop, Expr.optionFlat]

theorem Script.tells_ofFor (c : Context) :
    ofFor.Tells f good R (Job.forStatement.Told f R c) c [] := by
  refine ⟨fun paren hparen initial u _ hu condition v _ hv =>
    ⟨fun semicolon hsemicolon step w _ hw =>
      ⟨fun paren' hparen' body x _ hx => ?_, trivial⟩, trivial⟩, trivial⟩
  have hrow := h.row (.cons hu (.cons hv (.cons hw (.cons hx .nil))))
  simpa [Token.leaf?_of_is hparen, Token.leaf?_of_is hsemicolon, Token.leaf?_of_is hparen',
    Symbol.leaf?, Stmt.flat, Context.enter] using hrow

theorem Script.tells_ofForInitial (c : Context) :
    ofForInitial.Tells f good R (Job.forInitial.Told f R c) c [] := by
  refine ⟨fun semicolon hsemicolon => ?_, fun t ht initial w _ hw => ?_, fun initial w _ hw => hw⟩
  · simpa [Token.leaf?_of_is hsemicolon, Symbol.leaf?, Stmt.optionFlat] using h.nil
  · simpa [Token.leaf?_of_is ht, Symbol.leaf?, Stmt.optionFlat] using hw

theorem Script.tells_ofIf (c : Context) :
    ofIf.Tells f good R (Job.ifStatement.Told f R c) c [] := by
  refine ⟨fun paren hparen condition u _ hu => ⟨fun paren' hparen' whenTrue v _ hv =>
    ⟨fun t ht whenFalse w _ hw => ?_, ?_⟩, trivial⟩, trivial⟩
  · simpa [Token.leaf?_of_is hparen, Token.leaf?_of_is hparen', Token.leaf?_of_is ht,
      Symbol.leaf?, Stmt.flat, Stmt.optionFlat] using h.three hu hv hw
  · simpa [Token.leaf?_of_is hparen, Token.leaf?_of_is hparen', Symbol.leaf?, Stmt.flat,
      Stmt.optionFlat] using h.three hu hv h.nil

theorem Script.tells_ofWhile (c : Context) :
    ofWhile.Tells f good R (Job.whileStatement.Told f R c) c [] := by
  refine ⟨fun paren hparen condition v _ hv =>
    ⟨fun paren' hparen' body w _ hw => ?_, trivial⟩, trivial⟩
  simpa [Token.leaf?_of_is hparen, Token.leaf?_of_is hparen', Symbol.leaf?, Stmt.flat,
    Context.enter] using h.two hv hw

/-- **Every job tells what it passes.** -/
theorem Job.tells (c : Context) (j : Job) : j.script.Tells f good R (j.Told f R c) c [] := by
  cases j with
  | expression l => exact Script.tells_ofLevel h c l
  | operands t left => exact Script.tells_ofOperands h c t left
  | trailers callee => exact Script.tells_ofTrailers h c callee
  | arguments =>
    refine ⟨fun paren hparen => ?_, ?_⟩
    · simpa [Token.leaf?_of_is hparen, Symbol.leaf?, Expr.allFlat, Leaf.crowded] using
        h.list .tooManyArguments .nil
    · rintro es w - ⟨ws, hws, hw⟩
      simpa [hw, Leaf.crowdedFrom_zero] using h.list .tooManyArguments hws
  | argumentList count => exact Script.tells_ofArgumentList c count
  | primary => exact Script.tells_ofPrimary h c
  | lambda => exact Script.tells_ofLambda h c
  | parameters =>
    refine ⟨fun paren hparen => ⟨fun paren' hparen' => ?_, ?_⟩, trivial⟩
    · simpa [Token.leaf?_of_is hparen, Token.leaf?_of_is hparen', Symbol.leaf?, Leaf.crowded] using
        h.list .tooManyParameters .nil
    · rintro names w - ⟨ws, hws, hw⟩
      simpa [Token.leaf?_of_is hparen, Symbol.leaf?, hw, Leaf.crowdedFrom_zero] using
        h.list .tooManyParameters hws
  | parameterList count => exact Script.tells_ofParameterList h c count
  | block => exact Script.tells_ofBlock c
  | declaration =>
    refine ⟨fun t ht s w _ hw => ?_, fun t ht d w _ hw => ?_, fun t ht s w _ hw => ?_,
      fun s w _ hw => hw⟩
    · simpa [Token.leaf?_of_is ht, Symbol.leaf?] using hw
    · simpa [Token.leaf?_of_is ht, Symbol.leaf?, Stmt.flat] using hw
    · simpa [Token.leaf?_of_is ht, Symbol.leaf?] using hw
  | classDefinition =>
    refine ⟨fun name hname => ⟨fun brace hbrace => ?_, trivial⟩, trivial⟩
    rintro ms w hms ⟨ws, hws, hw⟩
    have hmembers := h.members hms hws
    simpa [Token.leaf?_of_isIdentifier hname, Token.leaf?_of_is hbrace, Symbol.leaf?, Stmt.flat,
      Definition.allFlat_eq_map, Context.enter, Function.comp_def, hw] using
      h.three h.classWord (h.word name) hmembers
  | members => exact Script.tells_ofMembers h c
  | definition =>
    refine ⟨fun name hname names v _ hv => ⟨fun brace hbrace => ?_, trivial⟩, trivial⟩
    rintro body w - ⟨ws, hws, hw⟩
    have hbody : R w (f.row (Stmt.allFlat f c.enterFunction body)) := hw ▸ h.row hws
    simpa [Token.leaf?_of_isIdentifier hname, Token.leaf?_of_is hbrace, Symbol.leaf?,
      Definition.flat, Routine.flat_block] using h.two (h.word name) (h.two hv hbody)
  | variableDefinition => exact Script.tells_ofVariable h c
  | statement => exact Script.tells_ofStatement h c
  | expressionStatement =>
    refine fun value w _ hw => ⟨fun semicolon hsemicolon => ?_, trivial⟩
    simpa [Token.leaf?_of_is hsemicolon, Symbol.leaf?, Stmt.flat] using hw
  | optionalExpression stop => exact Script.tells_ofOptional h c stop
  | forStatement => exact Script.tells_ofFor h c
  | forInitial => exact Script.tells_ofForInitial h c
  | ifStatement => exact Script.tells_ofIf h c
  | whileStatement => exact Script.tells_ofWhile h c

end

/-! ### Transcripts -/

/-- The leaves, in the order of the text, of the tokens passed and of the mistakes noted. -/
structure Leaf.Retells (passed : List Token) (reports : List GrammarError) (w : List Leaf) :
    Prop where
  /-- What trees keep of the tokens. -/
  kept : (w.filter fun l => l.flaw?.isNone) = passed.filterMap Token.leaf?
  /-- The mistakes. -/
  flaws : w.filterMap Leaf.flaw? = reports.map GrammarError.mistake

namespace Leaf.Retells

variable {passed passed' : List Token} {reports reports' : List GrammarError} {w w' : List Leaf}

theorem nil : Retells [] [] [] :=
  ⟨rfl, rfl⟩

theorem append (h : Retells passed reports w) (h' : Retells passed' reports' w') :
    Retells (passed ++ passed') (reports ++ reports') (w ++ w') :=
  ⟨by rw [List.filter_append, List.filterMap_append, h.kept, h'.kept],
    by rw [List.filterMap_append, List.map_append, h.flaws, h'.flaws]⟩

theorem token (t : Token) : Retells [t] [] t.leaf?.toList := by
  obtain ⟨kind, lexeme, line⟩ := t
  cases kind with
  | symbol x => cases x <;> exact ⟨rfl, rfl⟩
  | _ => exact ⟨rfl, rfl⟩

theorem report (reason : Bool) (line : Nat) (mistake : Mistake) :
    Retells [] (if reason then [⟨line, mistake⟩] else [])
      (if reason then [.flaw mistake] else []) := by
  cases reason <;> exact ⟨rfl, rfl⟩

end Leaf.Retells

namespace Script

variable {α : Type} {p p' q : Script α} {d d' d'' : Desk} {ts : List Token}

theorem Comes.head (hstep : p.Goes d p' d') (h : p'.Comes d' q d'') : p.Comes d q d'' := by
  induction h with
  | here => exact .step .here hstep
  | step _ hstep' ih => exact .step ih hstep'

/-- The parts that a script begins are begun while a list of tokens is read. -/
def BeginsIn (ts : List Token) (p : Script α) (d : Desk) : Prop :=
  ∀ a j (rest : j.Result → Script α) d', p.Comes d (.start a j rest) d' →
    Parsing.Begins ts j (d'.enter a)

theorem BeginsIn.step (h : p.BeginsIn ts d) (hstep : p.Goes d p' d') : p'.BeginsIn ts d' :=
  fun a j rest d'' hcomes => h a j rest d'' (hcomes.head hstep)

end Script

theorem Desk.Shows.goes_absent {α : Type} {p : Token → Bool} {found : Token → Script α}
    {absent : Script α} {d : Desk} {c : Context} {s : Cursor} (h : d.Shows c s)
    (hs : ∀ t ∈ s.rest.head?, p t = false) : (Script.take p found absent).Goes d absent d := by
  cases hrest : s.rest with
  | nil =>
    obtain ⟨eof, hpeek, heof, -⟩ := h.peek_of_nil hrest
    exact .absent hpeek (by rw [heof]; rfl)
  | cons t ts =>
    have hp : p t = false := hs t (by simp [hrest])
    exact .absent (h.peek_of_cons hrest).1 (by rw [hp, Bool.and_false])

theorem Parsing.Begins.beginsIn {ts : List Token} {j : Job} {d : Desk} (h : Begins ts j d) :
    j.script.BeginsIn ts d :=
  fun _ _ _ _ hcomes => h.part (.part hcomes)

/-- The class bodies that are read in a list of tokens are as they are to be. -/
def Parsing.ClassBodies (good : List Member → Prop) (ts : List Token) : Prop :=
  ∀ d ms d', Begins ts .members d → Job.members.perform d = some (.read ms d') → good ms

/-- No statement at the top level is abandoned. -/
def Parsing.Unbroken (ts : List Token) : Prop :=
  ∀ p, (start ts).Reaches p → p.atEnd = some false →
    ∃ stmt d, Job.declaration.perform p.desk = some (.read stmt d)

/-! ### When programs are retold -/

/-- What was read, if anything was. -/
def Readout.value? {α : Type} : Readout α → Option α
  | read value _ _ => some value
  | broken .. => none

theorem Readout.value?_eq_some {α : Type} {r : Readout α} {x : α} (h : r.value? = some x) :
    ∃ s reports, r = .read x s reports := by
  cases r with
  | read y s reports =>
    cases h
    exact ⟨s, reports, rfl⟩
  | broken => cases h

theorem Job.perform_of_value? {j : Job} {d : Desk} {c : Context} {s : Cursor} {x : j.Result}
    (hd : d.Shows c s) (h : (j.read c s).value? = some x) :
    ∃ d', j.perform d = some (.read x d') := by
  obtain ⟨s', reports, hr⟩ := Readout.value?_eq_some h
  have hperform := j.perform_eq hd
  rw [hr] at hperform
  exact ⟨_, hperform⟩

namespace Cursor

theorem size_iterate_skip (s : Cursor) (k : Nat) : (skip^[k] s).size = s.size - k := by
  induction k with
  | zero => rfl
  | succ k ih =>
    rw [Function.iterate_succ_apply', size_skip, ih]
    omega

/-- Cursors behind a cursor are found by passing one token after the other. -/
theorem Moves.exists_iterate {s s' : Cursor} (h : s.Moves s') :
    ∃ k ≤ s.size, s' = skip^[k] s := by
  induction h with
  | refl => exact ⟨0, Nat.zero_le _, rfl⟩
  | @tail s₁ s₂ _ hs₂ ih =>
    obtain ⟨k, hk, rfl⟩ := ih
    subst hs₂
    cases hrest : (skip^[k] s).rest with
    | nil => exact ⟨k, hk, by rw [skip, hrest]⟩
    | cons t ts =>
      have hlt := Script.size_skip_lt hrest
      have hsize := s.size_iterate_skip k
      exact ⟨k + 1, by omega, (Function.iterate_succ_apply' skip k s).symm⟩

end Cursor

namespace Parsing

variable {good : List Member → Prop} {ts : List Token}

/-- The class bodies are as they are to be if whatever can be read as one is, at any place. -/
theorem classBodies_of_places (h : ∀ k ≤ (Cursor.ofTokens ts).size, ∀ c,
    ∀ ms ∈ (Job.members.read c (Cursor.skip^[k] (.ofTokens ts))).value?, good ms) :
    ClassBodies good ts := by
  intro d ms d' hbegins hperform
  obtain ⟨c, s, hd, hfollows⟩ := hbegins.placed
  obtain ⟨k, hk, rfl⟩ := hfollows.moves.exists_iterate
  refine h k hk c ms ?_
  rw [Job.members.perform_eq hd, Option.some_inj] at hperform
  cases hr : Job.members.read c (Cursor.skip^[k] (.ofTokens ts)) with
  | read y s' reports =>
    rw [hr] at hperform
    cases hperform
    rfl
  | broken e s' reports =>
    rw [hr] at hperform
    cases hperform

/-- Where no mistake is noted, no statement is abandoned. -/
theorem unbroken_of_errors_eq_nil (h : (Parsed.ofTokens ts).errors = []) : Unbroken ts := by
  intro p hp hleft
  obtain ⟨s, program, errors, hat, -, -, heq⟩ := hp.at (at_start ts)
  rw [Parsed.ofTokens, heq] at h
  obtain ⟨-, herrors⟩ := List.append_eq_nil_iff.mp h
  cases hs : s.rest with
  | nil => cases hleft.symm.trans (hat.atEnd_of_nil hs)
  | cons t ts' =>
    cases hr : Job.declaration.read .outermost s with
    | read stmt s' reports =>
      obtain ⟨d', hd'⟩ := Job.perform_of_value? hat.shows (j := .declaration) (by rw [hr]; rfl)
      exact ⟨stmt, d', hd'⟩
    | broken e s' reports =>
      rw [Parsed.ofCursor_of_broken hs hr] at herrors
      simp [Parsed.prepend] at herrors

end Parsing

section

variable {M : Type} {f : Flattening M} {good : List Member → Prop} {R : List Leaf → M → Prop}
variable {α : Type} {told : α → List Leaf → Prop} {ts : List Token}

/-- What a job read that is begun in a list of tokens is as it is to be. -/
theorem Job.allows (hbodies : Parsing.ClassBodies good ts) {c : Context} {s s' : Cursor} {d : Desk}
    {j : Job} {x : j.Result} {reports : List GrammarError} (hd : d.Shows c s)
    (hbegins : Parsing.Begins ts j d) (hread : j.read c s = .read x s' reports) :
    j.Allows good x := by
  have hperform := j.perform_eq hd
  rw [hread] at hperform
  cases j with
  | members => exact hbodies d x _ hbegins hperform
  | _ => trivial

/-- **Readings are retold.** What a script reads that tells what it passes is as demanded. -/
theorem Script.Yields.retold (h : f.Accounts good R) (hbodies : Parsing.ClassBodies good ts)
    {n : Nat} {c : Context} {p : Script α} {s : Cursor} {r : Readout α} (hyields : Yields n c p s r)
    {d : Desk} (hd : d.Shows c s) (hbegins : p.BeginsIn ts d) {u : List Leaf}
    (htells : p.Tells f good R told c u) {x : α} {s' : Cursor} {reports : List GrammarError}
    (hr : r = .read x s' reports) :
    ∃ passed w, s.rest = passed ++ s'.rest ∧ Leaf.Retells passed reports w ∧ told x (u ++ w) := by
  induction hyields generalizing d u s' reports with
  | done =>
    cases hr
    exact ⟨[], [], rfl, .nil, by rwa [List.append_nil]⟩
  | @found n c α p found absent s t ts' r hs ht _ ih =>
    obtain ⟨hpeek, hplain⟩ := hd.peek_of_cons hs
    obtain ⟨passed, w, hpassed, hw, hx⟩ :=
      ih (hd.advance hs) (hbegins.step (.found hpeek hplain ht)) (htells.1 t ht) hr
    refine ⟨t :: passed, t.leaf?.toList ++ w, ?_, (Leaf.Retells.token t).append hw, ?_⟩
    · rw [Cursor.skip, hs] at hpassed
      rw [hs, List.cons_append, ← hpassed]
    · rwa [← List.append_assoc]
  | absent hs _ ih => exact ih hd (hbegins.step (hd.goes_absent hs)) htells.2 hr
  | look hs _ ih =>
    obtain ⟨hpeek, hplain⟩ := hd.peek_of_cons hs
    exact ih hd (hbegins.step (.look hpeek hplain)) (htells.1 _) hr
  | stop hs _ ih =>
    obtain ⟨eof, hpeek, heof, -⟩ := hd.peek_of_nil hs
    exact ih hd (hbegins.step (.stop hpeek heof)) htells.2 hr
  | @report n c α reason spot mistake rest s r _ ih =>
    cases r with
    | broken e s' reports => cases hr
    | read y s₁ own =>
      cases hr
      obtain ⟨passed, w, hpassed, hw, hx⟩ := ih (hd.moved_zero _)
        (hbegins.step (.report (hd.report reason spot mistake))) htells rfl
      exact ⟨passed, _, hpassed, (Leaf.Retells.report reason (spot.line s) mistake).append hw,
        by rwa [← List.append_assoc]⟩
  | fail => cases hr
  | ask _ ih =>
    have hstep := hbegins.step .ask
    rw [Desk.inside_eq, hd.context] at hstep
    exact ih hd hstep htells hr
  | @read n c α a j rest s s₁ y reports₁ r hn hj hrest ihj ih =>
    have hread : j.read (c.enter a) s = .read y s₁ reports₁ := by
      rw [j.read_eq, ← hj.eq_follow]
    have hperform := j.perform_eq (hd.enter a)
    rw [hread] at hperform
    have hbegins' := hbegins a j rest d .here
    obtain ⟨passed, w, hpassed, hw, hy⟩ :=
      ihj (hd.enter a) hbegins'.beginsIn (Job.tells h (c.enter a) j) rfl
    cases r with
    | broken e s' reports => cases hr
    | read z s₂ own =>
      cases hr
      have hm : s.Moves s₁ := hj.moves
      have hstep := hbegins.step (.back hperform (Desk.leave_moved_enter d a _ _))
      obtain ⟨passed', w', hpassed', hw', hx⟩ := ih (hd.moved hm reports₁) hstep
        (htells y w (Job.allows hbodies (hd.enter a) hbegins' hread) hy) rfl
      refine ⟨passed ++ passed', w ++ w', ?_, hw.append hw', ?_⟩
      · rw [hpassed, hpassed', List.append_assoc]
      · rwa [← List.append_assoc]
  | broken => cases hr

namespace Parsing

/-- From where reading stands the rest of a program is retold. -/
theorem At.retold (h : f.Accounts good R) (hbodies : ClassBodies good ts) (hunbroken : Unbroken ts)
    {p : Parsing} (hp : (start ts).Reaches p) {s : Cursor} (hat : p.At s) :
    ∃ ws, List.Forall₂ R ws (Stmt.allFlat f .outermost (Parsed.ofCursor s).program) ∧
      Leaf.Retells s.rest (Parsed.ofCursor s).errors ws.flatten := by
  cases hs : s.rest with
  | nil =>
    rw [Parsed.ofCursor_of_nil hs]
    exact ⟨[], .nil, .nil⟩
  | cons t ts' =>
    have hleft := hat.atEnd_of_cons hs
    obtain ⟨stmt, d, hperform⟩ := hunbroken p hp hleft
    rw [Job.declaration.perform_eq hat.shows, Option.some_inj] at hperform
    cases hr : Job.declaration.read .outermost s with
    | broken e s' reports =>
      rw [hr] at hperform
      cases hperform
    | read stmt s' reports =>
      obtain ⟨hround, hat'⟩ := hat.round_of_read hr
      have hlt := Job.size_lt_of_read hr
      have hyields := hr ▸ Job.declaration.yields .outermost s
      obtain ⟨passed, w, hpassed, hw, hstmt⟩ := hyields.retold h hbodies hat.shows
        (Begins.round hp hleft).beginsIn (Job.tells h .outermost .declaration) rfl
      obtain ⟨ws, hws, hretells⟩ := At.retold h hbodies hunbroken
        (hp.tail ⟨hleft, hround⟩) hat'
      rw [Parsed.ofCursor_of_read hr, ← hs, hpassed]
      exact ⟨w :: ws, .cons hstmt hws, hw.append hretells⟩
termination_by s.size

/-- **Programs are retold.** If no statement is abandoned and the class bodies are as they are to
be, then what a flattening that accounts for readings makes of the program is as demanded of its
tokens, in order, with the mistakes noted among them. -/
theorem retold (h : f.Accounts good R) (hbodies : ClassBodies good ts) (hunbroken : Unbroken ts) :
    ∃ w, R w (f.row (Stmt.allFlat f .outermost (Parsed.ofTokens ts).program)) ∧
      Leaf.Retells (ts.takeWhile fun t => !t.kind.isEof) (Parsed.ofTokens ts).errors w := by
  obtain ⟨ws, hws, hretells⟩ := (at_start ts).retold h hbodies hunbroken .refl
  exact ⟨ws.flatten, h.row hws, hretells⟩

end Parsing

end

end Lox
