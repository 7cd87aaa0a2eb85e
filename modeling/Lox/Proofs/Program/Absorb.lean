import Lox.Proofs.Program.Phrase

/-!
# What a phrase takes in

The grammar lets an expression go on behind any operand, and an `else` stand behind any `if`; a
greedy phrase takes them in itself. So a phrase with something behind it that may go on is a phrase
again, if of another tree: the body of the arrow at its end takes in an operator with its operand,
the branches of a conditional, or a trailer, and the `if` without `else` at its end an `else`.

Main statements:

* `Phrase.absorb` — an expression takes in what goes on with it;
* `Phrase.absorb_else` — a greedy statement takes in an `else` with its branch.
-/

namespace Lox

/-! ### Expressions -/

/-- What goes on with an expression of a level, in a context. -/
inductive Suffix (c : Context) : Level → List Token → Prop where
  | operator {t : Tier} {e : Ending} {us : List Token} {op : Token} {y : Expr}
      (hop : t.admits op = true) (hy : Phrase c (.expression t.tighter) e us y) :
      Suffix c (.tier t) (op :: us)
  | conditional {e₁ e : Ending} {us vs : List Token} {op colon : Token} {y z : Expr}
      (hop : op.kind = .symbol .question) (hy : Phrase c (.expression .conditional) e₁ us y)
      (hcolon : colon.kind = .symbol .colon) (hz : Phrase c (.expression .conditional) e vs z) :
      Suffix c .conditional (op :: (us ++ colon :: vs))
  | call {us : List Token} {paren : Token} {xs : List Expr}
      (hparen : paren.kind = .symbol .leftParen) (hxs : Phrase c .arguments .closed us xs) :
      Suffix c .call (paren :: us)
  | member {dot name : Token} (hdot : dot.kind = .symbol .dot) (hname : name.kind = .identifier) :
      Suffix c .call [dot, name]

variable {c : Context} {e : Ending} {l w : Level} {ts ws : List Token} {x : Expr}

/-- Nothing goes on with an assignment or a comma alone. -/
theorem Suffix.rank_lt (h : Suffix c w ws) : Level.assignment.rank < w.rank := by
  cases h with
  | @operator t => cases t <;> decide
  | conditional | call | member => decide

/-- There is a phrase of a level with the tokens. -/
def Spells (c : Context) (l : Level) (ts : List Token) : Prop :=
  ∃ e x, Phrase c (.expression l) e ts x

theorem Spells.lift {l' : Level} (hl : l.tighter? = some l') (h : Spells c l' ts) :
    Spells c l ts := by
  obtain ⟨e, x, h⟩ := h
  exact ⟨e, x, .lift hl h⟩

/-- Whatever can be assigned a value can be assigned any. -/
theorem Expr.assigned?_of_assigned? {v y : Expr} (h : x.assigned? v = some y) (v' : Expr) :
    ∃ y', x.assigned? v' = some y' := by
  obtain ⟨t, rfl, hkind, -⟩ | ⟨object, member, rfl, -⟩ := assigned?_eq_some.mp h
  · exact ⟨_, assigned?_eq_some.mpr (.inl ⟨t, rfl, hkind, rfl⟩)⟩
  · exact ⟨_, rfl⟩

/-- A closed operand of a tier takes in a further operand. -/
theorem Suffix.extend_tier {t : Tier} (hw : Suffix c (.tier t) ws)
    (h : Phrase c (.expression (.tier t)) .closed ts x) : Spells c (.tier t) (ts ++ ws) := by
  cases hw with
  | operator hop hy => exact ⟨_, _, .operator h hop hy⟩

/-- A closed operand takes in what goes on with its level. -/
theorem Suffix.extend (hw : Suffix c w ws) {l' : Level} (hl : w.tighter? = some l')
    (h : Phrase c (.expression l') .closed ts x) : Spells c w (ts ++ ws) := by
  cases hw with
  | operator hop hy =>
    cases hl
    exact Suffix.extend_tier (.operator hop hy) (.lift rfl h)
  | conditional hop hy hcolon hz =>
    cases hl
    exact ⟨_, _, .conditional h hop hy hcolon hz⟩
  | call | member => exact nomatch hl

/-- A closed call takes in a trailer. -/
theorem Suffix.extend_call (hw : Suffix c w ws) (hrank : Level.call.rank ≤ w.rank)
    (h : Phrase c (.expression .call) .closed ts x) : Spells c .call (ts ++ ws) := by
  cases hw with
  | @operator t => cases t <;> exact absurd hrank (by decide)
  | conditional => exact absurd hrank (by decide)
  | call hparen hxs => exact ⟨_, _, .call h hparen hxs⟩
  | member hdot hname => exact ⟨_, _, .member h hdot hname⟩

/-- What is shown of a phrase of a part: an expression takes in what goes on with its level or one
above, and a greedy one whatever goes on. -/
def Part.Absorbs (c : Context) (e : Ending) (ts : List Token) : Part → Prop
  | .expression l => ∀ w ws, Suffix c w ws → (e = .closed → l.rank ≤ w.rank) →
      Spells c l (ts ++ ws)
  | .primary => ∀ w ws, Suffix c w ws → e = .greedy →
      ∃ x, Phrase c .primary .greedy (ts ++ ws) x
  | _ => True

/-- **An expression takes in what goes on with it.** -/
theorem Phrase.absorb {c : Context} {p : Part} {e : Ending} {ts : List Token} {x : p.Result}
    (h : Phrase c p e ts x) : p.Absorbs c e ts := by
  induction h with
  | @lift c l l' e ts x hl hx ih =>
    intro w ws hw hrank
    by_cases hlt : e = .closed ∧ l = w
    · -- The suffix goes on at this very level.
      obtain ⟨rfl, rfl⟩ := hlt
      exact hw.extend hl hx
    -- It goes on at a level above, or the phrase is greedy and its last part takes it in.
    · refine (ih w ws hw fun he => ?_).lift hl
      have hle := hrank he
      have hne : l.rank ≠ w.rank := fun heq => hlt ⟨he, Level.eq_of_rank_eq heq⟩
      rw [Level.rank_of_tighter? hl]
      omega
  | comma hx hop hy ihx ihy =>
    intro w ws hw hrank
    obtain ⟨e', y', hy'⟩ := ihy w ws hw fun _ => Nat.zero_le _
    rw [List.append_assoc]
    exact ⟨e', _, .comma hx hop hy'⟩
  | assign hx hop hv hy ihx ihv =>
    intro w ws hw hrank
    -- The value takes it in, and what can be assigned to can be assigned the new value.
    obtain ⟨e', v', hv'⟩ := ihv w ws hw fun _ => Nat.le_of_lt hw.rank_lt
    obtain ⟨y', hy'⟩ := Expr.assigned?_of_assigned? hy v'
    rw [List.append_assoc]
    exact ⟨e', y', .assign hx hop hv' hy'⟩
  | conditional hx hop hy hcolon hz ihx ihy ihz =>
    intro w ws hw hrank
    obtain ⟨e', z', hz'⟩ := ihz w ws hw hrank
    simp only [List.append_assoc, List.cons_append]
    exact ⟨e', _, .conditional hx hop hy hcolon hz'⟩
  | @operator c t e ts us op x y hx hop hy ihx ihy =>
    intro w ws hw hrank
    by_cases hlt : e = .closed ∧ .tier t = w
    · obtain ⟨rfl, rfl⟩ := hlt
      exact hw.extend_tier (.operator hx hop hy)
    · have hle : e = .closed → t.tighter.rank ≤ w.rank := by
        intro he
        have hle := hrank he
        have hne : (Level.tier t).rank ≠ w.rank := fun heq => hlt ⟨he, Level.eq_of_rank_eq heq⟩
        have hsucc : t.tighter.rank = (Level.tier t).rank + 1 := Level.rank_of_tighter? rfl
        omega
      obtain ⟨e', y', hy'⟩ := ihy w ws hw hle
      rw [List.append_assoc]
      exact ⟨e', _, .operator hx hop hy'⟩
  | unary hop hx ih =>
    intro w ws hw hrank
    obtain ⟨e', x', hx'⟩ := ih w ws hw hrank
    exact ⟨e', _, .unary hop hx'⟩
  | @callee c e ts x hx ih =>
    intro w ws hw hrank
    cases e with
    | closed => exact hw.extend_call (hrank rfl) (.callee hx)
    | greedy =>
      obtain ⟨x', hx'⟩ := ih w ws hw rfl
      exact ⟨.greedy, x', .callee hx'⟩
  | call hf hparen hxs ihf ihxs =>
    intro w ws hw hrank
    exact hw.extend_call (hrank rfl) (.call hf hparen hxs)
  | member hx hdot hname ih =>
    intro w ws hw hrank
    exact hw.extend_call (hrank rfl) (.member hx hdot hname)
  | arrow hword hps harrow hx ih =>
    intro w ws hw he
    -- The body of an arrow is an assignment, and nothing that goes on binds less.
    obtain ⟨e', x', hx'⟩ := ih w ws hw fun _ => Nat.le_of_lt hw.rank_lt
    simp only [List.append_assoc, List.cons_append]
    exact ⟨_, .arrow hword hps harrow hx'⟩
  | literal | name | this | paren | lambda =>
    intro w ws hw he
    exact nomatch he
  | _ => trivial

/-! ### Statements -/

/-- All that may stand in a context may stand in the other. -/
structure Context.Within (c c' : Context) : Prop where
  inLoop : c.inLoop = true → c'.inLoop = true
  inFunction : c.inFunction = true → c'.inFunction = true
  inClass : c.inClass = true → c'.inClass = true

namespace Context.Within

variable {c c' : Context}

theorem enterLoop_self (c : Context) : c.Within c.enterLoop :=
  ⟨fun _ => rfl, fun h => h, fun h => h⟩

theorem enterLoop (h : c.Within c') : c.enterLoop.Within c'.enterLoop :=
  ⟨fun _ => rfl, h.inFunction, h.inClass⟩

theorem enterFunction (h : c.Within c') : c.enterFunction.Within c'.enterFunction :=
  ⟨nofun, fun _ => rfl, h.inClass⟩

theorem enterClass (h : c.Within c') : c.enterClass.Within c'.enterClass :=
  ⟨h.inLoop, h.inFunction, fun _ => rfl⟩

end Context.Within

/-- A phrase of a context is one of every context in which at least as much may stand. -/
theorem Phrase.weaken {c c' : Context} {p : Part} {e : Ending} {ts : List Token} {x : p.Result}
    (h : Phrase c p e ts x) (hc : c.Within c') : Phrase c' p e ts x := by
  induction h generalizing c' with
  | lift hl hx ih => exact .lift hl (ih hc)
  | comma hx hop hy ihx ihy => exact .comma (ihx hc) hop (ihy hc)
  | assign hx hop hv hy ihx ihv => exact .assign (ihx hc) hop (ihv hc) hy
  | conditional hx hop hy hcolon hz ihx ihy ihz =>
    exact .conditional (ihx hc) hop (ihy hc) hcolon (ihz hc)
  | operator hx hop hy ihx ihy => exact .operator (ihx hc) hop (ihy hc)
  | unary hop hx ih => exact .unary hop (ih hc)
  | callee hx ih => exact .callee (ih hc)
  | call hf hparen hxs ihf ihxs => exact .call (ihf hc) hparen (ihxs hc)
  | member hx hdot hname ih => exact .member (ih hc) hdot hname
  | literal ht => exact .literal ht
  | name ht => exact .name ht
  | this ht hclass => exact .this ht (hc.inClass hclass)
  | paren hopen hx hclose ih => exact .paren hopen (ih hc) hclose
  | lambda hword hps hbrace hbody ih => exact .lambda hword hps hbrace (ih hc.enterFunction)
  | arrow hword hps harrow hx ih => exact .arrow hword hps harrow (ih hc)
  | noArguments hclose => exact .noArguments hclose
  | someArguments hxs hle ih => exact .someArguments (ih hc) hle
  | lastArgument hx hclose ih => exact .lastArgument (ih hc) hclose
  | moreArguments hx hcomma hxs ihx ihxs => exact .moreArguments (ihx hc) hcomma (ihxs hc)
  | absent => exact .absent
  | present hx ih => exact .present (ih hc)
  | blockEnd hclose => exact .blockEnd hclose
  | blockMore hx hxs ihx ihxs => exact .blockMore (ihx hc) (ihxs hc)
  | classDefinition hword hname hbrace hms ih =>
    exact .classDefinition hword hname hbrace (ih hc.enterClass)
  | function hword hd ih => exact .function hword (ih hc)
  | declare hword hx ih => exact .declare hword (ih hc)
  | statement hx hfun ih => exact .statement (ih hc) hfun
  | membersEnd hclose => exact .membersEnd hclose
  | method hd hms ihd ihms => exact .method (ihd hc) (ihms hc)
  | classMethod hword hd hms ihd ihms => exact .classMethod hword (ihd hc) (ihms hc)
  | definition hname hps hbrace hbody ih => exact .definition hname hps hbrace (ih hc.enterFunction)
  | noValue hname hclose => exact .noValue hname hclose
  | value hname hequal hx hclose ih => exact .value hname hequal (ih hc) hclose
  | expression hx hclose ih => exact .expression (ih hc) hclose
  | print hword hx hclose ih => exact .print hword (ih hc) hclose
  | branch hword hopen hx hclose hy ihx ihy => exact .branch hword hopen (ihx hc) hclose (ihy hc)
  | branchElse hword hopen hx hclose hy hother hz ihx ihy ihz =>
    exact .branchElse hword hopen (ihx hc) hclose (ihy hc) hother (ihz hc)
  | whileLoop hword hopen hx hclose hy ihx ihy =>
    exact .whileLoop hword hopen (ihx hc) hclose (ihy hc.enterLoop)
  | forLoop hword hopen hx hy hsemicolon hz hclose hbody ihx ihy ihz ihbody =>
    exact .forLoop hword hopen (ihx hc) (ihy hc) hsemicolon (ihz hc) hclose (ihbody hc.enterLoop)
  | jump hword hloop hclose => exact .jump hword (hc.inLoop hloop) hclose
  | giveBack hword hfunction hx hclose ih =>
    exact .giveBack hword (hc.inFunction hfunction) (ih hc) hclose
  | block hbrace hbody ih => exact .block hbrace (ih hc)
  | empty hclose => exact .empty hclose
  | noInitial hclose => exact .noInitial hclose
  | initialVariable hword hx ih => exact .initialVariable hword (ih hc)
  | initialExpression hx hclose ih => exact .initialExpression (ih hc) hclose
  | programEnd => exact .programEnd
  | programMore hx hxs ihx ihxs => exact .programMore (ihx hc) (ihxs hc)

/-- What is shown of a phrase of a part: a greedy statement takes in an `else` with its branch. -/
def Part.AbsorbsElse (c : Context) (e : Ending) (ts : List Token) : Part → Prop
  | .statement => e = .greedy → ∀ e₁ (other : Token) us y, other.kind = .symbol .elseWord →
      Phrase c .statement e₁ us y → ∃ e₂ z, Phrase c .statement e₂ (ts ++ other :: us) z
  | _ => True

/-- **A greedy statement takes in an `else` with its branch.** -/
theorem Phrase.absorb_else {c : Context} {p : Part} {e : Ending} {ts : List Token} {x : p.Result}
    (h : Phrase c p e ts x) : p.AbsorbsElse c e ts := by
  induction h with
  | @branch c e₁ e ts us word opening close x y hword hopen hx hclose hy ihx ihy =>
    intro he e₂ other vs z hother hz
    simp only [List.append_assoc, List.cons_append]
    cases e with
    | closed => exact ⟨_, _, .branchElse hword hopen hx hclose hy hother hz⟩
    | greedy =>
      obtain ⟨e₃, y', hy'⟩ := ihy rfl e₂ other vs z hother hz
      exact ⟨_, _, .branch hword hopen hx hclose hy'⟩
  | branchElse hword hopen hx hclose hy hother hz ihx ihy ihz =>
    intro he e₂ other us z' hother' hz'
    obtain ⟨e₃, w, hw⟩ := ihz he e₂ other us z' hother' hz'
    simp only [List.append_assoc, List.cons_append]
    exact ⟨_, _, .branchElse hword hopen hx hclose hy hother hw⟩
  | whileLoop hword hopen hx hclose hy ihx ihy =>
    intro he e₂ other us z hother hz
    -- The `else` was read outside of the loop, where less may stand than inside.
    obtain ⟨e₃, w, hw⟩ := ihy he e₂ other us z hother (hz.weaken (.enterLoop_self _))
    simp only [List.append_assoc, List.cons_append]
    exact ⟨_, _, .whileLoop hword hopen hx hclose hw⟩
  | forLoop hword hopen hx hy hsemicolon hz hclose hbody ihx ihy ihz ihbody =>
    intro he e₂ other us z' hother hz'
    obtain ⟨e₃, w, hw⟩ := ihbody he e₂ other us z' hother (hz'.weaken (.enterLoop_self _))
    simp only [List.append_assoc, List.cons_append]
    exact ⟨_, _, .forLoop hword hopen hx hy hsemicolon hz hclose hw⟩
  | expression | print | jump | giveBack | block | empty =>
    intro he
    exact nomatch he
  | _ => trivial

end Lox
