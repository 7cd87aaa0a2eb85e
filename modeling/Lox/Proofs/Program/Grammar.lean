import Lox.Program.OfTokens

/-!
# The grammar

The grammar of the language as a table of productions, and the lists of tokens that can be derived
from it. The rules on where a jump, a `this` or a long list may stand are part of the productions: a
part of a production may be derived in a context of its own, may be bound to a context, and may be
repeated up to a number of times.

There are two versions. The grammar as it is **documented** leaves two things open that a reader has
to decide, and is stricter in a third; the **enforced** one says how they are decided.

* A statement in the place of a declaration does not begin with `fun`, which announces a function
  with a name.
* A target of an assignment may stand in parentheses.
* The body of an arrow takes in what follows it, so that a member to assign to is not a member of a
  function whose body follows an arrow.

Main definitions:

* `Rhs`, `production` — right-hand sides, and the productions of a version;
* `Derives` — what can be derived;
* `Rhs.Holds` — what a right-hand side says of tokens, given what each nonterminal says.

Main statements:

* `derives_iff_holds` — what is derived is what the right-hand side says;
* `Derives.holds_of_closed` — derivability is the least meaning closed under the productions.
-/

namespace Lox

/-- The nonterminals of the grammar. -/
inductive Nonterminal where
  | program | declaration | classDecl | funDecl | varDecl
  | statement | exprStmt | printStmt | ifStmt | whileStmt | forStmt | jumpStmt | returnStmt | block
  /-- The expressions of a level. -/
  | level (l : Level)
  /-- What may stand in front of `=` in an assignment. -/
  | target
  /-- A call whose callee is an atom. -/
  | operand
  /-- A primary expression that does not end in the body of an arrow. -/
  | atom
  | primary | arguments | parameters

/-- The right-hand side of a production. -/
inductive Rhs where
  /-- One token with a property. -/
  | token (accepts : Token → Bool)
  /-- What a nonterminal stands for. -/
  | rule (n : Nonterminal)
  /-- One part behind the other. -/
  | seq (a b : Rhs)
  /-- One part or the other. -/
  | alt (a b : Rhs)
  /-- A part or nothing. -/
  | opt (a : Rhs)
  /-- A part repeated any number of times, or at most a number of times. -/
  | repeated (most : Option Nat) (a : Rhs)
  /-- A part in a context made from the one around it. -/
  | within (enter : Context → Context) (a : Rhs)
  /-- A part that may stand in some contexts only. -/
  | given (holds : Context → Bool) (a : Rhs)
  /-- A part that does not begin with a symbol. -/
  | lacking (x : Symbol) (a : Rhs)

namespace Rhs

/-- A symbol. -/
def word (x : Symbol) : Rhs :=
  token (·.is x)

/-- A name. -/
def name : Rhs :=
  token fun t => match t.kind with
    | .identifier => true
    | _ => false

/-- A number, a string, `true`, `false` or `nil`. -/
def literal : Rhs :=
  token fun t => match t.kind with
    | .number _ | .string _ | .symbol .trueWord | .symbol .falseWord | .symbol .nilWord => true
    | _ => false

/-- The end of the input. -/
def eof : Rhs :=
  token fun t => t.kind.isEof

/-- All parts of a list that is not empty, one behind the other. -/
def all : List Rhs → Rhs
  | [] => opt (token fun _ => false)
  | [a] => a
  | a :: as => seq a (all as)

/-- One of the parts of a list. -/
def any : List Rhs → Rhs
  | [] => token fun _ => false
  | [a] => a
  | a :: as => alt a (any as)

/-- A part any number of times. -/
def many (a : Rhs) : Rhs :=
  repeated none a

/-- A list with commas between its entries, which are no more than a list may have. -/
def list (a : Rhs) : Rhs :=
  seq a (repeated (some (maxArity - 1)) (seq (word .comma) a))

/-- The parameters of a function in parentheses. -/
def parameters : Rhs :=
  all [word .leftParen, opt (rule .parameters), word .rightParen]

/-- The body of a function. -/
def body : Rhs :=
  within Context.enterFunction (rule .block)

/-- A function from its name on. -/
def function : Rhs :=
  all [name, parameters, body]

/-- What makes a call or a member of a callee. -/
def trailer : Rhs :=
  any [all [word .leftParen, opt (rule .arguments), word .rightParen], all [word .dot, name]]

/-- The primary expressions other than functions. -/
def simple : List Rhs :=
  [literal, given Context.inClass (word .thisWord), name,
    all [word .leftParen, rule (.level .comma), word .rightParen]]

end Rhs

/-- The versions of the grammar. -/
inductive Version where
  /-- The grammar as it is documented. -/
  | documented
  /-- The grammar as it is read. -/
  | enforced

open Rhs in
/-- The productions of a version of the grammar. -/
def production (v : Version) : Nonterminal → Rhs
  | .program => all [many (rule .declaration), eof]
  | .declaration => any [rule .classDecl, rule .funDecl, rule .varDecl,
      match v with
      | .documented => rule .statement
      | .enforced => lacking .funWord (rule .statement)]
  | .classDecl => all [word .classWord, name, word .leftBrace,
      within Context.enterClass (many (all [opt (word .classWord), function])), word .rightBrace]
  | .funDecl => all [word .funWord, function]
  | .varDecl => all [word .varWord, name, opt (all [word .equal, rule (.level .comma)]),
      word .semicolon]
  | .statement => any [rule .exprStmt, rule .printStmt, rule .ifStmt, rule .whileStmt, rule .forStmt,
      rule .jumpStmt, rule .returnStmt, rule .block, word .semicolon]
  | .exprStmt => all [rule (.level .comma), word .semicolon]
  | .printStmt => all [word .printWord, rule (.level .comma), word .semicolon]
  | .ifStmt => all [word .ifWord, word .leftParen, rule (.level .comma), word .rightParen,
      rule .statement, opt (all [word .elseWord, rule .statement])]
  | .whileStmt => all [word .whileWord, word .leftParen, rule (.level .comma), word .rightParen,
      within Context.enterLoop (rule .statement)]
  | .forStmt => all [word .forWord, word .leftParen,
      any [rule .varDecl, rule .exprStmt, word .semicolon],
      opt (rule (.level .comma)), word .semicolon, opt (rule (.level .comma)), word .rightParen,
      within Context.enterLoop (rule .statement)]
  | .jumpStmt => given Context.inLoop
      (all [any [word .breakWord, word .continueWord], word .semicolon])
  | .returnStmt => given Context.inFunction
      (all [word .returnWord, opt (rule (.level .comma)), word .semicolon])
  | .block => all [word .leftBrace, many (rule .declaration), word .rightBrace]
  | .level .comma => all [rule (.level .assignment), opt (all [word .comma, rule (.level .comma)])]
  | .level .assignment => any [all [rule .target, word .equal, rule (.level .assignment)],
      rule (.level .conditional)]
  | .level .conditional => all [rule (.level (.tier .disjunction)),
      opt (all [word .question, rule (.level .conditional), word .colon,
        rule (.level .conditional)])]
  | .level (.tier t) => all [rule (.level t.tighter),
      many (all [token t.admits, rule (.level t.tighter)])]
  | .level .unary => any [all [any [word .bang, word .minus], rule (.level .unary)],
      rule (.level .call)]
  | .level .call => all [rule .primary, many trailer]
  | .target => match v with
      | .documented => all [opt (all [rule (.level .call), word .dot]), name]
      | .enforced => any [all [opt (all [rule .operand, word .dot]), name],
          all [word .leftParen, rule .target, word .rightParen]]
  | .operand => all [rule .atom, many trailer]
  | .atom => any (simple ++ [all [word .funWord, parameters, body]])
  | .primary => any (simple ++ [all [word .funWord, parameters,
      any [body, all [word .arrow, rule (.level .assignment)]]]])
  | .arguments => list (rule (.level .assignment))
  | .parameters => list name

/-- `Derives rules c r ts`: in the context `c`, the tokens `ts` are derived from the right-hand side
`r`. -/
inductive Derives (rules : Nonterminal → Rhs) : Context → Rhs → List Token → Prop where
  | token {c : Context} {accepts : Token → Bool} {t : Token} (ht : accepts t = true) :
      Derives rules c (.token accepts) [t]
  | rule {c : Context} {n : Nonterminal} {ts : List Token} (h : Derives rules c (rules n) ts) :
      Derives rules c (.rule n) ts
  | seq {c : Context} {a b : Rhs} {ts us : List Token} (ha : Derives rules c a ts)
      (hb : Derives rules c b us) : Derives rules c (.seq a b) (ts ++ us)
  | altLeft {c : Context} {a b : Rhs} {ts : List Token} (h : Derives rules c a ts) :
      Derives rules c (.alt a b) ts
  | altRight {c : Context} {a b : Rhs} {ts : List Token} (h : Derives rules c b ts) :
      Derives rules c (.alt a b) ts
  | optNone {c : Context} {a : Rhs} : Derives rules c (.opt a) []
  | optSome {c : Context} {a : Rhs} {ts : List Token} (h : Derives rules c a ts) :
      Derives rules c (.opt a) ts
  | repeated {c : Context} {most : Option Nat} {a : Rhs} {tss : List (List Token)}
      (h : ∀ ts ∈ tss, Derives rules c a ts) (hmost : ∀ n ∈ most, tss.length ≤ n) :
      Derives rules c (.repeated most a) tss.flatten
  | within {c : Context} {enter : Context → Context} {a : Rhs} {ts : List Token}
      (h : Derives rules (enter c) a ts) : Derives rules c (.within enter a) ts
  | given {c : Context} {holds : Context → Bool} {a : Rhs} {ts : List Token}
      (hc : holds c = true) (h : Derives rules c a ts) : Derives rules c (.given holds a) ts
  | lacking {c : Context} {x : Symbol} {a : Rhs} {ts : List Token}
      (hx : ∀ t ∈ ts.head?, t.kind ≠ .symbol x) (h : Derives rules c a ts) :
      Derives rules c (.lacking x a) ts

/-- A list of tokens is a program of a version of the grammar. -/
def Version.Accepts (v : Version) (ts : List Token) : Prop :=
  Derives (production v) .outermost (.rule .program) ts

/-- What a right-hand side says of tokens in a context, where `M` is what the nonterminals say. -/
def Rhs.Holds (M : Nonterminal → Context → List Token → Prop) : Rhs → Context → List Token → Prop
  | token accepts, _, ts => ∃ t, ts = [t] ∧ accepts t = true
  | rule n, c, ts => M n c ts
  | seq a b, c, ts => ∃ us vs, ts = us ++ vs ∧ a.Holds M c us ∧ b.Holds M c vs
  | alt a b, c, ts => a.Holds M c ts ∨ b.Holds M c ts
  | opt a, c, ts => ts = [] ∨ a.Holds M c ts
  | repeated most a, c, ts => ∃ tss : List (List Token), ts = tss.flatten ∧
      (∀ us ∈ tss, a.Holds M c us) ∧ ∀ n ∈ most, tss.length ≤ n
  | within enter a, c, ts => a.Holds M (enter c) ts
  | given holds a, c, ts => holds c = true ∧ a.Holds M c ts
  | lacking x a, c, ts => (∀ t ∈ ts.head?, t.kind ≠ .symbol x) ∧ a.Holds M c ts

section
variable {rules : Nonterminal → Rhs} {M : Nonterminal → Context → List Token → Prop}
  {c : Context} {r : Rhs} {ts : List Token}

/-- **Derivability is the least meaning closed under the productions**: if whatever the productions
say of tokens by `M` is so by `M`, then what is derived from a right-hand side is what it says by
`M`. -/
theorem Derives.holds_of_closed (hM : ∀ n c ts, (rules n).Holds M c ts → M n c ts)
    (h : Derives rules c r ts) : r.Holds M c ts := by
  induction h with
  | token ht => exact ⟨_, rfl, ht⟩
  | rule h ih => exact hM _ _ _ ih
  | seq ha hb iha ihb => exact ⟨_, _, rfl, iha, ihb⟩
  | altLeft h ih => exact .inl ih
  | altRight h ih => exact .inr ih
  | optNone => exact .inl rfl
  | optSome h ih => exact .inr ih
  | repeated h hmost ih => exact ⟨_, rfl, ih, hmost⟩
  | within h ih => exact ih
  | given hc h ih => exact ⟨hc, ih⟩
  | lacking hx h ih => exact ⟨hx, ih⟩

theorem derives_of_holds (h : r.Holds (fun n c ts => Derives rules c (.rule n) ts) c ts) :
    Derives rules c r ts := by
  induction r generalizing c ts with
  | token accepts =>
    obtain ⟨t, rfl, ht⟩ := h
    exact .token ht
  | rule n => exact h
  | seq a b iha ihb =>
    obtain ⟨us, vs, rfl, ha, hb⟩ := h
    exact .seq (iha ha) (ihb hb)
  | alt a b iha ihb => exact h.elim (fun ha => .altLeft (iha ha)) fun hb => .altRight (ihb hb)
  | opt a ih =>
    obtain rfl | ha := h
    · exact .optNone
    · exact .optSome (ih ha)
  | repeated most a ih =>
    obtain ⟨tss, rfl, ha, hmost⟩ := h
    exact .repeated (fun us hus => ih (ha us hus)) hmost
  | within enter a ih => exact .within (ih h)
  | given holds a ih => exact .given h.1 (ih h.2)
  | lacking x a ih => exact .lacking h.1 (ih h.2)

/-- What is derived from a right-hand side is what it says, where the nonterminals say what is
derived from them. -/
theorem derives_iff_holds :
    Derives rules c r ts ↔ r.Holds (fun n c ts => Derives rules c (.rule n) ts) c ts :=
  ⟨Derives.holds_of_closed fun _ _ _ h => .rule (derives_of_holds h), derives_of_holds⟩

end

end Lox
