import Lox.Proofs.Program.Joined
import Lox.Proofs.Program.Legal
import Lox.Proofs.Program.Worded
import Lox.Proofs.Token.Spelled

/-!
# The words of trees that are read

The words of a tree that is read without a mistake are spelled as they should be: the tokens that a
phrase keeps are among its own, and each is of a kind that may stand in its place
(`Phrase.spelled`). So the words of a program that is executed are (`Session.spelled_program`).
-/

namespace Lox

/-- The text of a token spells its kind. -/
def Token.IsSpelled (t : Token) : Prop :=
  t.kind.SpelledBy t.lexeme

/-- The texts of all tokens spell their kinds. -/
def AllSpelled (ts : List Token) : Prop :=
  ∀ t ∈ ts, t.IsSpelled

@[simp]
theorem allSpelled_nil : AllSpelled [] ↔ True :=
  iff_of_true (List.forall_mem_nil _) trivial

@[simp]
theorem allSpelled_cons {t : Token} {ts : List Token} :
    AllSpelled (t :: ts) ↔ t.IsSpelled ∧ AllSpelled ts :=
  List.forall_mem_cons

@[simp]
theorem allSpelled_append {ts us : List Token} :
    AllSpelled (ts ++ us) ↔ AllSpelled ts ∧ AllSpelled us :=
  List.forall_mem_append

/-- A word is **spelled** when its token may stand in its place and has the right text, and when its
number is the value of a run of digits. -/
def Word.IsSpelled : Word → Prop
  | head _ _ => True
  | constant (.number value) => ∃ digits, value = Decimal.ofDigits digits
  | constant _ => True
  | name t => t.kind = .identifier ∧ t.IsSpelled
  | reference t => (t.kind = .identifier ∨ t.kind = .symbol .thisWord) ∧ t.IsSpelled
  | symbol mark t => (∃ x ∈ mark.symbols, t.kind = .symbol x) ∧ t.IsSpelled
  | call paren => paren.kind = .symbol .leftParen ∧ paren.IsSpelled

/-- All words of a nest are spelled. -/
abbrev Nest.IsSpelled (n : Nest Word) : Prop :=
  n.All Word.IsSpelled

/-- All words of some nests are spelled. -/
abbrev Nest.AreSpelled (ns : List (Nest Word)) : Prop :=
  Nest.Every Word.IsSpelled ns

/-! ### Parts of phrases -/

theorem Literal.isSpelled {t : Token} {v : Literal} (hv : t.kind.literal? = some v)
    (ht : t.IsSpelled) : (Word.constant v).IsSpelled := by
  unfold Token.IsSpelled at ht
  cases hkind : t.kind with
  | number value =>
    rw [hkind] at hv ht
    obtain rfl := Option.some.inj hv
    exact ht
  | string value =>
    rw [hkind] at hv
    obtain rfl := Option.some.inj hv
    trivial
  | symbol x =>
    rw [hkind] at hv
    unfold Kind.literal? at hv
    split at hv <;> cases hv <;> trivial
  | identifier | eof =>
    rw [hkind] at hv
    cases hv

/-- The operators of a tier, by whether the right operand may stay unevaluated. -/
theorem Tier.admits_symbol {t : Tier} {op : Token} (h : t.admits op = true) :
    ∃ x ∈ (if t.isLazy then Mark.lazy else Mark.strict).symbols, op.kind = .symbol x := by
  unfold admits at h
  split at h
  · rename_i x hkind
    refine ⟨x, ?_, hkind⟩
    have hall : ∀ x ∈ Symbol.marks ++ Symbol.words, ∀ t ∈ ofSymbol? x,
        x ∈ (if t.isLazy then Mark.lazy else Mark.strict).symbols := by decide
    exact hall x (List.mem_append.mpr x.mem_marks_or_mem_words) t (beq_iff_eq.mp h)
  · cases h

theorem Expr.spelled_join {t : Tier} {x y : Expr} {op : Token} (hop : t.admits op = true)
    (hspelled : op.IsSpelled) (hx : x.nest.IsSpelled) (hy : y.nest.IsSpelled) :
    (t.join x op y).nest.IsSpelled := by
  have hsymbol := Tier.admits_symbol hop
  cases t with
  | disjunction | conjunction => exact ⟨⟨hsymbol, hspelled⟩, hx, hy, trivial⟩
  | equality | comparison | sum | product => exact ⟨⟨hsymbol, hspelled⟩, hx, hy, trivial⟩

theorem Expr.spelled_assigned {x v y : Expr} (hy : x.assigned? v = some y)
    (hx : x.nest.IsSpelled) (hv : v.nest.IsSpelled) : y.nest.IsSpelled := by
  obtain ⟨t, rfl, hkind, rfl⟩ | ⟨object, member, rfl, rfl⟩ := Expr.assigned?_eq_some.mp hy
  · exact ⟨trivial, ⟨hkind, hx.2⟩, hv, trivial⟩
  · exact ⟨trivial, hx, hv, trivial⟩

theorem ParameterNames.spelled {ts names : List Token} (h : ParameterNames ts names)
    (hts : AllSpelled ts) : Nest.AreSpelled (names.map Token.nest) := by
  induction h with
  | last hname _ => exact ⟨⟨hname, hts _ List.mem_cons_self⟩, trivial⟩
  | more hname _ _ ih =>
    obtain ⟨hfirst, -, hrest⟩ : _ ∧ _ ∧ _ := by simpa using hts
    exact ⟨⟨hname, hfirst⟩, ih hrest⟩

theorem Parameters.spelled {ts names : List Token} (h : Parameters ts names)
    (hts : AllSpelled ts) : Nest.AreSpelled (names.map Token.nest) := by
  cases h with
  | none _ _ => trivial
  | some _ hnames _ => exact hnames.spelled (allSpelled_cons.mp hts).2

theorem Member.spelled_collect {ofClass : Bool} {members : List Member}
    (h : ∀ m ∈ members, m.definition.nest.IsSpelled) :
    ∀ d ∈ collect ofClass members, d.nest.IsSpelled := by
  refine collect_induction (P := fun ds => ∀ d ∈ ds, d.nest.IsSpelled) (List.forall_mem_nil _) ?_
  intro m hm ds hds d hd
  obtain rfl | hd := Definition.mem_insert hd
  · exact h m hm
  · exact hds d hd

theorem Stmt.spelled_classDef {name : Token} {members : List Member}
    (hname : name.kind = .identifier) (hspelled : name.IsSpelled)
    (h : ∀ m ∈ members, m.definition.nest.IsSpelled) :
    (Stmt.classDef name (Member.collect false members)
      (Member.collect true members)).nest.IsSpelled := by
  refine ⟨trivial, ⟨hname, hspelled⟩, ?_⟩
  rw [Nest.every_iff]
  refine List.forall_mem_append.mpr ⟨?_, ?_⟩
  · rw [Definition.nests_eq_map]
    exact List.forall_mem_map.mpr (Member.spelled_collect h)
  · rw [Definition.classNests_eq_map]
    exact List.forall_mem_map.mpr fun d hd => ⟨trivial, Member.spelled_collect h d hd, trivial⟩

/-! ### Phrases -/

/-- What phrases of a part stand for has words that are spelled. -/
def Part.IsSpelled : (p : Part) → p.Result → Prop
  | .expression _, x | .primary, x => x.nest.IsSpelled
  | .arguments, xs | .argumentList, xs => Nest.AreSpelled (Expr.nests xs)
  | .optional, x => (Expr.optionNest x).IsSpelled
  | .block, xs | .program, xs => Nest.AreSpelled (Stmt.nests xs)
  | .declaration, x | .variableDefinition, x | .statement, x => x.nest.IsSpelled
  | .members, ms => ∀ m ∈ ms, m.definition.nest.IsSpelled
  | .definition, d => d.nest.IsSpelled
  | .initial, x => (Stmt.optionNest x).IsSpelled

/-- **What a phrase of spelled tokens stands for has words that are spelled.** -/
theorem Phrase.spelled {c : Context} {p : Part} {e : Ending} {ts : List Token} {x : p.Result}
    (h : Phrase c p e ts x) (hts : AllSpelled ts) : p.IsSpelled x := by
  induction h with
  | lift _ _ ih | callee _ ih | present _ ih | statement _ _ ih | someArguments _ _ ih =>
    exact ih hts
  | comma _ hop _ ihx ihy =>
    obtain ⟨hts, hspelled, hus⟩ : _ ∧ _ ∧ _ := by simpa using hts
    exact ⟨⟨⟨.comma, by decide, hop⟩, hspelled⟩, ihx hts, ihy hus, trivial⟩
  | assign _ _ _ hy ihx ihv =>
    obtain ⟨hts, -, hus⟩ : _ ∧ _ ∧ _ := by simpa using hts
    exact Expr.spelled_assigned hy (ihx hts) (ihv hus)
  | conditional _ _ _ _ _ ihx ihy ihz =>
    obtain ⟨hts, -, hus, -, hvs⟩ : _ ∧ _ ∧ _ ∧ _ ∧ _ := by simpa using hts
    exact ⟨trivial, ihx hts, ihy hus, ihz hvs, trivial⟩
  | operator _ hop _ ihx ihy =>
    obtain ⟨hts, hspelled, hus⟩ : _ ∧ _ ∧ _ := by simpa using hts
    exact Expr.spelled_join hop hspelled (ihx hts) (ihy hus)
  | unary hop _ ih =>
    obtain ⟨hspelled, hts⟩ := allSpelled_cons.mp hts
    refine ⟨⟨?_, hspelled⟩, ih hts, trivial⟩
    exact hop.elim (fun hbang => ⟨_, by decide, hbang⟩) fun hminus => ⟨_, by decide, hminus⟩
  | call _ hparen _ ihf ihxs =>
    obtain ⟨hts, hspelled, hus⟩ : _ ∧ _ ∧ _ := by simpa using hts
    exact ⟨⟨hparen, hspelled⟩, ihf hts, ihxs hus⟩
  | member _ _ hname ih =>
    obtain ⟨hts, -, hspelled⟩ : _ ∧ _ ∧ _ := by simpa using hts
    exact ⟨trivial, ih hts, ⟨hname, hspelled⟩, trivial⟩
  | literal ht => exact Literal.isSpelled ht (hts _ List.mem_cons_self)
  | name ht => exact ⟨.inl ht, hts _ List.mem_cons_self⟩
  | this ht _ => exact ⟨.inr ht, hts _ List.mem_cons_self⟩
  | paren _ _ _ ih =>
    obtain ⟨-, hts, -⟩ : _ ∧ _ ∧ _ := by simpa using hts
    exact ih hts
  | lambda _ hps _ _ ih =>
    obtain ⟨-, hps', -, hts⟩ : _ ∧ _ ∧ _ ∧ _ := by simpa using hts
    exact ⟨trivial, hps.spelled hps', ⟨trivial, ih hts⟩, trivial⟩
  | arrow _ hps _ _ ih =>
    obtain ⟨-, hps', -, hts⟩ : _ ∧ _ ∧ _ ∧ _ := by simpa using hts
    -- The keyword that stands for the arrow is in no text; it is spelled by its making.
    exact ⟨trivial, hps.spelled hps',
      ⟨⟨⟨.returnWord, by decide, rfl⟩, rfl⟩, ih hts, trivial⟩, trivial⟩
  | noArguments _ | absent | blockEnd _ | empty _ | noInitial _ | programEnd => trivial
  | membersEnd _ => exact List.forall_mem_nil _
  | lastArgument _ _ ih => exact ⟨ih (allSpelled_append.mp hts).1, trivial⟩
  | moreArguments _ _ _ ihx ihxs =>
    obtain ⟨hts, -, hus⟩ : _ ∧ _ ∧ _ := by simpa using hts
    exact ⟨ihx hts, ihxs hus⟩
  | blockMore _ _ ihx ihxs | programMore _ _ ihx ihxs =>
    obtain ⟨hts, hus⟩ := allSpelled_append.mp hts
    exact ⟨ihx hts, ihxs hus⟩
  | classDefinition _ hname _ _ ih =>
    obtain ⟨-, hspelled, -, hts⟩ : _ ∧ _ ∧ _ ∧ _ := by simpa using hts
    exact Stmt.spelled_classDef hname hspelled (ih hts)
  | function _ _ ih | declare _ _ ih => exact ih (allSpelled_cons.mp hts).2
  | method _ _ ihd ihms =>
    obtain ⟨hts, hus⟩ := allSpelled_append.mp hts
    exact List.forall_mem_cons.mpr ⟨ihd hts, ihms hus⟩
  | classMethod _ _ _ ihd ihms =>
    obtain ⟨-, hts, hus⟩ : _ ∧ _ ∧ _ := by simpa using hts
    exact List.forall_mem_cons.mpr ⟨ihd hts, ihms hus⟩
  | definition hname hps _ _ ih =>
    obtain ⟨hspelled, hps', -, hts⟩ : _ ∧ _ ∧ _ ∧ _ := by simpa using hts
    exact ⟨trivial, ⟨hname, hspelled⟩, hps.spelled hps', ⟨trivial, ih hts⟩, trivial⟩
  | noValue hname _ => exact ⟨trivial, ⟨hname, hts _ List.mem_cons_self⟩, trivial⟩
  | value hname _ _ _ ih =>
    obtain ⟨hspelled, -, hts, -⟩ : _ ∧ _ ∧ _ ∧ _ := by simpa using hts
    exact ⟨trivial, ⟨hname, hspelled⟩, ih hts, trivial⟩
  | expression _ _ ih | initialExpression _ _ ih =>
    exact ⟨trivial, ih (allSpelled_append.mp hts).1, trivial⟩
  | print _ _ _ ih =>
    obtain ⟨-, hts, -⟩ : _ ∧ _ ∧ _ := by simpa using hts
    exact ⟨trivial, ih hts, trivial⟩
  | branch _ _ _ _ _ ihx ihy =>
    obtain ⟨-, -, hts, -, hus⟩ : _ ∧ _ ∧ _ ∧ _ ∧ _ := by simpa using hts
    exact ⟨trivial, ihx hts, ihy hus, trivial⟩
  | branchElse _ _ _ _ _ _ _ ihx ihy ihz =>
    obtain ⟨-, -, hts, -, hus, -, hvs⟩ : _ ∧ _ ∧ _ ∧ _ ∧ _ ∧ _ ∧ _ := by simpa using hts
    exact ⟨trivial, ihx hts, ihy hus, ihz hvs, trivial⟩
  | whileLoop _ _ _ _ _ ihx ihy =>
    obtain ⟨-, -, hts, -, hus⟩ : _ ∧ _ ∧ _ ∧ _ ∧ _ := by simpa using hts
    exact ⟨trivial, ihx hts, ihy hus, trivial⟩
  | forLoop _ _ _ _ _ _ _ _ ihx ihy ihz ihbody =>
    obtain ⟨-, -, hts, hus, -, hvs, -, hws⟩ : _ ∧ _ ∧ _ ∧ _ ∧ _ ∧ _ ∧ _ ∧ _ := by simpa using hts
    exact ⟨trivial, ihx hts, ihy hus, ihz hvs, ihbody hws, trivial⟩
  | jump hword _ _ =>
    refine ⟨⟨?_, hts _ List.mem_cons_self⟩, trivial⟩
    exact hword.elim (fun hbreak => ⟨_, by decide, hbreak⟩) fun hcontinue =>
      ⟨_, by decide, hcontinue⟩
  | @giveBack _ _ _ _ _ x hword _ _ _ ih =>
    obtain ⟨hspelled, hts, -⟩ : _ ∧ _ ∧ _ := by simpa using hts
    have hkeyword : (Word.symbol .jump _).IsSpelled := ⟨⟨_, by decide, hword⟩, hspelled⟩
    cases x with
    | none => exact ⟨hkeyword, trivial⟩
    | some x => exact ⟨hkeyword, ih hts, trivial⟩
  | block _ _ ih => exact ⟨trivial, ih (allSpelled_cons.mp hts).2⟩
  | initialVariable _ _ ih => exact ih (allSpelled_cons.mp hts).2

/-- **The words of a program that is executed are spelled.** -/
theorem Session.spelled_program {source : String} (h : rejections source = []) :
    Nest.AreSpelled (Stmt.nests (program source)) :=
  (phrase_of_rejections h).spelled spelledBy_of_mem_tokensWithoutEnd

end Lox
