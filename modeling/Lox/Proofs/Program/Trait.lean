import Lox.Proofs.Machine.Trait
import Lox.Proofs.Program.Joined
import Lox.Proofs.Program.Legal

/-!
# Traits of the programs that are read

The tokens that a program keeps are among those it was read from, and the names that it gives values
to are identifiers. So what holds of the tokens of a text is a trait of its program
(`Session.has_program`), if the trait demands nothing of loops and routines.
-/

namespace Lox

variable {q : Trait}

/-- Faults may be reported at the tokens, and the identifiers among them may be given values. -/
def Trait.Admits (q : Trait) (ts : List Token) : Prop :=
  ∀ t ∈ ts, q.token t ∧ (t.kind = .identifier → q.name t)

/-- A trait demands nothing of loops and routines. -/
structure Trait.OfTokens (q : Trait) : Prop where
  /-- There may be loops. -/
  loops : q.loops
  /-- All routines are as they should be. -/
  routine (r : Routine) : q.routine r

@[simp]
theorem Trait.admits_nil : q.Admits [] ↔ True :=
  ⟨fun _ => trivial, fun _ => nofun⟩

@[simp]
theorem Trait.admits_cons {t : Token} {ts : List Token} :
    q.Admits (t :: ts) ↔ (q.token t ∧ (t.kind = .identifier → q.name t)) ∧ q.Admits ts :=
  List.forall_mem_cons

@[simp]
theorem Trait.admits_append {ts us : List Token} :
    q.Admits (ts ++ us) ↔ q.Admits ts ∧ q.Admits us :=
  List.forall_mem_append

/-! ### Parts of phrases -/

/-- An expression has a trait, and if it is a name it may be given a value. -/
def Expr.HasAsTarget (q : Trait) (x : Expr) : Prop :=
  x.Has q ∧ ∀ t, x = .name t → t.kind = .identifier → q.name t

theorem Expr.has_assigned {x v y : Expr} (hy : x.assigned? v = some y) (hx : x.HasAsTarget q)
    (hv : v.Has q) : y.Has q := by
  obtain ⟨t, rfl, hkind, rfl⟩ | ⟨object, member, rfl, rfl⟩ := Expr.assigned?_eq_some.mp hy
  · exact ⟨⟨hx.1, hx.2 t rfl hkind⟩, hv⟩
  · exact ⟨hx.1.1, hx.1.2, hv⟩

theorem Expr.hasAsTarget_assigned {x v y : Expr} (hy : x.assigned? v = some y)
    (hx : x.HasAsTarget q) (hv : v.Has q) : y.HasAsTarget q := by
  refine ⟨Expr.has_assigned hy hx hv, ?_⟩
  -- What assigns is no name.
  rintro t rfl
  obtain ⟨_, -, -, heq⟩ | ⟨_, _, -, heq⟩ := Expr.assigned?_eq_some.mp hy <;> cases heq

theorem Expr.hasAsTarget_join {t : Tier} {x y : Expr} {op : Token} (hop : q.token op)
    (hx : x.Has q) (hy : y.Has q) : (t.join x op y).HasAsTarget q := by
  cases t with
  | disjunction | conjunction => exact ⟨⟨hx, hy⟩, nofun⟩
  | equality | comparison | sum | product => exact ⟨⟨hx, hop, hy⟩, nofun⟩

theorem ParameterNames.has {ts names : List Token} (h : ParameterNames ts names)
    (hts : q.Admits ts) : ∀ p ∈ names, q.name p := by
  induction h with
  | last hname _ => exact List.forall_mem_singleton.mpr ((hts _ List.mem_cons_self).2 hname)
  | more hname _ _ ih =>
    obtain ⟨hfirst, -, hrest⟩ : _ ∧ _ ∧ _ := by simpa using hts
    exact List.forall_mem_cons.mpr ⟨hfirst.2 hname, ih hrest⟩

theorem Parameters.has {ts names : List Token} (h : Parameters ts names) (hts : q.Admits ts) :
    ∀ p ∈ names, q.name p := by
  cases h with
  | none _ _ => exact nofun
  | some _ hnames _ => exact hnames.has (Trait.admits_cons.mp hts).2

theorem Member.allHave_collect {ofClass : Bool} {members : List Member}
    (h : ∀ m ∈ members, m.definition.Has q) : Definition.AllHave q (collect ofClass members) := by
  refine collect_induction trivial fun m hm ds hds => ?_
  rw [Definition.allHave_iff] at hds ⊢
  intro d hd
  obtain rfl | hd := Definition.mem_insert hd
  · exact (h m hm).routine
  · exact hds d hd

/-! ### Phrases -/

/-- What phrases of a part stand for has a trait. The name of a definition is given a value. -/
def Part.Has (q : Trait) : (p : Part) → p.Result → Prop
  | .expression _, x | .primary, x => x.HasAsTarget q
  | .arguments, xs | .argumentList, xs => Expr.AllHave q xs
  | .optional, x => Expr.OptionHas q x
  | .block, xs | .program, xs => Stmt.AllHave q xs
  | .declaration, x | .variableDefinition, x | .statement, x => x.Has q
  | .members, ms => ∀ m ∈ ms, m.definition.Has q
  | .definition, d => q.name d.name ∧ d.Has q
  | .initial, x => Stmt.OptionHas q x

/-- **What a phrase stands for has the traits of its tokens.** -/
theorem Phrase.has {c : Context} {p : Part} {e : Ending} {ts : List Token} {x : p.Result}
    (hq : q.OfTokens) (h : Phrase c p e ts x) (hts : q.Admits ts) : p.Has q x := by
  induction h with
  | lift _ _ ih | callee _ ih => exact ih hts
  | comma _ _ _ ihx ihy =>
    obtain ⟨hts, ⟨hop, -⟩, hus⟩ : _ ∧ _ ∧ _ := by simpa using hts
    exact ⟨⟨(ihx hts).1, hop, (ihy hus).1⟩, nofun⟩
  | assign _ _ _ hy ihx ihv =>
    obtain ⟨hts, -, hus⟩ : _ ∧ _ ∧ _ := by simpa using hts
    exact Expr.hasAsTarget_assigned hy (ihx hts) (ihv hus).1
  | conditional _ _ _ _ _ ihx ihy ihz =>
    obtain ⟨hts, -, hus, -, hvs⟩ : _ ∧ _ ∧ _ ∧ _ ∧ _ := by simpa using hts
    exact ⟨⟨(ihx hts).1, (ihy hus).1, (ihz hvs).1⟩, nofun⟩
  | operator _ _ _ ihx ihy =>
    obtain ⟨hts, ⟨hop, -⟩, hus⟩ : _ ∧ _ ∧ _ := by simpa using hts
    exact Expr.hasAsTarget_join hop (ihx hts).1 (ihy hus).1
  | unary _ _ ih =>
    obtain ⟨⟨hop, -⟩, hts⟩ := Trait.admits_cons.mp hts
    exact ⟨⟨hop, (ih hts).1⟩, nofun⟩
  | call _ _ _ ihf ihxs =>
    obtain ⟨hts, ⟨hparen, -⟩, hus⟩ : _ ∧ _ ∧ _ := by simpa using hts
    exact ⟨⟨(ihf hts).1, hparen, ihxs hus⟩, nofun⟩
  | member _ _ _ ih =>
    obtain ⟨hts, -, ⟨hname, -⟩⟩ : _ ∧ _ ∧ _ := by simpa using hts
    exact ⟨⟨(ih hts).1, hname⟩, nofun⟩
  | literal _ => exact ⟨trivial, nofun⟩
  | name _ | this _ _ =>
    obtain ⟨ht, hname⟩ := hts _ List.mem_cons_self
    refine ⟨ht, ?_⟩
    rintro t ⟨⟩
    exact hname
  | paren _ _ _ ih =>
    obtain ⟨-, hts, -⟩ : _ ∧ _ ∧ _ := by simpa using hts
    exact ih hts
  | lambda _ hps _ _ ih =>
    obtain ⟨-, hps', -, hts⟩ : _ ∧ _ ∧ _ ∧ _ := by simpa using hts
    exact ⟨⟨hps.has hps', hq.routine _, ih hts⟩, nofun⟩
  | arrow _ hps _ _ ih =>
    obtain ⟨-, hps', -, hts⟩ : _ ∧ _ ∧ _ ∧ _ := by simpa using hts
    exact ⟨⟨hps.has hps', hq.routine _, (ih hts).1⟩, nofun⟩
  | noArguments _ | absent | blockEnd _ | jump _ _ _ | empty _ | noInitial _ | programEnd => trivial
  | membersEnd _ => exact fun _ h => nomatch h
  | someArguments _ _ ih => exact ih hts
  | lastArgument _ _ ih => exact ⟨(ih (Trait.admits_append.mp hts).1).1, trivial⟩
  | moreArguments _ _ _ ihx ihxs =>
    obtain ⟨hts, -, hus⟩ : _ ∧ _ ∧ _ := by simpa using hts
    exact ⟨(ihx hts).1, ihxs hus⟩
  | present _ ih => exact (ih hts).1
  | blockMore _ _ ihx ihxs | programMore _ _ ihx ihxs =>
    obtain ⟨hts, hus⟩ := Trait.admits_append.mp hts
    exact ⟨ihx hts, ihxs hus⟩
  | classDefinition _ hname _ _ ih =>
    obtain ⟨-, ⟨-, hname'⟩, -, hts⟩ : _ ∧ _ ∧ _ ∧ _ := by simpa using hts
    exact ⟨hname' hname, Member.allHave_collect (ih hts), Member.allHave_collect (ih hts)⟩
  | function _ _ ih | declare _ _ ih => exact ih (Trait.admits_cons.mp hts).2
  | statement _ _ ih => exact ih hts
  | method _ _ ihd ihms =>
    obtain ⟨hts, hus⟩ := Trait.admits_append.mp hts
    exact List.forall_mem_cons.mpr ⟨(ihd hts).2, ihms hus⟩
  | classMethod _ _ _ ihd ihms =>
    obtain ⟨-, hts, hus⟩ : _ ∧ _ ∧ _ := by simpa using hts
    exact List.forall_mem_cons.mpr ⟨(ihd hts).2, ihms hus⟩
  | definition hname hps _ _ ih =>
    obtain ⟨⟨-, hname'⟩, hps', -, hts⟩ : _ ∧ _ ∧ _ ∧ _ := by simpa using hts
    exact ⟨hname' hname, hps.has hps', hq.routine _, ih hts⟩
  | noValue hname _ => exact ⟨(hts _ List.mem_cons_self).2 hname, trivial⟩
  | value hname _ _ _ ih =>
    obtain ⟨⟨-, hname'⟩, -, hts, -⟩ : _ ∧ _ ∧ _ ∧ _ := by simpa using hts
    exact ⟨hname' hname, (ih hts).1⟩
  | expression _ _ ih | initialExpression _ _ ih => exact (ih (Trait.admits_append.mp hts).1).1
  | print _ _ _ ih =>
    obtain ⟨-, hts, -⟩ : _ ∧ _ ∧ _ := by simpa using hts
    exact (ih hts).1
  | branch _ _ _ _ _ ihx ihy =>
    obtain ⟨-, -, hts, -, hus⟩ : _ ∧ _ ∧ _ ∧ _ ∧ _ := by simpa using hts
    exact ⟨(ihx hts).1, ihy hus, trivial⟩
  | branchElse _ _ _ _ _ _ _ ihx ihy ihz =>
    obtain ⟨-, -, hts, -, hus, -, hvs⟩ : _ ∧ _ ∧ _ ∧ _ ∧ _ ∧ _ ∧ _ := by simpa using hts
    exact ⟨(ihx hts).1, ihy hus, ihz hvs⟩
  | whileLoop _ _ _ _ _ ihx ihy =>
    obtain ⟨-, -, hts, -, hus⟩ : _ ∧ _ ∧ _ ∧ _ ∧ _ := by simpa using hts
    exact ⟨hq.loops, (ihx hts).1, ihy hus⟩
  | forLoop _ _ _ _ _ _ _ _ ihx ihy ihz ihbody =>
    obtain ⟨-, -, hts, hus, -, hvs, -, hws⟩ : _ ∧ _ ∧ _ ∧ _ ∧ _ ∧ _ ∧ _ ∧ _ := by simpa using hts
    exact ⟨hq.loops, ihx hts, ihy hus, ihz hvs, ihbody hws⟩
  | giveBack _ _ _ _ ih =>
    obtain ⟨-, hts, -⟩ : _ ∧ _ ∧ _ := by simpa using hts
    exact ih hts
  | block _ _ ih => exact ih (Trait.admits_cons.mp hts).2
  | initialVariable _ _ ih => exact ih (Trait.admits_cons.mp hts).2

/-- **A program that is executed has the traits of the tokens of its text.** -/
theorem Session.has_program {source : String} (hq : q.OfTokens) (h : rejections source = [])
    (hts : q.Admits (tokensWithoutEnd source)) : Stmt.AllHave q (program source) :=
  (phrase_of_rejections h).has hq hts

end Lox
