import Lox.Proofs.Machine.Joined
import Lox.Proofs.Machine.Within
import Lox.Proofs.Program.Relined
import Lox.Proofs.Token.Partition

/-!
# Layout does not change behaviour

Two texts whose tokens have the same kinds and the same texts differ in white space and comments
only. They are read as programs that differ in their lines only, with the same mistakes, and a
session does the same with both (`Session.run_respaced`): only the lines in what is reported may
differ. The frames that the machine of the session refers to have to exist, as they do in every
session (`Session.sound_of_reaches`).
-/

namespace Lox

/-- Tokens of the same kind with the same text. What strings and numbers stand for is not compared,
since the text tells. -/
def Token.SameText (t t' : Token) : Prop :=
  t.kind.alike t'.kind = true ∧ t'.lexeme = t.lexeme

instance : DecidableRel Token.SameText :=
  fun _ _ => inferInstanceAs (Decidable (_ ∧ _))

/-- Tokens of texts that agree in this way agree in their kinds. -/
theorem Token.SameText.kind_eq {t t' : Token} (h : t.SameText t')
    (ht : t.kind = .eof ∨ t.kind.Spells t.lexeme.toList)
    (ht' : t'.kind = .eof ∨ t'.kind.Spells t'.lexeme.toList) : t'.kind = t.kind := by
  obtain ⟨halike, hlexeme⟩ := h
  have heof := Kind.eq_eof_iff_of_alike halike
  rw [hlexeme] at ht'
  rcases ht with hend | hspells
  · rw [hend, heof.mp hend]
  · rcases ht' with hend' | hspells'
    · rw [hend', heof.mpr hend']
    · exact hspells.eq_of_alike hspells' halike

theorem tokens_vary {p q : String} (h : List.Forall₂ Token.SameText (tokens p) (tokens q)) :
    List.Forall₂ Variation.lines.token (tokens p) (tokens q) := by
  have hp : ∀ t ∈ tokens p, t.kind = .eof ∨ t.kind.Spells t.lexeme.toList := spells_of_mem_tokens
  have hq : ∀ t ∈ tokens q, t.kind = .eof ∨ t.kind.Spells t.lexeme.toList := spells_of_mem_tokens
  generalize tokens p = ts, tokens q = ts' at h hp hq
  induction h with
  | nil => exact .nil
  | cons ht _ ih =>
    obtain ⟨hhead, htail⟩ := List.forall_mem_cons.mp hp
    obtain ⟨hhead', htail'⟩ := List.forall_mem_cons.mp hq
    exact .cons ⟨ht.kind_eq hhead hhead', ht.2⟩ (ih htail htail')

/-- The same diagnostic, perhaps on another line. -/
structure Diagnostic.Respaced (d d' : Diagnostic) : Prop where
  /-- The same stage found the error. -/
  stage : d'.stage = d.stage
  /-- The messages are the same. -/
  message : d'.message = d.message

/-- What two runs report and leave behind is the same, but for lines. -/
structure Session.Respaced (r r' : List Diagnostic × Session) : Prop where
  /-- They report the same, in the same order. -/
  reported : List.Forall₂ Diagnostic.Respaced r.1 r'.1
  /-- Both reported something, or neither. -/
  hadError : r'.2.hadError = r.2.hadError
  /-- They wrote the same. -/
  output : r'.2.machine.output = r.2.machine.output
  /-- The machines match, but for the lines of the code that they carry. -/
  machine : ∃ (w : World .renamed) (a a' : Scopes),
    r.2.machine.Match Variation.lines.throughout w a a' r'.2.machine

theorem RuntimeError.Revised.respaced {cs : List Revision} {e e' : RuntimeError}
    (h : e.Revised cs e') :
    e.diagnostic.Respaced e'.diagnostic := by
  cases h with
  | fault ht cause => exact ⟨rfl, rfl⟩
  | outputClosed => exact ⟨rfl, rfl⟩

theorem GrammarError.Varies.respaced {e e' : GrammarError} (h : e.Varies e') :
    e.diagnostic.Respaced e'.diagnostic :=
  ⟨rfl, congrArg Mistake.message h⟩

namespace Session

variable {host : Host} {n : Nat} {p q : String} {s : Session}

/-- Runs that match report the same and leave the same behind. -/
theorem respaced_ofOutcome {w : World .renamed} {a a' : Scopes} {o o' : Outcome Unit}
    (h : o.Sim Variation.lines.throughout .none w a a' Run.Same o') :
    Option.Rel Respaced (ofOutcome o) (ofOutcome o') := by
  cases h with
  | done _ _ hm => exact .some ⟨.nil, rfl, hm.output, _, _, _, hm⟩
  | failed _ he hm => exact .some ⟨.cons he.respaced .nil, rfl, hm.output, _, _, _, hm⟩
  | unfinished => exact .none
  | first hfalse _ => exact hfalse.elim
  | second hfalse _ => exact hfalse.elim

theorem rejections_eq (h : faults p = []) :
    rejections p = (Parsed.ofTokens (tokens p)).errors.map GrammarError.diagnostic := by
  unfold rejections
  rw [h]

theorem run_eq_of_rejected (h : rejections p ≠ []) :
    run host n p s = some (rejections p, { s with hadError := true }) := by
  unfold run
  split
  · rename_i hnil
    exact absurd hnil h
  · rfl

/-- **Layout does not change behaviour.** Two texts without faults whose tokens have the same kinds
and the same texts are read as programs that differ in their lines only, with the same mistakes in
the same order. A session that runs the one or the other writes the same, reports the same messages
and goes on as the same session; only lines may differ. -/
theorem run_respaced (host : Host) (n : Nat) (hs : s.machine.Sound) (hp : faults p = [])
    (hq : faults q = []) (htokens : List.Forall₂ Token.SameText (tokens p) (tokens q)) :
    List.Forall₂ (Stmt.Varies .lines) (program p) (program q) ∧
      List.Forall₂ (fun e e' : GrammarError => e'.mistake.message = e.mistake.message)
        (Parsed.ofTokens (tokens p)).errors (Parsed.ofTokens (tokens q)).errors ∧
      Option.Rel Respaced (run host n p s) (run host n q s) := by
  obtain ⟨hprogram, herrors⟩ := Parsed.varies_ofTokens (tokens_vary htokens)
  refine ⟨hprogram, herrors.imp fun _ _ he => congrArg Mistake.message he, ?_⟩
  have hreported : List.Forall₂ Diagnostic.Respaced (rejections p) (rejections q) := by
    rw [rejections_eq hp, rejections_eq hq, List.forall₂_map_left_iff, List.forall₂_map_right_iff]
    exact herrors.imp fun _ _ he => he.respaced
  have hallows : Slack.none.Allows .renamed Variation.lines.throughout n n :=
    Slack.allows_none (Revision.not_boxes_throughout id) n
  have hself : s.machine.Match Variation.lines.throughout _ _ _ s.machine :=
    Machine.Sound.match_same Routine.revised_self hs
  by_cases hclean : rejections p = []
  · have hclean' : rejections q = [] := by
      rw [hclean] at hreported
      exact List.forall₂_nil_left_iff.mp hreported
    rw [run_eq_ofOutcome hclean, run_eq_ofOutcome hclean']
    exact respaced_ofOutcome (Run.sim_interpret host hallows (Variation.mem_throughout _)
      (Stmt.allHave_any _) hprogram (World.main_same hs.scope) _ _ hself)
  · have hclean' : rejections q ≠ [] := by
      intro hnil
      rw [hnil] at hreported
      exact hclean (List.forall₂_nil_right_iff.mp hreported)
    rw [run_eq_of_rejected hclean, run_eq_of_rejected hclean']
    exact .some ⟨hreported, rfl, rfl, _, _, _, hself⟩

/-- The same text on one line and on several, with a comment, runs into an error in a function. -/
theorem run_respaced_comment :
    let p := "fun f(x) \x7b return -x; \x7d f(nil);"
    let q := "fun f(x) \x7b // the operand is no number\n  return -x;\n\x7d\n\nf(nil);"
    let s := Session.initial (.ofLimit none)
    s.machine.Sound ∧ faults p = [] ∧ faults q = [] ∧
      List.Forall₂ Token.SameText (tokens p) (tokens q) ∧
      Option.Rel Respaced (run (.ofSeed 0 0) 40 p s) (run (.ofSeed 0 0) 40 q s) := by
  intro p q s
  have hs : s.machine.Sound := Machine.sound_initial _
  have hp : faults p = [] := by decide +kernel
  have hq : faults q = [] := by decide +kernel
  have htokens : List.Forall₂ Token.SameText (tokens p) (tokens q) := by decide +kernel
  exact ⟨hs, hp, hq, htokens, (run_respaced _ 40 hs hp hq htokens).2.2⟩

end Session

end Lox
