import Lox.Proofs.Program.Retold
import Lox.Proofs.Program.Legal
import Mathlib.Computability.Language

/-!
# Context checks

A `break` or `continue` must stand in a loop of the function around it, a `return` in a function,
and neither parameters nor arguments may be too many. A statement that breaks these rules is kept,
and the mistake is noted. `Flattening.checks` says where a tree has such mistakes: it puts down the
texts of the tree, with the mistakes in their places. If no statement is abandoned, what is noted
are these mistakes, in the order of the text, and nothing else (`Parsing.checks_exact`).
-/

namespace Lox

/-! ### The texts of a tree -/

/-- The texts of parts of two kinds, each kind in its order. -/
def Leaf.mixed (xs ys : List (Language Leaf)) : Language Leaf :=
  {w | ∃ parts : List (Bool × Language Leaf),
    (parts.filter fun p => !p.1).map Prod.snd = xs ∧ (parts.filter Prod.fst).map Prod.snd = ys ∧
      w ∈ (parts.map Prod.snd).prod}

/-- A tree is put down as its texts, with the mistakes that the context checks find in it. The
methods of the objects of a class and those of the class itself may be mixed. -/
def Flattening.checks : Flattening (Language Leaf) where
  row := List.prod
  word t := {[.word t]}
  constant value := {[.constant value]}
  jump c keyword := {.jump keyword :: c.misplaced keyword}
  classWord := {[.classWord]}
  list mistake parts := (parts.take maxArity).prod *
    (if maxArity < parts.length then {[.flaw mistake]} else 1) * (parts.drop maxArity).prod
  members := Leaf.mixed

theorem Leaf.flatten_mem_prod {ws : List (List Leaf)} {parts : List (Language Leaf)}
    (h : List.Forall₂ (· ∈ ·) ws parts) : ws.flatten ∈ parts.prod := by
  induction h with
  | nil => exact Language.nil_mem_one
  | cons hw _ ih =>
    rw [List.flatten_cons, List.prod_cons]
    exact Language.append_mem_mul hw ih

/-- The members of a class body that repeats no name are mixed from the two lists. -/
theorem Member.mem_mixed_of_mem_prod {ms : List Member} (hms : Distinct ms)
    (flat : Bool → Definition → Language Leaf) {w : List Leaf}
    (hw : w ∈ (ms.map fun m => flat m.ofClass m.definition).prod) :
    w ∈ Leaf.mixed ((collect false ms).map (flat false)) ((collect true ms).map (flat true)) := by
  refine ⟨ms.map fun m => (m.ofClass, flat m.ofClass m.definition), ?_, ?_, ?_⟩
  · rw [hms.map_collect, List.filter_map, List.map_map]
    simp [Function.comp_def]
  · rw [hms.map_collect, List.filter_map, List.map_map]
    simp [Function.comp_def]
  · rwa [List.map_map]

theorem Flattening.checks_accounts :
    checks.Accounts Member.Distinct (fun w (l : Language Leaf) => w ∈ l) where
  row h := Leaf.flatten_mem_prod h
  word t := rfl
  constant value := rfl
  jump c keyword := rfl
  classWord := rfl
  list mistake ws parts h := by
    rw [Leaf.crowded, h.length_eq]
    refine Language.append_mem_mul (Language.append_mem_mul
      (Leaf.flatten_mem_prod (List.forall₂_take maxArity h)) ?_)
      (Leaf.flatten_mem_prod (List.forall₂_drop maxArity h))
    split
    · rfl
    · exact Language.nil_mem_one
  members {ms} hms flat ws h :=
    Member.mem_mixed_of_mem_prod hms (fun b d => checks.member b (flat d))
      (Leaf.flatten_mem_prod h)

/-! ### Programs -/

namespace Parsing

/-- **The context checks are exact.** If no statement at the top level is abandoned and no class
body repeats a name in one of its lists, the mistakes that are noted are those of the program, and
its leaves are those of the tokens in front of the end: both stand in one text of the program. -/
theorem checks_exact (ts : List Token) (hunbroken : Unbroken ts)
    (hbodies : ClassBodies Member.Distinct ts) :
    ∃ w ∈ (Stmt.allFlat .checks .outermost (Parsed.ofTokens ts).program).prod,
      (w.filter fun l => l.flaw?.isNone) =
        (ts.takeWhile fun t => !t.kind.isEof).filterMap Token.leaf? ∧
      (Parsed.ofTokens ts).errors.map GrammarError.mistake = w.filterMap Leaf.flaw? := by
  obtain ⟨w, hw, hretells⟩ := retold Flattening.checks_accounts hbodies hunbroken
  exact ⟨w, hw, hretells.kept, hretells.flaws.symm⟩

/-- A `break` in a method, which is a mistake, and one in a loop of a method of the class itself,
which is none. -/
theorem checks_exact_methods :
    let ts := [Symbol.classWord.token 1, ⟨.identifier, "A", 1⟩, Symbol.leftBrace.token 1,
        ⟨.identifier, "m", 2⟩] ++
      [Symbol.leftParen, .rightParen, .leftBrace, .breakWord, .semicolon, .rightBrace,
        .classWord].map (Symbol.token 2) ++ [⟨.identifier, "m", 3⟩] ++
      [Symbol.leftParen, .rightParen, .leftBrace, .whileWord, .leftParen, .nilWord, .rightParen,
        .breakWord, .semicolon, .rightBrace, .rightBrace].map (Symbol.token 3)
    Unbroken ts ∧ ClassBodies Member.Distinct ts ∧
      (Parsed.ofTokens ts).errors = [⟨2, .jumpOutsideLoop "break"⟩] ∧
      ∃ w ∈ (Stmt.allFlat .checks .outermost (Parsed.ofTokens ts).program).prod,
        (w.filter fun l => l.flaw?.isNone) =
          (ts.takeWhile fun t => !t.kind.isEof).filterMap Token.leaf? ∧
        (Parsed.ofTokens ts).errors.map GrammarError.mistake = w.filterMap Leaf.flaw? := by
  intro ts
  have hround : (start ts).round.map Parsing.atEnd = some (some true) := by decide +kernel
  have hread : (Job.declaration.read .outermost (.ofTokens ts)).value?.isSome = true := by
    decide +kernel
  obtain ⟨q, hq, hend⟩ := Option.map_eq_some_iff.mp hround
  obtain ⟨stmt, hstmt⟩ := Option.isSome_iff_exists.mp hread
  have hunbroken : Unbroken ts := by
    intro p hp hleft
    obtain rfl | ⟨q', ⟨-, hq'⟩, hreaches⟩ := Relation.ReflTransGen.cases_head hp
    · obtain ⟨d, hd⟩ := Job.perform_of_value? (Desk.new_shows ts) hstmt
      exact ⟨stmt, d, hd⟩
    · cases hq.symm.trans hq'
      obtain rfl | ⟨_, ⟨hleft', -⟩, -⟩ := Relation.ReflTransGen.cases_head hreaches
      · cases hleft.symm.trans hend
      · cases hleft'.symm.trans hend
  have hbodies : ClassBodies Member.Distinct ts := by
    have hplaces : ∀ k ≤ (Cursor.ofTokens ts).size, ∀ inLoop inFunction inClass,
        ∀ ms ∈ (Job.members.read ⟨inLoop, inFunction, inClass⟩
          (Cursor.skip^[k] (.ofTokens ts))).value?, Member.Distinct ms := by decide +kernel
    exact classBodies_of_places fun k hk c => hplaces k hk c.inLoop c.inFunction c.inClass
  exact ⟨hunbroken, hbodies, by decide +kernel, checks_exact ts hunbroken hbodies⟩

end Parsing

end Lox
