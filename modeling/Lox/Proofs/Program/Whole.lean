import Lox.Proofs.Program.Retold
import Lox.Proofs.Program.Legal

/-!
# Programs are made of their tokens

A program that is read without a mistake, and in which no class body repeats a name or mixes its
members, has the names, constants and operators of its tokens, each once and in their order
(`Parsing.made_of_tokens`). The tree is read in the order of its text by `Stmt.leaves`; a list of
members that repeats a name, or in which a method of the objects comes behind one of the class,
is not kept as it is written.
-/

namespace Lox

/-! ### The leaves of a tree -/

/-- Whether a leaf is a name, `this`, a constant or an operator. -/
def Leaf.isContent : Leaf → Bool
  | word _ | constant _ => true
  | _ => false

/-- A tree is put down as its names, constants and operators. The methods of the objects of a class
come in front of those of the class itself. -/
def Flattening.leaves : Flattening (List Leaf) where
  row := List.flatten
  word t := [.word t]
  constant value := [.constant value]
  jump _ _ := []
  classWord := []
  list _ parts := parts.flatten
  members methods classMethods := methods.flatten ++ classMethods.flatten

/-- The names, constants and operators of statements, in the order of their text. -/
def Stmt.leaves (program : List Stmt) : List Leaf :=
  (Stmt.allFlat .leaves .outermost program).flatten

namespace Member

/-- No method of the objects of a class comes behind one of the class itself. -/
def Sorted (ms : List Member) : Prop :=
  ms.Pairwise fun m m' => m.ofClass = true → m'.ofClass = true

instance (ms : List Member) : Decidable (Sorted ms) :=
  inferInstanceAs (Decidable (List.Pairwise _ _))

theorem Sorted.filter_append {ms : List Member} (h : Sorted ms) :
    (ms.filter fun m => m.ofClass == false) ++ (ms.filter fun m => m.ofClass == true) = ms := by
  induction h with
  | nil => rfl
  | @cons m ms hm _ ih =>
    cases hclass : m.ofClass with
    | false => simpa [hclass] using ih
    | true =>
      have hlater : ∀ m' ∈ ms, m'.ofClass = true := fun m' hm' => hm m' hm' hclass
      have hnone : (ms.filter fun m => m.ofClass == false) = [] :=
        List.filter_eq_nil_iff.mpr fun m' hm' => by simp [hlater m' hm']
      rw [hnone, List.nil_append] at ih
      rw [List.filter_cons_of_neg (by simp [hclass]), List.filter_cons_of_pos (by simp [hclass]),
        hnone, List.nil_append, ih]

end Member

theorem Leaf.filter_flatten {ws : List (List Leaf)} {parts : List (List Leaf)}
    (h : List.Forall₂ (fun w l => w.filter isContent = l) ws parts) :
    ws.flatten.filter isContent = parts.flatten := by
  induction h with
  | nil => rfl
  | cons hw _ ih => rw [List.flatten_cons, List.filter_append, hw, ih, List.flatten_cons]

theorem Flattening.leaves_accounts :
    leaves.Accounts (fun ms => Member.Distinct ms ∧ Member.Sorted ms)
      fun w l => w.filter Leaf.isContent = l where
  row h := Leaf.filter_flatten h
  word t := rfl
  constant value := rfl
  jump c keyword := by
    unfold Context.misplaced
    split <;> split <;> rfl
  classWord := rfl
  list mistake ws parts h := by
    have hflaw : (if maxArity < ws.length then [Leaf.flaw mistake] else []).filter
        Leaf.isContent = [] := by split <;> rfl
    rw [Leaf.crowded, List.filter_append, List.filter_append, hflaw, List.append_nil,
      ← List.filter_append, ← List.flatten_append, List.take_append_drop]
    exact Leaf.filter_flatten h
  members {ms} hms flat ws h := by
    obtain ⟨hdistinct, hsorted⟩ := hms
    have hlist (b : Bool) :
        (Member.collect b ms).map (fun d => leaves.member b (flat d)) =
          (ms.filter fun m => m.ofClass == b).map fun m =>
            leaves.member m.ofClass (flat m.definition) :=
      hdistinct.map_collect fun b d => leaves.member b (flat d)
    have hall : (ms.map fun m => leaves.member m.ofClass (flat m.definition)) =
        ((Member.collect false ms).map fun d => leaves.member false (flat d)) ++
          (Member.collect true ms).map fun d => leaves.member true (flat d) := by
      rw [hlist, hlist, ← List.map_append, hsorted.filter_append]
    rw [Leaf.filter_flatten h, hall, List.flatten_append]
    rfl

/-! ### Programs -/

namespace Parsing

/-- **A program is made of its tokens.** If a list of tokens is read without a mistake, and no class
body repeats a name in one of its lists or places a method of its objects behind one of its own,
then the names, constants and operators of the program, in the order of its text, are those of the
tokens in front of the end: the same tokens and values in the same order, none lost, none twice. -/
theorem made_of_tokens (ts : List Token) (haccepted : (Parsed.ofTokens ts).errors = [])
    (hbodies : ClassBodies (fun ms => Member.Distinct ms ∧ Member.Sorted ms) ts) :
    Stmt.leaves (Parsed.ofTokens ts).program =
      ((ts.takeWhile fun t => !t.kind.isEof).filterMap Token.leaf?).filter Leaf.isContent := by
  obtain ⟨w, hw, hretells⟩ :=
    retold Flattening.leaves_accounts hbodies (unbroken_of_errors_eq_nil haccepted)
  have hcontent : ∀ l : Leaf, (l.isContent && l.flaw?.isNone) = l.isContent := by
    intro l
    cases l <;> rfl
  rw [← hretells.kept, List.filter_filter]
  simp only [hcontent]
  exact hw.symm

/-- A class with a method of each kind, an assignment to a property, and operators. -/
theorem made_of_tokens_methods :
    let ts := [Symbol.classWord.token 1, ⟨.identifier, "A", 1⟩, Symbol.leftBrace.token 1,
        ⟨.identifier, "m", 2⟩, Symbol.leftParen.token 2, ⟨.identifier, "x", 2⟩] ++
      [Symbol.rightParen, .leftBrace, .thisWord, .dot].map (Symbol.token 2) ++
      [⟨.identifier, "f", 2⟩, Symbol.equal.token 2, ⟨.identifier, "x", 2⟩] ++
      [Symbol.comma, .nilWord, .semicolon, .rightBrace].map (Symbol.token 2) ++
      [Symbol.classWord.token 3, ⟨.identifier, "m", 3⟩] ++
      [Symbol.leftParen, .rightParen, .leftBrace, .rightBrace, .rightBrace].map (Symbol.token 3) ++
      [Symbol.printWord, .bang, .trueWord, .orWord].map (Symbol.token 4) ++
      [⟨.string "s", "s", 4⟩, Symbol.semicolon.token 4]
    (Parsed.ofTokens ts).errors = [] ∧
      ClassBodies (fun ms => Member.Distinct ms ∧ Member.Sorted ms) ts ∧
      Stmt.leaves (Parsed.ofTokens ts).program =
        ((ts.takeWhile fun t => !t.kind.isEof).filterMap Token.leaf?).filter Leaf.isContent := by
  intro ts
  have haccepted : (Parsed.ofTokens ts).errors = [] := by decide +kernel
  have hplaces : ∀ k ≤ (Cursor.ofTokens ts).size, ∀ inLoop inFunction inClass,
      ∀ ms ∈ (Job.members.read ⟨inLoop, inFunction, inClass⟩
        (Cursor.skip^[k] (.ofTokens ts))).value?, Member.Distinct ms ∧ Member.Sorted ms := by
    decide +kernel
  have hbodies : ClassBodies (fun ms => Member.Distinct ms ∧ Member.Sorted ms) ts :=
    classBodies_of_places fun k hk c => hplaces k hk c.inLoop c.inFunction c.inClass
  exact ⟨haccepted, hbodies, made_of_tokens ts haccepted hbodies⟩

end Parsing

end Lox
