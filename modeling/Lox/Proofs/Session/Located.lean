import Lox.Proofs.Machine.Blamed
import Lox.Proofs.Program.Placed
import Lox.Proofs.Program.Trait

/-!
# Reported lines point into the text

What is reported of a text that is run in a fresh session has a line of that text, unless it is a
failure of the output (`Session.reported_located`): faults and tokens are on the lines of the text,
mistakes on the lines of tokens, and a fault of the running program, however deep in calls it
arises, on the line of a token that the program keeps.
-/

namespace Lox

/-! ### Lines of a text -/

/-- A line of a text, counted from one. -/
def IsLineOf (source : String) (line : Nat) : Prop :=
  1 ≤ line ∧ line ≤ 1 + source.toList.count '\n'

/-- The line of an item. -/
def Item.line : Item → Nat
  | token t => t.line
  | fault e => e.line

theorem Item.line_of_ofPiece? {line : Nat} {p : Piece} {item : Item}
    (h : ofPiece? line p = some item) : item.line = line := by
  unfold ofPiece? at h
  split at h
  · cases h
  · obtain rfl := Option.some.inj h
    rfl
  · obtain rfl := Option.some.inj h
    rfl

/-- Items are on the lines of the pieces that they are made of. -/
theorem Item.line_of_mem_ofPieces (ps : List Piece) (line : Nat) :
    ∀ item ∈ ofPieces line ps, line ≤ item.line ∧ item.line ≤ line + newlines ps := by
  induction ps generalizing line with
  | nil => exact List.forall_mem_singleton.mpr ⟨Nat.le_refl _, Nat.le_add_right ..⟩
  | cons p ps ih =>
    have hcount : newlines (p :: ps) = p.text.count '\n' + newlines ps := by
      rw [newlines, List.flatMap_cons, List.count_append]
      rfl
    have hlater : ∀ item ∈ ofPieces (line + p.text.count '\n') ps,
        line ≤ item.line ∧ item.line ≤ line + newlines (p :: ps) := by
      intro item hitem
      have := ih (line + p.text.count '\n') item hitem
      omega
    rw [ofPieces]
    split
    · rename_i item hitem
      have hline := line_of_ofPiece? hitem
      exact List.forall_mem_cons.mpr ⟨by omega, hlater⟩
    · exact hlater

theorem isLineOf_of_mem_scan {source : String} {item : Item} (h : item ∈ scan source) :
    IsLineOf source item.line := by
  have hline := Item.line_of_mem_ofPieces _ 1 item h
  rwa [Item.newlines, flatMap_text_pieces] at hline

theorem isLineOf_of_mem_tokens {source : String} {t : Token} (h : t ∈ tokens source) :
    IsLineOf source t.line := by
  obtain ⟨item, hitem, htoken⟩ := List.mem_filterMap.mp h
  cases item with
  | token t' =>
    obtain rfl := Option.some.inj htoken
    exact isLineOf_of_mem_scan hitem
  | fault e => cases htoken

theorem isLineOf_of_mem_faults {source : String} {e : LexicalError} (h : e ∈ faults source) :
    IsLineOf source e.line := by
  obtain ⟨item, hitem, hfault⟩ := List.mem_filterMap.mp h
  cases item with
  | token t => cases hfault
  | fault e' =>
    obtain rfl := Option.some.inj hfault
    exact isLineOf_of_mem_scan hitem

namespace Session

/-! ### Errors of a program -/

variable {source : String}

/-- The sites of a program are tokens of its text. -/
theorem mem_tokens_of_mem_sites (h : rejections source = []) :
    ∀ t ∈ Stmt.allSites (program source), t ∈ tokens source := by
  have hhas : Stmt.AllHave (.atSites (· ∈ tokensWithoutEnd source)) (program source) :=
    has_program ⟨trivial, fun _ => trivial⟩ h fun t ht => ⟨ht, fun _ => trivial⟩
  intro t ht
  obtain ⟨eof, -, -, htokens⟩ := tokens_eq_append source
  rw [htokens]
  exact List.mem_append_left _ (Stmt.allHave_atSites _ |>.mp hhas t ht)

/-- What a diagnostic says about the place of an error in a text. -/
structure Locates (source : String) (d : Diagnostic) : Prop where
  /-- A failure of the output has no line. -/
  output : d.stage = .output → d.line = 0
  /-- All else is on a line of the text. -/
  inText : d.stage ≠ .output → IsLineOf source d.line
  /-- A mistake is on the line of a token. -/
  grammar : d.stage = .grammar → ∃ t ∈ tokens source, d.line = t.line
  /-- A fault of the program is on the line of a token of the text that the program keeps. -/
  runtime : d.stage = .runtime →
    ∃ t ∈ Stmt.allSites (program source), t ∈ tokens source ∧ d.line = t.line

theorem locates_of_mem_rejections :
    ∀ d ∈ rejections source, Locates source d := by
  intro d hd
  unfold rejections at hd
  split at hd
  · obtain ⟨e, he, rfl⟩ := List.mem_map.mp hd
    obtain ⟨t, ht, hline⟩ := Parsed.line_of_mem_errors e he
    have hdiagnostic : e.diagnostic.line = t.line := hline
    refine ⟨Stage.noConfusion, fun _ => ?_, fun _ => ⟨t, ht, hdiagnostic⟩, Stage.noConfusion⟩
    rw [hdiagnostic]
    exact isLineOf_of_mem_tokens ht
  · obtain ⟨e, he, rfl⟩ := List.mem_map.mp hd
    exact ⟨Stage.noConfusion, fun _ => isLineOf_of_mem_faults he, Stage.noConfusion,
      Stage.noConfusion⟩

theorem locates_of_blames (h : rejections source = []) {e : RuntimeError}
    (he : (Trait.atSites (· ∈ Stmt.allSites (program source))).Blames e) :
    Locates source e.diagnostic := by
  cases e with
  | outputClosed =>
    exact ⟨fun _ => rfl, fun hne => absurd rfl hne, Stage.noConfusion, Stage.noConfusion⟩
  | fault line cause =>
    obtain ⟨t, ht, rfl⟩ := he
    have hmem := mem_tokens_of_mem_sites h t ht
    exact ⟨Stage.noConfusion, fun _ => isLineOf_of_mem_tokens hmem, Stage.noConfusion,
      fun _ => ⟨t, ht, hmem, rfl⟩⟩

/-- **Reported lines point into the text.** -/
theorem reported_located {host : Host} {n : Nat} {output : Channel} {reported : List Diagnostic}
    {s : Session} (h : run host n source (.initial output) = some (reported, s)) :
    ∀ d ∈ reported, Locates source d := by
  unfold run at h
  split at h
  · rename_i hr
    have hsites : Stmt.AllHave (.atSites (· ∈ Stmt.allSites (program source))) (program source) :=
      (Stmt.allHave_atSites _).mpr fun _ ht => ht
    have hends := Run.interpret_blames host n hsites (Machine.carries_initial output)
    split at h
    · obtain ⟨rfl, -⟩ := Prod.mk.inj (Option.some.inj h)
      exact List.forall_mem_nil _
    · rename_i e m hfailed
      obtain ⟨rfl, -⟩ := Prod.mk.inj (Option.some.inj h)
      have hrun : Run.interpret host n (program source) (.initial output) = .failed e m := hfailed
      rw [hrun] at hends
      exact List.forall_mem_singleton.mpr (locates_of_blames hr hends)
    · cases h
  · obtain ⟨rfl, -⟩ := Prod.mk.inj (Option.some.inj h)
    exact locates_of_mem_rejections

/-- A method that fails on its third line, called by a function without a name. -/
def failingMethod : String :=
  "class A \x7b\n go() \x7b\n return nil.x; \x7d \x7d\nvar f = fun () -> A().go();\nf();"

/-- A fault in a method, which a function without a name calls on the last line. -/
theorem reported_located_method : ∃ reported s,
    run (.ofSeed 0 0) 30 failingMethod (.initial (.ofLimit none)) = some (reported, s) ∧
    reported.map Diagnostic.report = [(3, "Only access fields of objects.")] ∧
    ∀ d ∈ reported, Locates failingMethod d := by
  have hran : ((run (.ofSeed 0 0) 30 failingMethod (.initial (.ofLimit none))).map fun ran =>
      ran.1.map Diagnostic.report) = some [(3, "Only access fields of objects.")] := by
    decide +kernel
  obtain ⟨⟨reported, s⟩, h, hreported⟩ := Option.map_eq_some_iff.mp hran
  exact ⟨reported, s, h, hreported, reported_located h⟩

end Session

end Lox
