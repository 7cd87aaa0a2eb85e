import Lox.Proofs.Program.Fresh
import Lox.Proofs.Program.Phrase

/-!
# Mistakes in a simple statement

A **simple** statement is an expression, a variable or a `print`, up to a semicolon, and made of
tokens of which none but the first could start a statement. Whatever is wrong with it, the tokens
behind its semicolon are read as if it were not there (`simple_statement_contained`): no part of an
expression passes a semicolon, so that the statement is abandoned at the semicolon or in front of
it, and reading is taken up right behind.
-/

namespace Lox

/-- Whether a statement is abandoned for a mistake. -/
def Mistake.abandons : Mistake → Bool
  | jumpOutsideLoop _ | returnOutsideFunction | tooManyParameters | tooManyArguments => false
  | _ => true

namespace Token

/-- Whether a token can stand inside a simple statement: it is no semicolon, no statement starts
with it, and the input does not end with it. -/
def isInner (t : Token) : Bool :=
  match t.kind with
  | .symbol x => x != .semicolon && !Cursor.startsStatement x
  | .eof => false
  | _ => true

/-- Whether a simple statement may start with a token. -/
def opensSimple (t : Token) : Bool :=
  t.is .printWord || t.is .varWord || t.isInner

end Token

/-- Whether a job reads a part of a simple statement: `false` stands for a part of an expression,
`true` for the statement up to its semicolon. -/
def Job.ofSimple : Job → Option Bool
  | expression _ | operands .. | trailers _ | arguments | argumentList _ | primary => some false
  | declaration | statement | expressionStatement | variableDefinition => some true
  | _ => none

/-- Whether a script stays in a simple statement, and with `closed` passes its semicolon last. -/
def Script.StaysIn {α : Type} (closed : Bool) : Script α → Prop
  | done _ => closed = false
  | take p found absent =>
    (∀ t, p t = true → (t.opensSimple = true → (found t).StaysIn closed) ∧
      (t.kind = .symbol .semicolon → closed = true ∧ ∃ x, found t = done x)) ∧ absent.StaysIn closed
  | look next stop => (∀ t, (next t).StaysIn closed) ∧ stop.StaysIn closed
  | report _ _ mistake rest => mistake = .tooManyArguments ∧ rest.StaysIn closed
  | fail _ mistake => mistake.abandons = true
  | ask _ rest => ∀ b, (rest b).StaysIn closed
  | start _ j rest => j.ofSimple = some false ∧ (∀ x, (rest x).StaysIn closed) ∨
    closed = true ∧ j.ofSimple = some true ∧ ∀ x, ∃ y, rest x = done y

theorem Token.opensSimple_of_kind {t : Token} {x : Symbol} (h : t.kind = .symbol x) :
    t.opensSimple = (x == .printWord || x == .varWord ||
      x != .semicolon && !Cursor.startsStatement x) := by
  simp [opensSimple, isInner, is, h]

theorem Token.ne_semicolon_of_isIdentifier {t : Token} (h : t.isIdentifier = true) :
    t.kind ≠ .symbol .semicolon := by
  intro hk
  simp [isIdentifier, hk] at h

theorem Token.ne_semicolon_of_atom? {t : Token} (h : t.atom?.isSome = true) :
    t.kind ≠ .symbol .semicolon := by
  intro hk
  simp [atom?, hk] at h

theorem Tier.ne_semicolon_of_admits {tier : Tier} {t : Token} (h : tier.admits t = true) :
    t.kind ≠ .symbol .semicolon := by
  intro hk
  simp [admits, hk, ofSymbol?] at h

theorem Job.staysIn {j : Job} {closed : Bool} (h : j.ofSimple = some closed) :
    j.script.StaysIn closed := by
  cases j with
  | expression l =>
    cases h
    cases l with
    | assignment =>
      simp only [script, Script.ofLevel, Script.part, Script.accept, Script.StaysIn, ofSimple]
      refine .inl ⟨trivial, fun target =>
        ⟨fun equal hequal => ⟨fun _ => .inl ⟨trivial, fun value => ?_⟩, fun hk => ?_⟩, trivial⟩⟩
      · cases target.assigned? value <;> simp [Script.StaysIn, Mistake.abandons]
      · simp [Token.is_of_kind hk] at hequal
    | _ =>
      simp +contextual [Script.StaysIn, ofSimple, Token.is_iff, Mistake.abandons, or_imp]
  | operands t left =>
    cases h
    simp only [script, Script.ofOperands, Script.part, Script.StaysIn, ofSimple]
    exact ⟨fun operator hadmits =>
      ⟨fun _ => .inl ⟨trivial, fun _ => .inl ⟨trivial, fun _ => trivial⟩⟩,
        fun hk => absurd hk (Tier.ne_semicolon_of_admits hadmits)⟩, trivial⟩
  | trailers | arguments | argumentList | primary | declaration | statement | expressionStatement
  | variableDefinition =>
    cases h
    simp +contextual [Script.StaysIn, ofSimple, Token.is_iff, Mistake.abandons, or_imp, forall_and,
      Token.opensSimple_of_kind, Cursor.startsStatement, Token.ne_semicolon_of_isIdentifier,
      Token.ne_semicolon_of_atom?]
  | _ => cases h

/-! ### Reading in a simple statement -/

section
variable {semicolon : Token} {behind ts : List Token}

/-- The tokens that are left are the last ones of `ts`, a semicolon, and the tokens behind it. -/
def Cursor.Within (ts : List Token) (semicolon : Token) (behind : List Token) (s : Cursor) : Prop :=
  ∃ ts', ts' <:+ ts ∧ s.rest = ts' ++ semicolon :: behind

/-- What comes of reading in tokens `ts` and a semicolon. A mistake leaves the semicolon; what is
read leaves it too, or with `closed` has it at its end. There may be reports that a call has too
many arguments, and no others. -/
def Readout.StaysIn {α : Type} (closed : Bool) (ts : List Token) (semicolon : Token)
    (behind : List Token) : Readout α → Prop
  | read _ s reports =>
    (if closed then s.rest = behind else s.Within ts semicolon behind) ∧
      ∀ e ∈ reports, e.mistake = .tooManyArguments
  | broken e s reports =>
    s.Within ts semicolon behind ∧ e.mistake.abandons = true ∧
      ∀ e ∈ reports, e.mistake = .tooManyArguments

theorem Readout.StaysIn.note {α : Type} {r : Readout α} {closed : Bool}
    (h : r.StaysIn closed ts semicolon behind) {reports : List GrammarError}
    (hreports : ∀ e ∈ reports, e.mistake = .tooManyArguments) :
    (r.note reports).StaysIn closed ts semicolon behind := by
  cases r with
  | read x s own =>
    exact ⟨h.1, fun e he => (List.mem_append.mp he).elim (hreports e) (h.2 e)⟩
  | broken e s own =>
    exact ⟨h.1, h.2.1, fun e he => (List.mem_append.mp he).elim (hreports e) (h.2.2 e)⟩

/-- A script that stays in a simple statement yields something in it. -/
theorem Script.Yields.staysIn (hsemicolon : semicolon.kind = .symbol .semicolon)
    (hts : ∀ t ∈ ts, t.opensSimple = true) {n : Nat} {c : Context} {α : Type} {p : Script α}
    {s : Cursor} {r : Readout α} (h : Yields n c p s r) {closed : Bool} (hp : p.StaysIn closed)
    (hs : s.Within ts semicolon behind) : r.StaysIn closed ts semicolon behind := by
  induction h generalizing closed with
  | done =>
    cases hp
    exact ⟨hs, by simp⟩
  | @found n c α p found absent s t ts₀ r hrest ht h ih =>
    obtain ⟨hinner, hclose⟩ := hp.1 t ht
    obtain ⟨ts', hsuffix, heq⟩ := hs
    have hskip : s.skip.rest = ts₀ := by rw [Cursor.skip, hrest]
    rw [hrest] at heq
    cases ts' with
    | nil =>
      obtain ⟨rfl, rfl⟩ := List.cons.inj heq
      obtain ⟨rfl, x, hdone⟩ := hclose hsemicolon
      rw [hdone] at h
      cases h
      exact ⟨hskip, by simp⟩
    | cons t' ts' =>
      obtain ⟨rfl, rfl⟩ := List.cons.inj heq
      exact ih (hinner (hts t (hsuffix.subset List.mem_cons_self)))
        ⟨ts', (List.suffix_cons t ts').trans hsuffix, hskip⟩
  | absent _ _ ih | stop _ _ ih => exact ih hp.2 hs
  | look _ _ ih => exact ih (hp.1 _) hs
  | ask _ ih => exact ih (hp _) hs
  | report _ ih =>
    refine (ih hp.2 hs).note fun e he => ?_
    split at he
    · rw [List.mem_singleton.mp he]
      exact hp.1
    · exact absurd he List.not_mem_nil
  | fail => exact ⟨hs, hp, by simp⟩
  | @read n c α a j rest s s' x reports r _ hj h ihj ih =>
    obtain ⟨hinner, hrest⟩ | ⟨rfl, hclosed, hrest⟩ := hp
    · obtain ⟨hs', hreports⟩ := ihj (Job.staysIn hinner) hs
      exact (ih (hrest x) hs').note hreports
    · obtain ⟨hs', hreports⟩ := ihj (Job.staysIn hclosed) hs
      obtain ⟨y, hdone⟩ := hrest x
      rw [hdone] at h
      cases h
      exact ⟨hs', by simpa using hreports⟩
  | broken _ hj ihj =>
    obtain ⟨hinner, -⟩ | ⟨rfl, hclosed, -⟩ := hp
    · exact ihj (Job.staysIn hinner) hs
    · exact ihj (Job.staysIn hclosed) hs

end

/-! ### Behind the semicolon -/

section
variable {first semicolon : Token} {others behind : List Token} {s : Cursor}

/-- Where the tokens up to a semicolon could all stand inside a simple statement, reading is taken
up behind the semicolon. -/
theorem Cursor.rest_resume (hsemicolon : semicolon.kind = .symbol .semicolon) {ts : List Token}
    (hts : ∀ t ∈ ts, t.isInner = true) (hs : s.rest = ts ++ semicolon :: behind) :
    s.resume.rest = behind := by
  suffices hgo : ∀ lastLine, (resume.go s lastLine (ts ++ semicolon :: behind)).rest = behind by
    rw [resume, hs]
    exact hgo s.lastLine
  clear hs
  induction ts with
  | nil => exact fun _ => by simp [resume.go, hsemicolon]
  | cons t ts ih =>
    intro lastLine
    have hlater := ih (fun t' ht' => hts t' (List.mem_cons_of_mem t ht')) t.line
    have ht := hts t List.mem_cons_self
    rw [List.cons_append, resume.go]
    cases hkind : t.kind with
    | symbol x =>
      obtain ⟨hne, hstarts⟩ : x ≠ .semicolon ∧ startsStatement x = false := by
        simpa [Token.isInner, hkind] using ht
      simpa only [if_neg hne, hstarts, Bool.false_eq_true, if_false] using hlater
    | eof => simp [Token.isInner, hkind] at ht
    | _ => exact hlater

/-- A statement that starts with a simple statement's tokens and is abandoned is abandoned within
them, and reading is taken up behind the semicolon. -/
theorem Cursor.rest_recover (hsemicolon : semicolon.kind = .symbol .semicolon)
    (hothers : ∀ t ∈ others, t.isInner = true)
    (hs : s.rest = first :: others ++ semicolon :: behind) {s' : Cursor}
    (hs' : s'.Within (first :: others) semicolon behind) : (s.recover s').rest = behind := by
  rw [recover]
  split
  · next hsize =>
    exact rest_resume hsemicolon hothers (by rw [skip, hs]; rfl)
  · next hsize =>
    obtain ⟨ts, hsuffix, hrest⟩ := hs'
    obtain rfl | hsuffix := List.suffix_cons_iff.mp hsuffix
    · exact absurd (by rw [size, size, hrest, hs]) hsize
    · exact rest_resume hsemicolon (fun t ht => hothers t (hsuffix.subset ht)) hrest

/-- What can be found in a simple statement: one statement and no mistake for which it would be
abandoned, or nothing and one such mistake, found last. Besides there may be reports that a call has
too many arguments, and nothing else. -/
def Parsed.OfOne (program : List Stmt) (errors : List GrammarError) : Prop :=
  (∃ stmt, program = [stmt] ∧ ∀ e ∈ errors, e.mistake = .tooManyArguments) ∨
    program = [] ∧ ∃ reports e, errors = reports ++ [e] ∧ e.mistake.abandons = true ∧
      ∀ e ∈ reports, e.mistake = .tooManyArguments

/-- In front of a simple statement, the program is that statement and what is read behind it. -/
theorem Parsed.ofCursor_of_simple (hsemicolon : semicolon.kind = .symbol .semicolon)
    (hfirst : first.opensSimple = true) (hothers : ∀ t ∈ others, t.isInner = true)
    (hs : s.rest = first :: others ++ semicolon :: behind) :
    ∃ s' program errors, s'.rest = behind ∧ s'.endLine = s.endLine ∧
      ofCursor s = (ofCursor s').prepend program errors ∧ OfOne program errors := by
  have hts : ∀ t ∈ first :: others, t.opensSimple = true := by
    simp only [List.forall_mem_cons]
    exact ⟨hfirst, fun t ht => by simp [Token.opensSimple, hothers t ht]⟩
  have hmoves := Job.moves .outermost .declaration s
  have hin := (Job.declaration.yields .outermost s).staysIn hsemicolon hts (Job.staysIn rfl)
    ⟨_, List.suffix_refl _, hs⟩
  cases hr : Job.declaration.read .outermost s with
  | read stmt s' reports =>
    rw [hr] at hmoves hin
    exact ⟨s', [stmt], reports, hin.1, hmoves.endLine_eq, ofCursor_of_read hr,
      .inl ⟨stmt, rfl, hin.2⟩⟩
  | broken e s' reports =>
    rw [hr] at hmoves hin
    obtain ⟨hwithin, habandons, hreports⟩ := hin
    exact ⟨s.recover s', [], reports ++ [e], Cursor.rest_recover hsemicolon hothers hs hwithin,
      (Cursor.moves_recover hmoves).endLine_eq, ofCursor_of_broken hs hr,
      .inr ⟨rfl, reports, e, rfl, habandons, hreports⟩⟩

/-- In front of tokens with a mark of the end, further tokens are read before them. -/
theorem Cursor.ofTokens_append {ts ts' : List Token} (hts : ∀ t ∈ ts, t.kind.isEof = false)
    (hend : ∃ t ∈ ts', t.kind.isEof = true) :
    (ofTokens (ts ++ ts')).rest = ts ++ (ofTokens ts').rest ∧
      (ofTokens (ts ++ ts')).endLine = (ofTokens ts').endLine := by
  obtain ⟨eof, heof⟩ := Option.isSome_iff_exists.mp (List.find?_isSome.mpr hend)
  have hfind : (ts ++ ts').find? (fun t => t.kind.isEof) = some eof := by
    rw [List.find?_append, List.find?_eq_none.mpr (by simpa using hts), heof]
    rfl
  exact ⟨List.takeWhile_append_of_pos (by simpa using hts), by simp only [ofTokens, hfind, heof]⟩

theorem Token.isEof_of_opensSimple {t : Token} (h : t.opensSimple = true) :
    t.kind.isEof = false := by
  cases hkind : t.kind with
  | eof => simp [opensSimple, isInner, is, hkind] at h
  | _ => rfl

/-- **A mistake in a simple statement does not reach the next one.** Whatever the tokens in front of
a semicolon are, if none but the first could start a statement, the tokens behind it are read as
they would be read alone. In front of what is found there stands one statement, or none and the one
mistake for which it was abandoned; besides it may be reported that calls have too many
arguments. -/
theorem simple_statement_contained (first : Token) (others : List Token) (semicolon : Token)
    (behind : List Token) (hfirst : first.opensSimple = true)
    (hothers : ∀ t ∈ others, t.isInner = true) (hsemicolon : semicolon.kind = .symbol .semicolon)
    (hend : ∃ t ∈ behind, t.kind.isEof = true) :
    ∃ program errors,
      Parsed.ofTokens (first :: others ++ [semicolon] ++ behind) =
        (Parsed.ofTokens behind).prepend program errors ∧ Parsed.OfOne program errors := by
  have hplain : ∀ t ∈ first :: others ++ [semicolon], t.kind.isEof = false := by
    intro t ht
    obtain ht | ht := List.mem_append.mp ht
    · obtain rfl | ht := List.mem_cons.mp ht
      · exact Token.isEof_of_opensSimple hfirst
      · exact Token.isEof_of_opensSimple (by simp [Token.opensSimple, hothers t ht])
    · rw [List.mem_singleton.mp ht, hsemicolon]
      rfl
  obtain ⟨hrest, hendLine⟩ := Cursor.ofTokens_append hplain hend
  rw [List.append_assoc (first :: others) [semicolon] (Cursor.ofTokens behind).rest] at hrest
  obtain ⟨s', program, errors, hs', hendLine', heq, hone⟩ :=
    Parsed.ofCursor_of_simple hsemicolon hfirst hothers hrest
  refine ⟨program, errors, ?_, hone⟩
  have hagrees : s'.Agrees (.ofTokens behind) := ⟨hs'.symm, by rw [hendLine', hendLine]⟩
  rw [Parsed.ofTokens, heq, Parsed.ofTokens, Parsed.ofCursor_agrees hagrees]

/-- In `print ( ) ;` the missing expression does not hide the statement on the next line. -/
theorem simple_statement_contained_print :
    let opening := Symbol.printWord.token 1
    let others := [Symbol.leftParen, .rightParen].map (Symbol.token 1)
    let behind := [Symbol.nilWord, .semicolon].map (Symbol.token 2) ++ [⟨.eof, "", 2⟩]
    opening.opensSimple = true ∧ (∀ t ∈ others, t.isInner = true) ∧
      ∃ program errors,
        Parsed.ofTokens (opening :: others ++ [Symbol.semicolon.token 1] ++ behind) =
          (Parsed.ofTokens behind).prepend program errors ∧ Parsed.OfOne program errors :=
  ⟨rfl, by decide, simple_statement_contained _ _ _ _ rfl (by decide) rfl
    ⟨⟨.eof, "", 2⟩, List.mem_append_right _ List.mem_cons_self, rfl⟩⟩

end

end Lox
