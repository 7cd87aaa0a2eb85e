import Lox.Proofs.Program.Legal
import Lox.Proofs.Program.Yields
import Mathlib.Data.List.Induction
import Mathlib.Data.List.Nodup

/-!
# The members of a class body

A class body may define a name more than once, and mix the methods of its objects with those of the
class itself in any order. `Member.WrittenClass` says which members are written in a body, and the
reader puts those with a mark into a list of their own, one after another: a definition takes the
place of an earlier one of its name, or goes to the end (`Member.collect_concat`). Whatever the
members, such a list has each name once, the names in the order in which they first appear with the
mark, and each name with the last definition of it that has the mark (`Member.listed_collect`); no
other list is like that (`Member.Listed.eq_collect`).
-/

namespace Lox

/-! ### What is read, whatever is reported -/

/-- A part was read, and the cursor behind it is known; there may be reports. -/
def Readout.Gives {α : Type} (r : Readout α) (x : α) (s : Cursor) : Prop :=
  ∃ reports, r = .read x s reports

namespace Readout

variable {α β : Type} {x y : α} {s s' : Cursor}

theorem gives_read_iff {reports : List GrammarError} :
    (read x s reports).Gives y s' ↔ y = x ∧ s' = s := by
  constructor
  · rintro ⟨reports', h⟩
    obtain ⟨rfl, rfl, -⟩ := read.inj h
    exact ⟨rfl, rfl⟩
  · rintro ⟨rfl, rfl⟩
    exact ⟨reports, rfl⟩

theorem not_gives_broken {e : GrammarError} {reports : List GrammarError} :
    ¬ (broken e s reports : Readout α).Gives y s' :=
  nofun

theorem gives_note_iff {r : Readout α} {reports : List GrammarError} :
    (r.note reports).Gives y s' ↔ r.Gives y s' := by
  cases r with
  | read x s own => exact gives_read_iff.trans gives_read_iff.symm
  | broken e s own => exact iff_of_false not_gives_broken not_gives_broken

/-- A sequence gives what its second part gives behind its first part. -/
theorem gives_andThen_iff {r : Readout α} {f : α → Cursor → Readout β} {z : β} :
    (r.andThen f).Gives z s' ↔ ∃ x s, r.Gives x s ∧ (f x s).Gives z s' := by
  cases r with
  | read x s own =>
    refine gives_note_iff.trans ⟨fun h => ⟨x, s, ⟨own, rfl⟩, h⟩, ?_⟩
    rintro ⟨x', s₁, hx, h⟩
    obtain ⟨rfl, rfl⟩ := gives_read_iff.mp hx
    exact h
  | broken e s own =>
    exact iff_of_false not_gives_broken fun ⟨_, _, hx, _⟩ => not_gives_broken hx

end Readout

theorem Cursor.rest_skip {s : Cursor} {t : Token} {ts : List Token} (hs : s.rest = t :: ts) :
    s.skip.rest = ts := by
  simp only [skip, hs]

/-- A token that is demanded stands in front of what is read behind it. -/
theorem Script.gives_demanded_iff {α : Type} {c : Context} {p : Token → Bool}
    {found : Token → Script α} {spot : Spot} {mistake : Mistake} {s s' : Cursor} {y : α} :
    ((take p found (fail spot mistake)).follow c s).Gives y s' ↔
      ∃ t, s.rest = t :: s.skip.rest ∧ p t = true ∧ ((found t).follow c s.skip).Gives y s' := by
  cases hs : s.rest with
  | nil =>
    rw [follow, hs]
    refine iff_of_false Readout.not_gives_broken ?_
    rintro ⟨t, heq, -⟩
    cases heq
  | cons t ts =>
    rw [follow, hs, Cursor.rest_skip hs]
    dsimp only
    split
    case isTrue ht =>
      refine ⟨fun h => ⟨t, rfl, ht, h⟩, ?_⟩
      rintro ⟨t', heq, -, h⟩
      rwa [(List.cons.inj heq).1]
    case isFalse ht =>
      refine iff_of_false Readout.not_gives_broken ?_
      rintro ⟨t', heq, ht', -⟩
      exact ht ((List.cons.inj heq).1 ▸ ht')

theorem Token.isIdentifier_iff {t : Token} : t.isIdentifier = true ↔ t.kind = .identifier := by
  unfold isIdentifier
  split <;> simp_all

theorem Token.is_of_isIdentifier {t : Token} (h : t.isIdentifier = true) (x : Symbol) :
    t.is x = false :=
  Token.is_eq_false fun hkind => by rw [Token.isIdentifier_iff.mp h] at hkind; exact nomatch hkind

/-! ### What is written -/

/-- The members of a class behind its opening brace, as they are written: each is a definition, with
`class` in front of it if it belongs to the class itself, and a closing brace stands behind the
last. -/
inductive Member.Written (c : Context) : Cursor → List Member → Cursor → Prop where
  | close {s : Cursor} {closing : Token} {ts : List Token} (hs : s.rest = closing :: ts)
      (hclosing : closing.kind = .symbol .rightBrace) : Written c s [] s.skip
  | method {s s₁ s₂ : Cursor} {d : Definition} {ms : List Member}
      (hd : (Job.definition.read c s).Gives d s₁) (hms : Written c s₁ ms s₂) :
      Written c s (⟨false, d⟩ :: ms) s₂
  | classMethod {s s₁ s₂ : Cursor} {word : Token} {ts : List Token} {d : Definition}
      {ms : List Member} (hs : s.rest = word :: ts) (hword : word.kind = .symbol .classWord)
      (hd : (Job.definition.read c s.skip).Gives d s₁) (hms : Written c s₁ ms s₂) :
      Written c s (⟨true, d⟩ :: ms) s₂

/-- A class behind its keyword, as it is written: a name, and members in braces. -/
structure Member.WrittenClass (c : Context) (s : Cursor) (name : Token) (members : List Member)
    (s' : Cursor) : Prop where
  /-- A name and a brace stand in front of the members. -/
  opening : ∃ brace, s.rest = name :: brace :: s.skip.skip.rest ∧ name.kind = .identifier ∧
    brace.kind = .symbol .leftBrace
  /-- The members stand in the braces. -/
  written : Member.Written c.enterClass s.skip.skip members s'

variable {c : Context} {s s' : Cursor} {ms : List Member} {d : Definition}

/-- One member is read, and then the others. -/
theorem Script.gives_member_iff {ofClass : Bool} :
    ((part .definition fun d => part .members fun ms => done (⟨ofClass, d⟩ :: ms)).follow
        c s).Gives ms s' ↔
      ∃ d s₁ others, (Job.definition.read c s).Gives d s₁ ∧
        (Job.members.read c s₁).Gives others s' ∧ ms = ⟨ofClass, d⟩ :: others := by
  constructor
  · intro h
    obtain ⟨d, s₁, hd, h⟩ := Readout.gives_andThen_iff.mp h
    obtain ⟨others, s₂, hothers, h⟩ := Readout.gives_andThen_iff.mp h
    obtain ⟨rfl, rfl⟩ := Readout.gives_read_iff.mp h
    exact ⟨d, s₁, others, hd, hothers, rfl⟩
  · rintro ⟨d, s₁, others, hd, hothers, rfl⟩
    exact Readout.gives_andThen_iff.mpr ⟨d, s₁, hd, Readout.gives_andThen_iff.mpr
      ⟨others, s', hothers, Readout.gives_read_iff.mpr ⟨rfl, rfl⟩⟩⟩

namespace Job

/-- A definition starts with its name. -/
theorem isIdentifier_of_gives_definition (h : (definition.read c s).Gives d s') :
    ∃ t, s.rest = t :: s.skip.rest ∧ t.isIdentifier = true := by
  rw [read_eq] at h
  obtain ⟨t, hs, ht, -⟩ := Script.gives_demanded_iff.mp h
  exact ⟨t, hs, ht⟩

theorem size_lt_of_gives_definition (h : (definition.read c s).Gives d s') : s'.size < s.size := by
  obtain ⟨reports, h⟩ := h
  exact size_lt_of_read h

/-- Members that are read are written. -/
theorem written_of_gives (h : (members.read c s).Gives ms s') : Member.Written c s ms s' := by
  -- Every definition has a token at least, so the members behind it stand on fewer tokens.
  induction hn : s.size using Nat.strongRecOn generalizing s ms with
  | ind n ih =>
    subst hn
    rw [read_eq] at h
    cases hs : s.rest with
    | nil =>
      simp only [script, Script.ofMembers, Script.accept, Script.follow, hs] at h
      exact absurd h Readout.not_gives_broken
    | cons t ts =>
      simp only [script, Script.ofMembers, Script.accept, Script.follow, hs] at h
      split at h
      case isTrue hclosing =>
        obtain ⟨rfl, rfl⟩ := Readout.gives_read_iff.mp h
        exact .close hs (Token.is_iff.mp hclosing)
      case isFalse =>
        split at h
        case isTrue hword =>
          obtain ⟨d, s₁, others, hd, hothers, rfl⟩ := Script.gives_member_iff.mp h
          have hlt := Nat.lt_trans (size_lt_of_gives_definition hd) (Script.size_skip_lt hs)
          exact .classMethod hs (Token.is_iff.mp hword) hd (ih _ hlt hothers rfl)
        case isFalse =>
          obtain ⟨d, s₁, others, hd, hothers, rfl⟩ := Script.gives_member_iff.mp h
          exact .method hd (ih _ (size_lt_of_gives_definition hd) hothers rfl)

/-- Members that are written are read. -/
theorem gives_of_written (h : Member.Written c s ms s') : (members.read c s).Gives ms s' := by
  induction h with
  | close hs hclosing =>
    rw [read_eq]
    simp only [script, Script.ofMembers, Script.accept, Script.follow, hs,
      Token.is_iff.mpr hclosing, if_true]
    exact Readout.gives_read_iff.mpr ⟨rfl, rfl⟩
  | method hd _ ih =>
    -- The definition starts with its name, so neither a brace nor `class` stands in front.
    obtain ⟨t, hs, ht⟩ := isIdentifier_of_gives_definition hd
    rw [read_eq]
    simp only [script, Script.ofMembers, Script.accept, Script.follow, hs,
      Token.is_of_isIdentifier ht, Bool.false_eq_true, if_false]
    exact Script.gives_member_iff.mpr ⟨_, _, _, hd, ih, rfl⟩
  | classMethod hs hword hd _ ih =>
    rw [read_eq]
    simp only [script, Script.ofMembers, Script.accept, Script.follow, hs, Token.is_of_kind hword,
      decide_true, if_true, reduceCtorEq, decide_false, Bool.false_eq_true, if_false]
    exact Script.gives_member_iff.mpr ⟨_, _, _, hd, ih, rfl⟩

/-- A class is read as the two lists of the members that are written in its braces. -/
theorem gives_classDefinition_iff {stmt : Stmt} :
    (classDefinition.read c s).Gives stmt s' ↔
      ∃ name ms, Member.WrittenClass c s name ms s' ∧
        stmt = .classDef name (Member.collect false ms) (Member.collect true ms) := by
  rw [read_eq]
  constructor
  · intro h
    obtain ⟨name, hs, hname, h⟩ := Script.gives_demanded_iff.mp h
    obtain ⟨brace, hs₁, hbrace, h⟩ := Script.gives_demanded_iff.mp h
    obtain ⟨ms, s₁, hms, h⟩ := Readout.gives_andThen_iff.mp h
    obtain ⟨rfl, rfl⟩ := Readout.gives_read_iff.mp h
    rw [hs₁] at hs
    exact ⟨name, ms, ⟨⟨brace, hs, Token.isIdentifier_iff.mp hname, Token.is_iff.mp hbrace⟩,
      written_of_gives hms⟩, rfl⟩
  · rintro ⟨name, ms, ⟨⟨brace, hs, hname, hbrace⟩, hwritten⟩, rfl⟩
    have hs₁ : s.skip.rest = brace :: s.skip.skip.rest := Cursor.rest_skip hs
    refine Script.gives_demanded_iff.mpr ⟨name, by rw [hs, hs₁], Token.isIdentifier_iff.mpr hname,
      Script.gives_demanded_iff.mpr ⟨brace, hs₁, Token.is_iff.mpr hbrace, ?_⟩⟩
    exact Readout.gives_andThen_iff.mpr ⟨ms, s', gives_of_written hwritten,
      Readout.gives_read_iff.mpr ⟨rfl, rfl⟩⟩

end Job

/-! ### Lists that hold each name once -/

/-- The names of definitions. -/
def Definition.names (ds : List Definition) : List String :=
  ds.map fun d => d.name.lexeme

namespace Definition

variable {d e : Definition} {ds : List Definition}

/-- A definition stands where its name stood, or at the end. -/
theorem names_insert (d : Definition) (ds : List Definition) :
    names (d.insert ds) =
      if d.name.lexeme ∈ names ds then names ds else names ds ++ [d.name.lexeme] := by
  induction ds with
  | nil => rfl
  | cons a as ih =>
    rw [insert]
    split
    case isTrue heq =>
      have heq : a.name.lexeme = d.name.lexeme := by simpa using heq
      simp [names, heq]
    case isFalse hne =>
      have hne : d.name.lexeme ≠ a.name.lexeme := fun h => hne (by simp [h])
      have hmem : d.name.lexeme ∈ names (a :: as) ↔ d.name.lexeme ∈ names as := by
        simp [names, hne]
      show a.name.lexeme :: names (d.insert as) = _
      simp only [ih, hmem]
      split <;> rfl

theorem mem_insert_self (d : Definition) (ds : List Definition) : d ∈ d.insert ds := by
  induction ds with
  | nil => exact List.mem_singleton_self d
  | cons a as ih =>
    rw [insert]
    split
    · exact List.mem_cons_self
    · exact List.mem_cons_of_mem _ ih

theorem mem_insert_of_ne (h : e ∈ ds) (hne : e.name.lexeme ≠ d.name.lexeme) :
    e ∈ d.insert ds := by
  induction ds with
  | nil => exact absurd h List.not_mem_nil
  | cons a as ih =>
    rw [insert]
    split
    case isTrue heq =>
      obtain rfl | h := List.mem_cons.mp h
      · exact absurd (by simpa using heq) hne
      · exact List.mem_cons_of_mem _ h
    case isFalse =>
      obtain rfl | h := List.mem_cons.mp h
      · exact List.mem_cons_self
      · exact List.mem_cons_of_mem _ (ih h)

/-- Where each name stands once, a definition replaces those of its name. -/
theorem Distinct.mem_insert_iff (h : Distinct ds) :
    e ∈ d.insert ds ↔ e = d ∨ e ∈ ds ∧ e.name.lexeme ≠ d.name.lexeme := by
  constructor
  · intro he
    by_cases heq : e = d
    · exact .inl heq
    · refine .inr ⟨(mem_insert he).resolve_left heq, fun hname => heq ?_⟩
      exact List.inj_on_of_nodup_map (h.insert d) he (mem_insert_self d ds) hname
  · rintro (rfl | ⟨he, hne⟩)
    · exact mem_insert_self e ds
    · exact mem_insert_of_ne he hne

/-- Where each name stands once, the names and the definitions tell the list. -/
theorem eq_of_names {es : List Definition} (hnames : names ds = names es) (hes : Distinct es)
    (hmem : ∀ d ∈ ds, d ∈ es) : ds = es := by
  have hname {a b : Definition} (ha : a ∈ es) (hb : b ∈ es) :
      a.name.lexeme = b.name.lexeme → a = b := List.inj_on_of_nodup_map hes ha hb
  have hlength : ds.length = es.length := by
    simpa [names] using congrArg List.length hnames
  refine List.ext_getElem hlength fun i hi hi' => ?_
  refine hname (hmem _ (List.getElem_mem hi)) (List.getElem_mem hi') ?_
  simpa [names] using List.getElem_of_eq hnames (by simpa [names] using hi)

end Definition

/-! ### The two lists of a class -/

namespace Member

variable {ofClass : Bool} {members : List Member} {d : Definition}

/-- The definitions of the members with a mark, as they are written. -/
def marked (ofClass : Bool) (members : List Member) : List Definition :=
  (members.filter fun m => m.ofClass == ofClass).map definition

/-- A definition is the last one of its name among the members with a mark. -/
def IsLast (ofClass : Bool) (members : List Member) (d : Definition) : Prop :=
  ∃ before after, members = before ++ ⟨ofClass, d⟩ :: after ∧
    ∀ m ∈ after, m.ofClass = ofClass → m.definition.name.lexeme ≠ d.name.lexeme

/-- A list has the names of the members with a mark, each once and in the order in which it first
appears with the mark, and each name with its last definition. -/
structure Listed (ofClass : Bool) (members : List Member) (ds : List Definition) : Prop where
  /-- No name stands twice. -/
  distinct : Definition.Distinct ds
  /-- The names stand in the order in which they first appear with the mark. -/
  order : Definition.names ds = (Definition.names (marked ofClass members)).eraseDups
  /-- The definitions are the last ones of their names with the mark. -/
  last : ∀ d, d ∈ ds ↔ IsLast ofClass members d

/-- The list of the members with a mark is the one that they make one after another. -/
theorem collect_eq_foldl_marked (ofClass : Bool) (members : List Member) :
    collect ofClass members =
      (marked ofClass members).foldl (fun ds d => d.insert ds) [] := by
  rw [collect, marked, List.foldl_map]

/-- Made once more, the list of the members with a mark stays as it is. -/
theorem foldl_insert_collect (ofClass : Bool) (members : List Member) :
    (collect ofClass members).foldl (fun ds d => d.insert ds) [] = collect ofClass members :=
  @foldl_insert_of_distinct [] _ collect_distinct

/-- What one more member does to the list of the members with a mark. -/
theorem collect_concat (ofClass : Bool) (members : List Member) (m : Member) :
    collect ofClass (members ++ [m]) =
      if m.ofClass = ofClass then m.definition.insert (collect ofClass members)
      else collect ofClass members := by
  by_cases h : m.ofClass = ofClass <;> simp [collect, h]

theorem marked_concat (ofClass : Bool) (members : List Member) (m : Member) :
    marked ofClass (members ++ [m]) =
      if m.ofClass = ofClass then marked ofClass members ++ [m.definition]
      else marked ofClass members := by
  by_cases h : m.ofClass = ofClass <;> simp [marked, h]

/-- What one more member does to the last definitions of names. -/
theorem isLast_concat {m : Member} :
    IsLast ofClass (members ++ [m]) d ↔ m = ⟨ofClass, d⟩ ∨
      IsLast ofClass members d ∧
        (m.ofClass = ofClass → m.definition.name.lexeme ≠ d.name.lexeme) := by
  constructor
  · rintro ⟨before, after, h, hafter⟩
    obtain rfl | ⟨after, m', rfl⟩ := after.eq_nil_or_concat'
    · exact .inl (List.singleton_inj.mp (List.append_inj' h rfl).2)
    · rw [← List.cons_append, ← List.append_assoc] at h
      obtain ⟨rfl, hm⟩ := List.append_inj' h rfl
      obtain rfl := List.singleton_inj.mp hm
      refine .inr ⟨⟨before, after, rfl, fun m' hm' => hafter m' ?_⟩, hafter m ?_⟩
      · exact List.mem_append_left _ hm'
      · exact List.mem_append_right _ (List.mem_singleton_self m)
  · rintro (rfl | ⟨⟨before, after, rfl, hafter⟩, hm⟩)
    · exact ⟨members, [], rfl, fun m hm => absurd hm List.not_mem_nil⟩
    · refine ⟨before, after ++ [m], by simp, fun m' hm' => ?_⟩
      obtain hm' | hm' := List.mem_append.mp hm'
      · exact hafter m' hm'
      · rwa [List.mem_singleton.mp hm']

/-- The list has the last definitions of the names, and nothing else. -/
theorem mem_collect_iff : d ∈ collect ofClass members ↔ IsLast ofClass members d := by
  induction members using List.reverseRecOn with
  | nil =>
    refine ⟨fun h => absurd h List.not_mem_nil, fun ⟨before, after, h, _⟩ => ?_⟩
    simp at h
  | append_singleton ms m ih =>
    obtain ⟨mark, e⟩ := m
    rw [collect_concat, isLast_concat, ← ih]
    dsimp only
    by_cases h : mark = ofClass
    · subst h
      rw [if_pos rfl, collect_distinct.mem_insert_iff]
      simp [eq_comm]
    · simp [h]

/-- The list has the names in the order in which they first appear. -/
theorem names_collect (ofClass : Bool) (members : List Member) :
    Definition.names (collect ofClass members) =
      (Definition.names (marked ofClass members)).eraseDups := by
  induction members using List.reverseRecOn with
  | nil => rfl
  | append_singleton ms m ih =>
    rw [collect_concat, marked_concat]
    split
    case isTrue =>
      have happend : Definition.names (marked ofClass ms ++ [m.definition]) =
          Definition.names (marked ofClass ms) ++ [m.definition.name.lexeme] := List.map_append
      rw [happend, List.eraseDups_append, Definition.names_insert, ih]
      by_cases hmem : m.definition.name.lexeme ∈ Definition.names (marked ofClass ms) <;>
        simp [List.removeAll, List.eraseDups_cons, hmem]
    case isFalse => exact ih

/-- **The list has each name once, in the place of its first definition and with the last.** -/
theorem listed_collect (ofClass : Bool) (members : List Member) :
    Listed ofClass members (collect ofClass members) where
  distinct := collect_distinct
  order := names_collect ofClass members
  last _ := mem_collect_iff

/-- What is said of the list determines it. -/
theorem Listed.eq_collect {ds : List Definition} (h : Listed ofClass members ds) :
    ds = collect ofClass members := by
  have hnames : Definition.names ds = Definition.names (collect ofClass members) := by
    rw [h.order, names_collect]
  exact Definition.eq_of_names hnames collect_distinct fun d hd =>
    mem_collect_iff.mpr ((h.last d).mp hd)

end Member

end Lox
