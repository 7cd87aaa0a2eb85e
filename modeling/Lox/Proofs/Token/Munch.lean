import Lox.Proofs.Token.Partition

/-!
# Tokens are as long as they can be

The lexemes of the language are its operators, runs of digits, closed strings and names (`Lexeme`).
Wherever the scanner hands out a token, no comment opens there, and the text of the token is the
longest lexeme that the rest of the text starts with; the token is a symbol exactly if that text is
its spelling, so a name that only begins with a reserved word is no reserved word. A character is
unexpected only where no lexeme and no comment can start (`Scanner.munches`).
-/

namespace Lox

/-! ### The lexemes of the language -/

/-- A text that is a token, taken by itself. -/
inductive Lexeme : List Char → Prop where
  /-- A bracket, an operator or a separator. -/
  | mark {s : Symbol} (hs : s ∈ Symbol.marks) : Lexeme s.spelling.toList
  /-- A run of digits. -/
  | number {c : Char} {digits : List Char} (hc : c.isDigit = true)
      (hdigits : ∀ d ∈ digits, d.isDigit = true) : Lexeme (c :: digits)
  /-- Text between quotes, on one line and without a quote. -/
  | string {inside : List Char} (hquote : '"' ∉ inside) (hnewline : '\n' ∉ inside) :
      Lexeme ('"' :: inside ++ ['"'])
  /-- A letter or an underscore, and behind it letters, numeric characters and underscores. -/
  | name {c : Char} {text : List Char} (hc : Text.isAlphabetic c = true ∨ c = '_')
      (htext : ∀ d ∈ text, Text.isAlphabetic d = true ∨ Text.isNumeric d = true ∨ d = '_') :
      Lexeme (c :: text)

/-- A text that starts with `//` or `/*`. -/
def OpensComment (text : List Char) : Prop :=
  ['/', '/'] <+: text ∨ ['/', '*'] <+: text

/-- The longest lexeme that a text starts with. -/
structure Longest (text rest : List Char) : Prop where
  /-- It is a lexeme. -/
  lexeme : Lexeme text
  /-- The text starts with it. -/
  prefixed : text <+: rest
  /-- So it does with no longer one. -/
  longest : ∀ other, Lexeme other → other <+: rest → other.length ≤ text.length

/-- What an item that was cut off a text says about it: `text` is what was cut off, `rest` the text
it was cut off from. -/
def Item.Munches (text rest : List Char) : Item → Prop
  | token t => t.lexeme = String.ofList text ∧ Longest text rest ∧ ¬ OpensComment rest ∧
      ∀ s, t.kind = .symbol s ↔ t.lexeme = s.spelling
  | fault ⟨_, .unexpected c⟩ => text = [c] ∧ c ≠ '"' ∧ Text.isBlank c = false ∧
      ∀ other, Lexeme other ∨ OpensComment other → other.head? ≠ some c
  | fault _ => True

theorem startsName_iff {c : Char} : startsName c = true ↔ Text.isAlphabetic c = true ∨ c = '_' := by
  rw [startsName, Bool.or_eq_true, beq_iff_eq]

theorem continuesName_iff {c : Char} : continuesName c = true ↔
    Text.isAlphabetic c = true ∨ Text.isNumeric c = true ∨ c = '_' := by
  rw [continuesName, Bool.or_eq_true, Bool.or_eq_true, beq_iff_eq, or_assoc]

/-! ### How symbols are spelled -/

/-- Names start above the digits and the other marks of that range. -/
theorem not_startsName_of_lt {c : Char} (h : c.toNat < 'A'.toNat) : startsName c = false := by
  have hval {d : Char} (hd : 'A'.toNat ≤ d.toNat) : ¬ d.val ≤ c.val := fun hle =>
    absurd (UInt32.le_iff_toNat_le.mp hle) (Nat.not_le.mpr (Nat.lt_of_lt_of_le h hd))
  have hupper : c.isUpper = false := decide_eq_false fun hle => hval (by decide) hle.1
  have hlower : c.isLower = false := by
    show (decide ('a'.val ≤ c.val) && decide (c.val ≤ 'z'.val)) = false
    rw [decide_eq_false (hval (by decide)), Bool.false_and]
  have halpha : Text.isAlphabetic c = false := by
    rw [Text.isAlphabetic_of_lt (Nat.lt_trans h (by decide))]
    show (c.isUpper || c.isLower) = false
    rw [hupper, hlower, Bool.false_or]
  have hunderscore : c ≠ '_' := by
    rintro rfl
    exact absurd h (by decide)
  simp [startsName, halpha, hunderscore]

theorem not_startsName_of_isDigit {c : Char} (h : c.isDigit = true) : startsName c = false := by
  have hrange : 48 ≤ c.toNat ∧ c.toNat ≤ 57 := by
    simpa [Char.isDigit, UInt32.le_iff_toNat_le] using h
  exact not_startsName_of_lt (Nat.lt_of_le_of_lt hrange.2 (by decide))

theorem not_startsName_quote : startsName '"' = false :=
  not_startsName_of_lt (by decide)

namespace Symbol

theorem mem_marks_or_mem_words (s : Symbol) : s ∈ marks ∨ s ∈ words := by
  cases s <;> decide

/-- No two symbols are spelled alike. -/
theorem spelling_injective {s t : Symbol} (h : s.spelling = t.spelling) : s = t := by
  have hall : ∀ s ∈ marks ++ words, ∀ t ∈ marks ++ words, s.spelling = t.spelling → s = t := by
    decide
  exact hall s (List.mem_append.mpr s.mem_marks_or_mem_words) t
    (List.mem_append.mpr t.mem_marks_or_mem_words) h

/-- A symbol of one character is a mark, and is spelled with it. -/
theorem spelling_of_ofChar {c : Char} {s : Symbol} (h : ofChar? c = some s) :
    s ∈ marks ∧ s.spelling.toList = [c] := by
  unfold ofChar? at h
  split at h <;> cases h <;> exact ⟨by decide, by decide⟩

/-- So it is with a symbol of two characters. -/
theorem spelling_of_ofPair {c d : Char} {s : Symbol} (h : ofPair? c d = some s) :
    s ∈ marks ∧ s.spelling.toList = [c, d] := by
  unfold ofPair? at h
  split at h <;> cases h <;> exact ⟨by decide, by decide⟩

theorem length_spelling_le {s : Symbol} (hs : s ∈ marks) : s.spelling.toList.length ≤ 2 := by
  have hall : ∀ s ∈ marks, s.spelling.toList.length ≤ 2 := by decide
  exact hall s hs

theorem ofPair_of_spelling {s : Symbol} (hs : s ∈ marks) {c d : Char} {text : List Char}
    (h : s.spelling.toList = c :: d :: text) : ofPair? c d = some s := by
  have hall : ∀ s ∈ marks, s.spelling.toList.tail ≠ [] → (s.spelling.toList.head?.bind fun c =>
      s.spelling.toList.tail.head?.bind fun d => ofPair? c d) = some s := by decide
  have hpair := hall s hs
  rw [h] at hpair
  exact hpair (by simp)

theorem ofChar_of_spelling {s : Symbol} (hs : s ∈ marks) {c : Char} {text : List Char}
    (h : s.spelling.toList = c :: text) : ofChar? c ≠ none := by
  have hall : ∀ s ∈ marks, s.spelling.toList.head?.bind ofChar? ≠ none := by decide
  have hchar := hall s hs
  rwa [h] at hchar

/-- No mark starts with what starts another lexeme. -/
theorem head_of_mem_marks {s : Symbol} (hs : s ∈ marks) {c : Char} {text : List Char}
    (h : s.spelling.toList = c :: text) :
    c.isDigit = false ∧ c ≠ '"' ∧ startsName c = false := by
  have hall : ∀ s ∈ marks, (s.spelling.toList.head?.all fun c =>
      !c.isDigit && c != '"' && !startsName c) = true := by decide
  have hchar := hall s hs
  rw [h] at hchar
  simpa [and_assoc] using hchar

theorem head_of_mem_words {s : Symbol} (hs : s ∈ words) {c : Char} {text : List Char}
    (h : s.spelling.toList = c :: text) : startsName c = true := by
  have hall : ∀ s ∈ words, s.spelling.toList.head?.all startsName = true := by decide
  have hchar := hall s hs
  rwa [h] at hchar

/-- What starts like a number or a string is no symbol. -/
theorem ne_spelling {c : Char} (hc : c.isDigit = true ∨ c = '"') (text : List Char) (s : Symbol) :
    String.ofList (c :: text) ≠ s.spelling := by
  intro h
  have hspelling : s.spelling.toList = c :: text := by rw [← h, String.toList_ofList]
  obtain hs | hs := s.mem_marks_or_mem_words
  · obtain ⟨hdigit, hquote, -⟩ := head_of_mem_marks hs hspelling
    rw [hdigit] at hc
    exact hc.elim Bool.false_ne_true hquote
  · have hname := head_of_mem_words hs hspelling
    obtain hc | rfl := hc
    · rw [not_startsName_of_isDigit hc] at hname
      exact Bool.false_ne_true hname
    · exact absurd hname (by decide)

theorem ofWord_spelling {s : Symbol} (hs : s ∈ words) : ofWord? s.spelling = some s := by
  have hall : ∀ s ∈ words, ofWord? s.spelling = some s := by decide
  exact hall s hs

theorem spelling_of_ofWord {text : String} {s : Symbol} (h : ofWord? text = some s) :
    s.spelling = text := by
  simpa using List.find?_some h

end Symbol

/-- A name is a reserved word exactly if all of it spells one. -/
theorem Kind.ofName_eq_symbol_iff {c : Char} (hc : startsName c = true) {text : List Char}
    (s : Symbol) :
    Kind.ofName (c :: text) = .symbol s ↔ String.ofList (c :: text) = s.spelling := by
  constructor
  · unfold Kind.ofName
    split
    · rename_i t ht
      intro h
      obtain rfl := Kind.symbol.inj h
      exact (Symbol.spelling_of_ofWord ht).symm
    · exact nofun
  · intro h
    have hspelling : s.spelling.toList = c :: text := by rw [← h, String.toList_ofList]
    have hs : s ∈ Symbol.words := by
      refine s.mem_marks_or_mem_words.resolve_left fun hs => ?_
      rw [(Symbol.head_of_mem_marks hs hspelling).2.2] at hc
      exact Bool.false_ne_true hc
    rw [Kind.ofName, h, Symbol.ofWord_spelling hs]

/-! ### Which lexemes start with a character -/

namespace Lexeme

variable {c : Char} {text rest : List Char}

theorem ne_nil (h : Lexeme text) : text ≠ [] := by
  cases h with
  | mark hs =>
    have hall : ∀ s ∈ Symbol.marks, s.spelling.toList ≠ [] := by decide
    exact hall _ hs
  | number | string | name => simp

/-- A lexeme at the start of a text starts with the first character of the text. -/
theorem exists_cons (h : Lexeme text) (hstarts : text <+: c :: rest) :
    ∃ tail, text = c :: tail ∧ tail <+: rest := by
  obtain ⟨d, tail, rfl⟩ := List.exists_cons_of_ne_nil h.ne_nil
  obtain ⟨rfl, htail⟩ := List.cons_prefix_cons.mp hstarts
  exact ⟨tail, rfl, htail⟩

/-- **The first character decides** what kind of lexeme starts with it. -/
theorem cases_cons (h : Lexeme (c :: text)) :
    (∃ s ∈ Symbol.marks, s.spelling.toList = c :: text) ∨
    (c.isDigit = true ∧ ∀ d ∈ text, d.isDigit = true) ∨
    (c = '"' ∧ ∃ inside, text = inside ++ ['"'] ∧ '"' ∉ inside ∧ '\n' ∉ inside) ∨
    (startsName c = true ∧ ∀ d ∈ text, continuesName d = true) := by
  generalize hwhole : c :: text = whole at h
  cases h with
  | @mark s hs => exact .inl ⟨s, hs, rfl⟩
  | number hc hdigits =>
    obtain ⟨rfl, rfl⟩ := List.cons.inj hwhole
    exact .inr (.inl ⟨hc, hdigits⟩)
  | string hquote hnewline =>
    obtain ⟨rfl, rfl⟩ := List.cons.inj hwhole
    exact .inr (.inr (.inl ⟨rfl, _, rfl, hquote, hnewline⟩))
  | name hc htext =>
    obtain ⟨rfl, rfl⟩ := List.cons.inj hwhole
    exact .inr (.inr (.inr ⟨startsName_iff.mpr hc,
      fun d hd => continuesName_iff.mpr (htext d hd)⟩))

theorem of_digit (h : Lexeme (c :: text)) (hc : c.isDigit = true) :
    ∀ d ∈ text, d.isDigit = true := by
  obtain ⟨s, hs, hspelling⟩ | ⟨-, hdigits⟩ | ⟨rfl, -⟩ | ⟨hname, -⟩ := h.cases_cons
  · rw [(Symbol.head_of_mem_marks hs hspelling).1] at hc
    exact absurd hc Bool.false_ne_true
  · exact hdigits
  · exact absurd hc (by decide)
  · rw [not_startsName_of_isDigit hc] at hname
    exact absurd hname Bool.false_ne_true

theorem of_name (h : Lexeme (c :: text)) (hc : startsName c = true) :
    ∀ d ∈ text, continuesName d = true := by
  obtain ⟨s, hs, hspelling⟩ | ⟨hdigit, -⟩ | ⟨rfl, -⟩ | ⟨-, htext⟩ := h.cases_cons
  · rw [(Symbol.head_of_mem_marks hs hspelling).2.2] at hc
    exact absurd hc Bool.false_ne_true
  · rw [not_startsName_of_isDigit hdigit] at hc
    exact absurd hc Bool.false_ne_true
  · rw [not_startsName_quote] at hc
    exact absurd hc Bool.false_ne_true
  · exact htext

theorem of_quote (h : Lexeme ('"' :: text)) : ∃ inside, text = inside ++ ['"'] ∧ '"' ∉ inside := by
  obtain ⟨s, hs, hspelling⟩ | ⟨hdigit, -⟩ | ⟨-, inside, htext, hquote, -⟩ | ⟨hname, -⟩ :=
    h.cases_cons
  · exact absurd rfl (Symbol.head_of_mem_marks hs hspelling).2.1
  · exact absurd hdigit (by decide)
  · exact ⟨inside, htext, hquote⟩
  · rw [not_startsName_quote] at hname
    exact absurd hname Bool.false_ne_true

/-- Where no string, number or name starts, only a mark does. -/
theorem of_other (h : Lexeme (c :: text)) (hquote : c ≠ '"') (hdigit : ¬ c.isDigit = true)
    (hname : ¬ startsName c = true) : ∃ s ∈ Symbol.marks, s.spelling.toList = c :: text := by
  obtain hmark | ⟨h, -⟩ | ⟨h, -⟩ | ⟨h, -⟩ := h.cases_cons
  · exact hmark
  · exact absurd h hdigit
  · exact absurd h hquote
  · exact absurd h hname

end Lexeme

/-! ### The first piece is the longest lexeme -/

namespace Piece

variable {c : Char} {rest : List Char}

/-- What a piece says about the text it was cut off: no comment opens where a token or an
unexpected character stands, and the token is the longest there. -/
def Munches (p : Piece) (rest : List Char) : Prop :=
  ∀ line item, Item.ofPiece? line p = some item → item.Munches p.text rest

theorem not_opensComment (h : c ≠ '/') : ¬ OpensComment (c :: rest) := by
  rintro (h' | h') <;> exact h (List.cons_prefix_cons.mp h').1.symm

theorem munches_gap (text rest : List Char) : Munches ⟨text, .gap⟩ rest :=
  nofun

theorem munches_token {text rest : List Char} {kind : Kind} (hlongest : Longest text rest)
    (hcomment : ¬ OpensComment rest)
    (hkind : ∀ s, kind = .symbol s ↔ String.ofList text = s.spelling) :
    Munches ⟨text, .token kind⟩ rest := by
  intro line item hitem
  obtain rfl := Option.some.inj hitem
  exact ⟨rfl, hlongest, hcomment, hkind⟩

/-- A run is the longest lexeme if all lexemes that start like it go on like it. -/
theorem longest_run {p : Char → Bool} (hrun : Lexeme (c :: rest.takeWhile p))
    (hall : ∀ text, Lexeme (c :: text) → ∀ d ∈ text, p d = true) :
    Longest (c :: rest.takeWhile p) (c :: rest) where
  lexeme := hrun
  prefixed := List.cons_prefix_cons.mpr ⟨rfl, List.takeWhile_prefix p⟩
  longest := by
    intro other hother hstarts
    obtain ⟨text, rfl, behind, rfl⟩ := hother.exists_cons hstarts
    rw [List.takeWhile_append_of_pos (hall text hother), List.length_cons, List.length_cons,
      List.length_append]
    omega

theorem munches_number (hc : c.isDigit = true) :
    (run Char.isDigit c rest fun text => .token (.number (Decimal.ofDigits text))).1.Munches
      (c :: rest) := by
  have hslash : c ≠ '/' := by
    rintro rfl
    exact absurd hc (by decide)
  refine munches_token (longest_run (.number hc fun _ => List.mem_takeWhile_imp)
    fun text h => h.of_digit hc) (not_opensComment hslash) fun s => ?_
  exact iff_of_false nofun (Symbol.ne_spelling (.inl hc) _ s)

theorem munches_name (hc : startsName c = true) :
    (run continuesName c rest fun text => .token (Kind.ofName text)).1.Munches (c :: rest) := by
  have hslash : c ≠ '/' := by
    rintro rfl
    exact absurd hc (by decide)
  have hname : Lexeme (c :: rest.takeWhile continuesName) :=
    .name (startsName_iff.mp hc) fun _ hd => continuesName_iff.mp (List.mem_takeWhile_imp hd)
  exact munches_token (longest_run hname fun text h => h.of_name hc) (not_opensComment hslash)
    (Kind.ofName_eq_symbol_iff hc)

/-- The quote that closes a string is the first one behind its opening quote. -/
theorem longest_string {inside behind : List Char} (hquote : '"' ∉ inside)
    (hnewline : '\n' ∉ inside) :
    Longest ('"' :: inside ++ ['"']) ('"' :: (inside ++ '"' :: behind)) where
  lexeme := .string hquote hnewline
  prefixed := ⟨behind, by simp⟩
  longest := by
    intro other hother hstarts
    obtain ⟨text, rfl, after, htext⟩ := hother.exists_cons hstarts
    obtain ⟨inside', rfl, hquote'⟩ := hother.of_quote
    have htake (text : List Char) (h : '"' ∉ text) (rest : List Char) :
        (text ++ '"' :: rest).takeWhile (· != '"') = text := by
      rw [takeWhile_append_cons_of_neg rfl, List.takeWhile_eq_self_iff]
      intro d hd
      exact bne_iff_ne.mpr (ne_of_mem_of_not_mem hd h)
    have hinside : inside' = inside := by
      rw [← htake inside' hquote' after, ← htake inside hquote behind, ← htext]
      simp
    rw [hinside]
    exact Nat.le_refl _

theorem munches_string (rest : List Char) : (string rest).1.Munches ('"' :: rest) := by
  have happend := List.takeWhile_append_dropWhile (p := fun c => c != '"' && c != '\n') (l := rest)
  have hquote : '"' ∉ rest.takeWhile fun c => c != '"' && c != '\n' := not_mem_takeWhile rfl rest
  have hnewline : '\n' ∉ rest.takeWhile fun c => c != '"' && c != '\n' :=
    not_mem_takeWhile rfl rest
  unfold string
  dsimp only
  split
  · rename_i behind hbehind
    rw [hbehind] at happend
    have hlongest : Longest _ ('"' :: (_ ++ '"' :: behind)) := longest_string hquote hnewline
    rw [happend] at hlongest
    exact munches_token hlongest (not_opensComment (by decide)) fun s =>
      iff_of_false nofun (Symbol.ne_spelling (.inr rfl) _ s)
  · intro line item hitem
    obtain rfl := Option.some.inj hitem
    trivial

/-- Where neither a string, a number, a name nor a comment starts, a mark is the longest lexeme,
and a character that spells none starts no lexeme. -/
theorem munches_mark (hblank : Text.isBlank c = false) (hquote : c ≠ '"')
    (hdigit : ¬ c.isDigit = true) (hname : ¬ startsName c = true)
    (hcomment : ¬ OpensComment (c :: rest)) : (mark c rest).1.Munches (c :: rest) := by
  have hkind (s s' : Symbol) (text : List Char) (hs : s.spelling.toList = text) :
      Kind.symbol s = .symbol s' ↔ String.ofList text = s'.spelling := by
    rw [← hs, String.ofList_toList]
    exact ⟨fun h => congrArg Symbol.spelling (Kind.symbol.inj h),
      fun h => congrArg Kind.symbol (Symbol.spelling_injective h)⟩
  have hsingle (hpair : ∀ d ∈ rest.head?, Symbol.ofPair? c d = none) :
      (mark.single c rest).1.Munches (c :: rest) := by
    unfold mark.single
    split
    · rename_i s hs
      obtain ⟨hmark, hspelling⟩ := Symbol.spelling_of_ofChar hs
      refine munches_token ⟨hspelling ▸ .mark hmark, ⟨rest, rfl⟩, ?_⟩ hcomment
        fun s' => hkind s s' _ hspelling
      intro other hother hstarts
      obtain ⟨text, rfl, behind, rfl⟩ := hother.exists_cons hstarts
      obtain ⟨t, ht, htext⟩ := hother.of_other hquote hdigit hname
      cases text with
      | nil => exact Nat.le_refl 1
      | cons d text =>
        have hnone := hpair d rfl
        rw [Symbol.ofPair_of_spelling ht htext] at hnone
        exact absurd hnone nofun
    · rename_i hnone
      intro line item hitem
      obtain rfl := Option.some.inj hitem
      refine ⟨rfl, hquote, hblank, fun other hother hhead => ?_⟩
      obtain ⟨text, rfl⟩ := List.head?_eq_some_iff.mp hhead
      obtain hother | hother := hother
      · obtain ⟨t, ht, htext⟩ := hother.of_other hquote hdigit hname
        exact Symbol.ofChar_of_spelling ht htext hnone
      · refine not_opensComment ?_ hother
        rintro rfl
        exact absurd hnone nofun
  unfold mark
  split
  · rename_i d behind
    split
    · rename_i s hs
      obtain ⟨hmark, hspelling⟩ := Symbol.spelling_of_ofPair hs
      refine munches_token ⟨hspelling ▸ .mark hmark, ⟨behind, rfl⟩, ?_⟩ hcomment
        fun s' => hkind s s' _ hspelling
      intro other hother hstarts
      obtain ⟨text, rfl, -⟩ := hother.exists_cons hstarts
      obtain ⟨t, ht, htext⟩ := hother.of_other hquote hdigit hname
      rw [← htext]
      exact Symbol.length_spelling_le ht
    · rename_i hnone
      refine hsingle fun d' hd' => ?_
      obtain rfl := Option.some.inj hd'
      exact hnone
  · exact hsingle nofun

theorem opensComment_iff : OpensComment (c :: rest) ↔
    (c = '/' ∧ rest.head? = some '/') ∨ (c = '/' ∧ rest.head? = some '*') := by
  have hstarts (d : Char) : ['/', d] <+: c :: rest ↔ c = '/' ∧ rest.head? = some d := by
    cases rest <;> simp [List.cons_prefix_cons, eq_comm]
  rw [OpensComment, hstarts, hstarts]

/-- **The first piece**: a token is the longest lexeme, and an unexpected character starts none. -/
theorem munches_cut (c : Char) (rest : List Char) : (cut c rest).1.Munches (c :: rest) := by
  unfold cut
  split
  · exact munches_gap _ _
  rename_i hblank
  split
  · rename_i hquote
    rw [hquote]
    exact munches_string rest
  rename_i hquote
  split
  · rename_i hdigit
    exact munches_number hdigit
  rename_i hdigit
  split
  · rename_i hname
    exact munches_name hname
  rename_i hname
  split
  · exact munches_gap _ _
  rename_i hline
  split
  · unfold blockComment
    split
    · exact munches_gap _ _
    · intro line item hitem
      obtain rfl := Option.some.inj hitem
      trivial
  rename_i hblock
  exact munches_mark (Bool.eq_false_iff.mpr hblank) hquote hdigit hname fun hcomment =>
    (opensComment_iff.mp hcomment).elim hline hblock

end Piece

/-! ### Every token of a scanner -/

namespace Scanner

variable {s : Scanner} {before rest : List Char}

/-- What a call of the scanner hands out, and where the text behind it is: the end of the input, or
an item that says about its text what `Item.Munches` asks for. -/
inductive Hands (s : Scanner) (before rest : List Char) : Prop where
  /-- Nothing is left but the end of the input. -/
  | last (s' : Scanner) (hnext : s.next = (some (endItem (before ++ rest)), s'))
      (hend : s'.next = (none, s'))
  /-- An item was cut off behind a gap. -/
  | item (s' : Scanner) (gap text behind : List Char) (item : Item)
      (hrest : rest = gap ++ text ++ behind) (hnext : s.next = (some item, s'))
      (hspan : s'.span = ⟨byteSize (before ++ gap), byteSize (before ++ gap ++ text)⟩)
      (hstands : s'.Stands (before ++ gap ++ text) behind)
      (hmunches : item.Munches text (text ++ behind))

/-- **One call**: what is handed out was cut off the text behind a gap. -/
theorem hands (s : Scanner) (before rest : List Char) (h : s.Stands before rest) :
    s.Hands before rest := by
  cases rest with
  | nil =>
    refine .last { s with ended := true } ?_ ?_
    · rw [next_nil h.rest, if_neg (by simp [h.ended]), endItem, List.append_nil, ← h.line]
    · exact (next_nil (s := { s with ended := true }) h.rest).trans (if_pos rfl)
  | cons c rest =>
    have htext := Piece.text_append_cut c rest
    have hmunches := Piece.munches_cut c rest
    have hlt := Piece.length_cut_lt c rest
    have hnext := next_cons h.rest
    generalize Piece.cut c rest = cut at htext hmunches hlt hnext
    obtain ⟨piece, rest'⟩ := cut
    have hbehind := h.behind piece rest'
    change piece.text ++ rest' = c :: rest at htext
    cases hitem : Item.ofPiece? (s.behind piece rest').line piece with
    | none =>
      rw [hitem] at hnext
      cases hands _ _ _ hbehind with
      | last s' hnext' hend =>
        rw [List.append_assoc, htext] at hnext'
        exact .last s' (hnext.trans hnext') hend
      | item s' gap text behind item hrest hnext' hspan hstands hmunches' =>
        rw [List.append_assoc before] at hspan hstands
        refine .item s' (piece.text ++ gap) text behind item ?_ (hnext.trans hnext') hspan hstands
          hmunches'
        rw [← htext]
        change rest' = gap ++ text ++ behind at hrest
        rw [hrest]
        simp only [List.append_assoc]
    | some item =>
      rw [hitem] at hnext
      refine .item (s.behind piece rest') [] piece.text rest' item htext.symm hnext ?_ ?_ ?_
      · rw [List.append_nil, ← hbehind.curr, ← h.curr]
        rfl
      · rwa [List.append_nil]
      · rw [htext]
        exact hmunches _ item hitem
termination_by rest.length

/-- So it is with every call after it. -/
theorem exists_munches (s : Scanner) (before rest : List Char) (h : s.Stands before rest) (n : Nat)
    {item : Item} (hitem : s.item? n = some item) :
    item = endItem (before ++ rest) ∨
      ∃ before' text behind, before ++ rest = before' ++ text ++ behind ∧
        (s.after (n + 1)).span = ⟨byteSize before', byteSize (before' ++ text)⟩ ∧
        item.Munches text (text ++ behind) := by
  induction n generalizing s before rest with
  | zero =>
    cases hands s before rest h with
    | last s' hnext hend =>
      rw [item?, after, hnext] at hitem
      exact .inl (Option.some.inj hitem).symm
    | item s' gap text behind item' hrest hnext hspan hstands hmunches =>
      rw [item?, after, hnext] at hitem
      obtain rfl := Option.some.inj hitem
      refine .inr ⟨before ++ gap, text, behind, ?_, ?_, hmunches⟩
      · rw [hrest]
        simp only [List.append_assoc]
      · rw [after, hnext]
        exact hspan
  | succ n ih =>
    cases hands s before rest h with
    | last s' hnext hend =>
      rw [item?, after, hnext] at hitem
      have hnone := item?_of_next_eq_none hend n
      rw [item?] at hnone
      rw [hnone] at hitem
      cases hitem
    | item s' gap text behind item' hrest hnext hspan hstands hmunches =>
      have hsource : before ++ gap ++ text ++ behind = before ++ rest := by
        rw [hrest]
        simp only [List.append_assoc]
      rw [after, hnext, ← hsource]
      rw [item?, after, hnext] at hitem
      exact ih s' _ _ hstands hitem

/-- **Tokens are maximal munch.** Whatever a call of the scanner hands out, except the end of the
input, was cut off the text where its span says. A token is the longest lexeme of the language that
the rest of the text starts with there, no comment opens there, and the token is a symbol exactly if
the whole lexeme is its spelling. An unexpected character is one character; it is no quote and no
white space, and no lexeme and no comment starts with it. -/
theorem munches (source : String) (n : Nat) (item : Item)
    (hitem : (ofText source).item? n = some item) :
    item = endItem source.toList ∨
      ∃ before text behind, source.toList = before ++ text ++ behind ∧
        ((ofText source).after (n + 1)).span = ⟨byteSize before, byteSize (before ++ text)⟩ ∧
        item.Munches text (text ++ behind) :=
  exists_munches _ _ _ (stands_ofText source) n hitem

/-- A name that begins with a reserved word, behind a comment and an operator. -/
theorem munches_begins_with_word : ∃ item, (ofText "/* */<=fork/2").item? 1 = some item ∧
    item.token?.map Token.lexeme = some "fork" ∧
    (item = endItem "/* */<=fork/2".toList ∨
      ∃ before text behind, "/* */<=fork/2".toList = before ++ text ++ behind ∧
        ((ofText "/* */<=fork/2").after 2).span =
          ⟨byteSize before, byteSize (before ++ text)⟩ ∧
        item.Munches text (text ++ behind)) := by
  have hlexeme : (((ofText "/* */<=fork/2").item? 1).map fun item =>
      item.token?.map Token.lexeme) = some (some "fork") := by decide +kernel
  obtain ⟨item, hitem, hfork⟩ := Option.map_eq_some_iff.mp hlexeme
  exact ⟨item, hitem, hfork, munches _ 1 item hitem⟩

end Scanner

end Lox
