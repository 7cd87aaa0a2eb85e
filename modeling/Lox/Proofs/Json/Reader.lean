import Lox.Json.Basic

/-!
# Reading JSON texts

A reader for JSON texts, to say what a text means without looking at how it was written. It takes
the whole grammar of JSON apart from the words `true` and `false`, which stand for no document here:
white space between any two words, all escapes between quotes and pairs of surrogates, and numbers
with a fraction and an exponent. Numbers are kept as their text.

A text is cut into words first (`Json.words?`), and the words are read from left to right
(`Json.value?`); `Json.read?` wants both to take in all of the text.
-/

namespace Lox.Json

/-! ### Text between quotes -/

/-- The value of a hexadecimal digit. -/
def hexDigit? (c : Char) : Option Nat :=
  if c.isDigit then some (c.toNat - '0'.toNat)
  else if 'a' ≤ c ∧ c ≤ 'f' then some (c.toNat - 'a'.toNat + 10)
  else if 'A' ≤ c ∧ c ≤ 'F' then some (c.toNat - 'A'.toNat + 10)
  else none

/-- The number that four hexadecimal digits stand for, and the text behind them. -/
def codeUnit? : List Char → Option (Nat × List Char)
  | a :: b :: c :: d :: rest => do
    let a ← hexDigit? a
    let b ← hexDigit? b
    let c ← hexDigit? c
    let d ← hexDigit? d
    return (((a * 16 + b) * 16 + c) * 16 + d, rest)
  | _ => none

/-- The low surrogate that completes a pair, and the text behind it. -/
def lowSurrogate? : List Char → Option (Nat × List Char)
  | '\\' :: 'u' :: rest => (codeUnit? rest).filter fun p => 0xDC00 ≤ p.1 && p.1 ≤ 0xDFFF
  | _ => none

/-- The character that stands behind `\u`, and the text behind it: a code unit is a character
unless it is a surrogate, and surrogates come in pairs. -/
def unicode? (text : List Char) : Option (Char × List Char) := do
  let (unit, rest) ← codeUnit? text
  if unit < 0xD800 ∨ 0xDFFF < unit then return (Char.ofNat unit, rest)
  else if unit < 0xDC00 then
    let (low, rest) ← lowSurrogate? rest
    return (Char.ofNat (0x10000 + (unit - 0xD800) * 0x400 + (low - 0xDC00)), rest)
  else none

/-- The character that a single letter behind a backslash stands for. -/
def unescapeLetter? : Char → Option Char
  | '"' => some '"'
  | '\\' => some '\\'
  | '/' => some '/'
  | 'b' => some '\x08'
  | 'f' => some '\x0c'
  | 'n' => some '\n'
  | 'r' => some '\r'
  | 't' => some '\t'
  | _ => none

/-- The character that stands behind a backslash, and the text behind it. -/
def escaped? : List Char → Option (Char × List Char)
  | [] => none
  | c :: rest => if c = 'u' then unicode? rest else (unescapeLetter? c).map (·, rest)

theorem length_lt_of_codeUnit {text rest : List Char} {unit : Nat}
    (h : codeUnit? text = some (unit, rest)) : rest.length < text.length := by
  unfold codeUnit? at h
  split at h
  · simp only [Option.bind_eq_bind, Option.bind_eq_some_iff] at h
    obtain ⟨_, -, _, -, _, -, _, -, h⟩ := h
    obtain ⟨-, rfl⟩ := Prod.mk.inj (Option.some.inj h)
    simp only [List.length_cons]
    omega
  · cases h

theorem length_lt_of_lowSurrogate {text rest : List Char} {unit : Nat}
    (h : lowSurrogate? text = some (unit, rest)) : rest.length < text.length := by
  unfold lowSurrogate? at h
  split at h
  · have := length_lt_of_codeUnit (Option.filter_eq_some_iff.mp h).1
    simp only [List.length_cons]
    omega
  · cases h

theorem length_lt_of_unicode {text rest : List Char} {c : Char}
    (h : unicode? text = some (c, rest)) : rest.length < text.length := by
  simp only [unicode?, Option.bind_eq_bind, Option.bind_eq_some_iff] at h
  obtain ⟨⟨unit, behind⟩, hunit, h⟩ := h
  have hbehind := length_lt_of_codeUnit hunit
  split at h
  · obtain ⟨-, rfl⟩ := Prod.mk.inj (Option.some.inj h)
    exact hbehind
  split at h
  · obtain ⟨⟨low, rest'⟩, hlow, h⟩ := Option.bind_eq_some_iff.mp h
    obtain ⟨-, rfl⟩ := Prod.mk.inj (Option.some.inj h)
    exact Nat.lt_trans (length_lt_of_lowSurrogate hlow) hbehind
  · cases h

theorem length_lt_of_escaped {text rest : List Char} {c : Char}
    (h : escaped? text = some (c, rest)) : rest.length < text.length := by
  unfold escaped? at h
  split at h
  · cases h
  split at h
  · exact Nat.lt_trans (length_lt_of_unicode h) (Nat.lt_succ_self _)
  · obtain ⟨_, -, h⟩ := Option.map_eq_some_iff.mp h
    obtain ⟨-, rfl⟩ := Prod.mk.inj h
    exact Nat.lt_succ_self _

/-- The text up to the closing quote, its escapes replaced, and the text behind the quote. Control
characters stand there only as escapes. -/
def unquote? : List Char → Option (List Char × List Char)
  | [] => none
  | c :: rest =>
    if c = '"' then some ([], rest)
    else if c = '\\' then
      match _h : escaped? rest with
      | some (c, rest') => (unquote? rest').map fun p => (c :: p.1, p.2)
      | none => none
    else if c.toNat < 0x20 then none
    else (unquote? rest).map fun p => (c :: p.1, p.2)
termination_by text => text.length
decreasing_by
  · exact Nat.lt_trans (length_lt_of_escaped _h) (Nat.lt_succ_self _)
  · exact Nat.lt_succ_self _

theorem length_lt_of_unquote {text inside rest : List Char}
    (h : unquote? text = some (inside, rest)) : rest.length < text.length := by
  fun_induction unquote? text generalizing inside with
  | case1 => cases h
  | case2 =>
    obtain ⟨-, rfl⟩ := Prod.mk.inj (Option.some.inj h)
    exact Nat.lt_succ_self _
  | case3 _ _ _ hescaped _ ih =>
    obtain ⟨p, hp, h⟩ := Option.map_eq_some_iff.mp h
    obtain ⟨-, rfl⟩ := Prod.mk.inj h
    exact Nat.lt_succ_of_lt (Nat.lt_trans (ih hp) (length_lt_of_escaped hescaped))
  | case4 => cases h
  | case5 => cases h
  | case6 _ _ _ _ _ ih =>
    obtain ⟨p, hp, h⟩ := Option.map_eq_some_iff.mp h
    obtain ⟨-, rfl⟩ := Prod.mk.inj h
    exact Nat.lt_succ_of_lt (ih hp)

/-! ### Numbers -/

/-- Digits without a zero in front of others. -/
def isWholePart (digits : List Char) : Bool :=
  digits == ['0'] || (!digits.isEmpty && digits.head? != some '0')

/-- An exponent with or without a sign, or nothing. -/
def isExponent : List Char → Bool
  | [] => true
  | c :: rest =>
    let digits := if rest.head? = some '+' ∨ rest.head? = some '-' then rest.tail else rest
    (c == 'e' || c == 'E') && !digits.isEmpty && digits.all Char.isDigit

/-- What may stand behind the whole part of a number: a fraction, an exponent, both or nothing. -/
def isFraction : List Char → Bool
  | '.' :: rest =>
    !(rest.takeWhile Char.isDigit).isEmpty && isExponent (rest.dropWhile Char.isDigit)
  | text => isExponent text

/-- A number without a sign. -/
def isUnsigned (text : List Char) : Bool :=
  isWholePart (text.takeWhile Char.isDigit) && isFraction (text.dropWhile Char.isDigit)

/-- The numbers of JSON. -/
def isNumber (text : List Char) : Bool :=
  isUnsigned (if text.head? = some '-' then text.tail else text)

/-- The characters that a number may go on with. -/
def continuesNumber (c : Char) : Bool :=
  c.isDigit || c == '.' || c == 'e' || c == 'E' || c == '+' || c == '-'

/-! ### Words -/

/-- A word of a JSON text. -/
inductive Word where
  | openArray | closeArray | openObject | closeObject | comma | colon | null
  /-- A text between quotes. -/
  | string (text : List Char)
  /-- A number. -/
  | number (digits : List Char)
deriving DecidableEq

/-- White space between words. -/
def isBlank (c : Char) : Bool :=
  c == ' ' || c == '\n' || c == '\r' || c == '\t'

/-- The word made of one character. -/
def mark? : Char → Option Word
  | '[' => some .openArray
  | ']' => some .closeArray
  | '{' => some .openObject
  | '}' => some .closeObject
  | ',' => some .comma
  | ':' => some .colon
  | _ => none

/-- The number that starts with a character, and the text behind it. -/
def number? (c : Char) (rest : List Char) : Option (Word × List Char) :=
  let digits := c :: rest.takeWhile continuesNumber
  if isNumber digits then some (.number digits, rest.dropWhile continuesNumber) else none

/-- The first word of the text `c :: rest`, where `c` is no white space, and the text behind it. -/
def word? (c : Char) (rest : List Char) : Option (Word × List Char) :=
  if c = '"' then (unquote? rest).map fun p => (.string p.1, p.2)
  else if c.isDigit ∨ c = '-' then number? c rest
  else if c = 'n' then
    if rest.take 3 = ['u', 'l', 'l'] then some (.null, rest.drop 3) else none
  else (mark? c).map (·, rest)

theorem length_le_of_word {c : Char} {rest behind : List Char} {w : Word}
    (h : word? c rest = some (w, behind)) : behind.length ≤ rest.length := by
  unfold word? at h
  split at h
  · obtain ⟨p, hp, h⟩ := Option.map_eq_some_iff.mp h
    obtain ⟨-, rfl⟩ := Prod.mk.inj h
    exact Nat.le_of_lt (length_lt_of_unquote hp)
  split at h
  · unfold number? at h
    dsimp only at h
    split at h
    · obtain ⟨-, rfl⟩ := Prod.mk.inj (Option.some.inj h)
      exact (List.dropWhile_suffix _).length_le
    · cases h
  split at h
  · split at h
    · obtain ⟨-, rfl⟩ := Prod.mk.inj (Option.some.inj h)
      exact (List.drop_suffix 3 rest).length_le
    · cases h
  · obtain ⟨_, -, h⟩ := Option.map_eq_some_iff.mp h
    obtain ⟨-, rfl⟩ := Prod.mk.inj h
    exact Nat.le_refl _

/-- The words of a text. -/
def words? : List Char → Option (List Word)
  | [] => some []
  | c :: rest =>
    if isBlank c then words? rest
    else
      match _h : word? c rest with
      | some (w, behind) => (words? behind).map (w :: ·)
      | none => none
termination_by text => text.length
decreasing_by
  · exact Nat.lt_succ_self _
  · exact Nat.lt_succ_of_le (length_le_of_word _h)

/-! ### Documents -/

mutual

/-- The document that words start with, and the words behind it. Documents that nest more than `n`
deep are not read. -/
def value? : Nat → List Word → Option (Json × List Word)
  | _, .null :: ws => some (.null, ws)
  | _, .string text :: ws => some (.string (String.ofList text), ws)
  | _, .number digits :: ws => some (.number (String.ofList digits), ws)
  | n + 1, .openArray :: ws =>
    if ws.head? = some .closeArray then some (.array [], ws.tail)
    else do
      let (e, ws) ← value? n ws
      let (es, ws) ← elements? n ws
      return (.array (e :: es), ws)
  | n + 1, .openObject :: ws =>
    if ws.head? = some .closeObject then some (.object [], ws.tail)
    else do
      let (f, ws) ← field? n ws
      let (fs, ws) ← fields? n ws
      return (.object (f :: fs), ws)
  | _, _ => none

/-- The further elements of an array up to its end, each behind a comma. -/
def elements? : Nat → List Word → Option (List Json × List Word)
  | _, .closeArray :: ws => some ([], ws)
  | n + 1, .comma :: ws => do
    let (e, ws) ← value? n ws
    let (es, ws) ← elements? n ws
    return (e :: es, ws)
  | _, _ => none

/-- The further fields of an object up to its end, each behind a comma. -/
def fields? : Nat → List Word → Option (List (String × Json) × List Word)
  | _, .closeObject :: ws => some ([], ws)
  | n + 1, .comma :: ws => do
    let (f, ws) ← field? n ws
    let (fs, ws) ← fields? n ws
    return (f :: fs, ws)
  | _, _ => none

/-- A field: its key, a colon and its value. -/
def field? : Nat → List Word → Option ((String × Json) × List Word)
  | n + 1, .string key :: .colon :: ws => do
    let (value, ws) ← value? n ws
    return ((String.ofList key, value), ws)
  | _, _ => none

end

/-- The document that a text stands for, if it is a JSON text. Words nest no deeper than there are
words. -/
def read? (text : String) : Option Json :=
  match words? text.toList with
  | none => none
  | some ws =>
    match value? ws.length ws with
    | some (document, []) => some document
    | _ => none

/-! ### Where a run of characters ends -/

/-- A text does not start with a character that satisfies `p`. -/
def Stops (p : Char → Bool) (text : List Char) : Prop :=
  ∀ c ∈ text.head?, p c = false

theorem stops_nil (p : Char → Bool) : Stops p [] := by
  intro c hc
  cases hc

theorem stops_cons {p : Char → Bool} {c : Char} (hc : p c = false) (rest : List Char) :
    Stops p (c :: rest) := by
  intro d hd
  obtain rfl := Option.some.inj hd
  exact hc

/-- A run of characters is cut off where no further one follows. -/
theorem span_append {p : Char → Bool} {run rest : List Char} (hrun : ∀ c ∈ run, p c = true)
    (hstops : Stops p rest) :
    (run ++ rest).takeWhile p = run ∧ (run ++ rest).dropWhile p = rest := by
  rw [List.takeWhile_append_of_pos hrun, List.dropWhile_append_of_pos hrun]
  cases rest with
  | nil => exact ⟨List.append_nil _, rfl⟩
  | cons d rest =>
    have hd : ¬ p d = true := by
      rw [hstops d rfl]
      exact Bool.false_ne_true
    rw [List.takeWhile_cons_of_neg hd, List.dropWhile_cons_of_neg hd, List.append_nil]
    exact ⟨rfl, rfl⟩

end Lox.Json
