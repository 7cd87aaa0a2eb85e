import Lox.Proofs.Json.Reader
import Mathlib.Data.List.TakeWhile

/-!
# Documents are read again as they were written

The indented text of a document whose numbers are numbers of JSON is a JSON text, and it stands for
that document (`Json.read?_pretty`): whatever is written between quotes, no character of it is read
as a quote, a bracket or a comma. The proof follows the reader, through the escapes of a character
(`Json.unquote?_escape`), the words of a text (`Json.words?_layout`) and the nesting of the words
(`Json.value?_words`).
-/

namespace Lox.Json

/-! ### Escapes -/

theorem unescapeLetter_of_escapeLetter {c letter : Char} (h : escapeLetter? c = some letter) :
    unescapeLetter? letter = some c ∧ letter ≠ 'u' := by
  unfold escapeLetter? at h
  split at h <;> first
    | (obtain rfl := Option.some.inj h; exact ⟨rfl, by decide⟩)
    | cases h

/-- A character without a letter for it is neither a quote nor a backslash. -/
theorem ne_of_escapeLetter_eq_none {c : Char} (h : escapeLetter? c = none) :
    c ≠ '"' ∧ c ≠ '\\' := by
  constructor <;> (rintro rfl; exact absurd h (by decide))

theorem hexDigit_digitChar : ∀ n < 16, hexDigit? (Nat.digitChar n) = some n := by
  decide

/-- Four hexadecimal digits stand for the code of a control character. -/
theorem unicode_control {c : Char} (hc : c.toNat < 0x20) (rest : List Char) :
    unicode? ('0' :: '0' :: Nat.digitChar (c.toNat / 16) :: Nat.digitChar (c.toNat % 16) :: rest) =
      some (c, rest) := by
  have hzero : hexDigit? '0' = some 0 := by decide
  have hhigh := hexDigit_digitChar (c.toNat / 16) (by omega)
  have hlow := hexDigit_digitChar (c.toNat % 16) (by omega)
  have hunit : ((0 * 16 + 0) * 16 + c.toNat / 16) * 16 + c.toNat % 16 = c.toNat := by omega
  have hplain : c.toNat < 0xD800 := by omega
  simp only [unicode?, codeUnit?, hzero, hhigh, hlow, Option.bind_eq_bind, Option.bind_some,
    Option.pure_def, hunit, hplain, true_or, if_true, Char.ofNat_toNat]

/-- Behind a backslash the escape is replaced. -/
theorem unquote?_backslash (text : List Char) {rest : List Char} {c : Char}
    (h : escaped? text = some (c, rest)) :
    unquote? ('\\' :: text) = (unquote? rest).map fun p => (c :: p.1, p.2) := by
  rw [unquote?, if_neg (by decide), if_pos rfl]
  split
  · rename_i hsome
    obtain ⟨rfl, rfl⟩ := Prod.mk.inj (Option.some.inj (h.symm.trans hsome))
    rfl
  · rename_i hnone
    exact absurd (h.symm.trans hnone) (Option.some_ne_none _)

/-- **A character between quotes** is read as itself, however it is written. -/
theorem unquote?_escape (c : Char) (rest : List Char) :
    unquote? (escape c ++ rest) = (unquote? rest).map fun p => (c :: p.1, p.2) := by
  unfold escape
  split
  case h_1 letter hletter =>
    obtain ⟨hback, hu⟩ := unescapeLetter_of_escapeLetter hletter
    refine unquote?_backslash (letter :: rest) ?_
    rw [escaped?, if_neg hu, hback]
    rfl
  case h_2 hletter =>
    obtain ⟨hquote, hslash⟩ := ne_of_escapeLetter_eq_none hletter
    split
    · rename_i hc
      refine unquote?_backslash ('u' :: '0' :: '0' :: _ :: _ :: rest) ?_
      rw [escaped?, if_pos rfl, unicode_control hc]
    · rename_i hc
      rw [List.cons_append, List.nil_append, unquote?, if_neg hquote, if_neg hslash, if_neg hc]

/-- A text between quotes is read as itself, up to the quote that closes it. -/
theorem unquote?_quoted (text rest : List Char) :
    unquote? (text.flatMap escape ++ '"' :: rest) = some (text, rest) := by
  induction text with
  | nil => rw [List.flatMap_nil, List.nil_append, unquote?, if_pos rfl]
  | cons c text ih =>
    rw [List.flatMap_cons, List.append_assoc, unquote?_escape, ih]
    rfl

/-! ### The words of a text -/

/-- White space in front of words is passed over. -/
theorem words?_newline (level : Nat) (rest : List Char) :
    words? (newline level ++ rest) = words? rest := by
  have hblanks : ∀ n, words? (List.replicate n ' ' ++ rest) = words? rest := by
    intro n
    induction n with
    | zero => rfl
    | succ n ih => rw [List.replicate_succ, List.cons_append, words?, if_pos (by decide), ih]
  rw [newline, List.cons_append, words?, if_pos (by decide), hblanks]

/-- A word that is read in front of words. -/
theorem words?_cons {c : Char} {rest behind : List Char} {w : Word} {ws : List Word}
    (hc : isBlank c = false) (hword : word? c rest = some (w, behind))
    (hbehind : words? behind = some ws) : words? (c :: rest) = some (w :: ws) := by
  rw [words?, if_neg (by rw [hc]; exact Bool.false_ne_true)]
  split
  · rename_i hsome
    obtain ⟨rfl, rfl⟩ := Prod.mk.inj (Option.some.inj (hword.symm.trans hsome))
    rw [hbehind]
    rfl
  · rename_i hnone
    exact absurd (hword.symm.trans hnone) (Option.some_ne_none _)

theorem words?_mark {c : Char} {rest : List Char} {w : Word} {ws : List Word}
    (hmark : mark? c = some w) (hrest : words? rest = some ws) :
    words? (c :: rest) = some (w :: ws) := by
  have hc : isBlank c = false ∧ c ≠ '"' ∧ ¬ (c.isDigit ∨ c = '-') ∧ c ≠ 'n' := by
    unfold mark? at hmark
    split at hmark <;> first | decide | cases hmark
  obtain ⟨hblank, hquote, hnumber, hnull⟩ := hc
  refine words?_cons hblank ?_ hrest
  rw [word?, if_neg hquote, if_neg hnumber, if_neg hnull, hmark]
  rfl

theorem words?_null {rest : List Char} {ws : List Word} (hrest : words? rest = some ws) :
    words? ('n' :: 'u' :: 'l' :: 'l' :: rest) = some (.null :: ws) :=
  words?_cons rfl rfl hrest

theorem words?_quote (text : List Char) {rest : List Char} {ws : List Word}
    (hrest : words? rest = some ws) : words? (quote text ++ rest) = some (.string text :: ws) := by
  have htext : quote text ++ rest = '"' :: (text.flatMap escape ++ '"' :: rest) := by
    simp only [quote, List.cons_append, List.append_assoc, List.nil_append]
  rw [htext]
  refine words?_cons rfl ?_ hrest
  rw [word?, if_pos rfl, unquote?_quoted]
  rfl

/-- The key of a field, and the colon behind it. -/
theorem words?_field (key : String) {rest : List Char} {ws : List Word}
    (hrest : words? rest = some ws) : words? (quote key.toList ++ ':' :: ' ' :: rest) =
      some (.string key.toList :: .colon :: ws) := by
  refine words?_quote _ (words?_mark rfl ?_)
  rw [words?, if_pos (by decide), hrest]

/-! ### Numbers among words -/

theorem isDigit_or_minus_of_isNumber {c : Char} {rest : List Char}
    (h : isNumber (c :: rest) = true) : c.isDigit ∨ c = '-' := by
  by_cases hminus : c = '-'
  · exact .inr hminus
  · refine .inl ?_
    rw [isNumber, if_neg (by simpa using hminus), isUnsigned, Bool.and_eq_true] at h
    by_contra hdigit
    rw [List.takeWhile_cons_of_neg hdigit] at h
    exact absurd h.1 (by decide)

theorem continuesNumber_of_isDigit {c : Char} (h : c.isDigit) : continuesNumber c = true := by
  simp only [continuesNumber, h, Bool.true_or]

theorem all_continuesNumber_of_isExponent {text : List Char} (h : isExponent text = true) :
    ∀ c ∈ text, continuesNumber c = true := by
  cases text with
  | nil => exact fun c hc => absurd hc List.not_mem_nil
  | cons e rest =>
    rw [isExponent, Bool.and_eq_true, Bool.and_eq_true] at h
    obtain ⟨⟨he, -⟩, hdigits⟩ := h
    have hmark : continuesNumber e = true := by
      rcases Bool.or_eq_true_iff.mp he with he | he <;> rw [beq_iff_eq.mp he] <;> decide
    have hrest : ∀ c ∈ rest, continuesNumber c = true := by
      intro c hc
      split at hdigits
      · rename_i hsign
        obtain ⟨d, tail, rfl⟩ : ∃ d tail, rest = d :: tail := by
          cases rest with
          | nil => exact absurd hsign (by decide)
          | cons d tail => exact ⟨d, tail, rfl⟩
        rcases List.mem_cons.mp hc with rfl | hc
        · rcases hsign with hsign | hsign <;> rw [Option.some.inj hsign] <;> decide
        · exact continuesNumber_of_isDigit (List.all_eq_true.mp hdigits c hc)
      · exact continuesNumber_of_isDigit (List.all_eq_true.mp hdigits c hc)
    exact List.forall_mem_cons.mpr ⟨hmark, hrest⟩

theorem all_continuesNumber_of_split {p : List Char → Bool}
    (hp : ∀ {text}, p text = true → ∀ c ∈ text, continuesNumber c = true) {text : List Char}
    (h : p (text.dropWhile Char.isDigit) = true) : ∀ c ∈ text, continuesNumber c = true := by
  intro c hc
  rw [← List.takeWhile_append_dropWhile (p := Char.isDigit) (l := text)] at hc
  rcases List.mem_append.mp hc with hc | hc
  · exact continuesNumber_of_isDigit (List.mem_takeWhile_imp hc)
  · exact hp h c hc

theorem all_continuesNumber_of_isFraction {text : List Char} (h : isFraction text = true) :
    ∀ c ∈ text, continuesNumber c = true := by
  unfold isFraction at h
  split at h
  · refine List.forall_mem_cons.mpr ⟨by decide, ?_⟩
    exact all_continuesNumber_of_split all_continuesNumber_of_isExponent
      (Bool.and_eq_true_iff.mp h).2
  · exact all_continuesNumber_of_isExponent h

/-- All characters of a number are such as a number goes on with. -/
theorem all_continuesNumber {text : List Char} (h : isNumber text = true) :
    ∀ c ∈ text, continuesNumber c = true := by
  have hunsigned : ∀ {text}, isUnsigned text = true → ∀ c ∈ text, continuesNumber c = true :=
    fun h => all_continuesNumber_of_split all_continuesNumber_of_isFraction
      (Bool.and_eq_true_iff.mp h).2
  unfold isNumber at h
  split at h
  · cases text with
    | nil => exact fun c hc => absurd hc List.not_mem_nil
    | cons d rest =>
      rename_i hminus
      rw [Option.some.inj hminus]
      exact List.forall_mem_cons.mpr ⟨by decide, hunsigned h⟩
  · exact hunsigned h

/-- A number is read as a whole where it cannot go on. -/
theorem words?_number {digits rest : List Char} {ws : List Word} (h : isNumber digits = true)
    (hstops : Stops continuesNumber rest) (hrest : words? rest = some ws) :
    words? (digits ++ rest) = some (.number digits :: ws) := by
  cases digits with
  | nil => exact absurd h (by decide)
  | cons c digits =>
    have hstart := isDigit_or_minus_of_isNumber h
    obtain ⟨htake, hdrop⟩ := span_append
      (List.forall_mem_cons.mp (all_continuesNumber h)).2 hstops
    have hc : isBlank c = false ∧ c ≠ '"' := by
      rcases hstart with hdigit | rfl
      · constructor
        · by_contra hblank
          simp only [isBlank, Bool.not_eq_false, Bool.or_eq_true, beq_iff_eq] at hblank
          rcases hblank with ((rfl | rfl) | rfl) | rfl <;> exact absurd hdigit (by decide)
        · rintro rfl
          exact absurd hdigit (by decide)
      · decide
    rw [List.cons_append]
    refine words?_cons hc.1 ?_ hrest
    rw [word?, if_neg hc.2, if_pos hstart, number?, htake, hdrop, if_pos h]

/-! ### The words of a document -/

mutual

/-- The words of a document. -/
def words : Json → List Word
  | .null => [.null]
  | .string text => [.string text.toList]
  | .number digits => [.number digits.toList]
  | .array [] => [.openArray, .closeArray]
  | .array (e :: es) => .openArray :: words e ++ elementWords es ++ [.closeArray]
  | .object [] => [.openObject, .closeObject]
  | .object ((key, value) :: fields) =>
    .openObject :: .string key.toList :: .colon :: words value ++ fieldWords fields ++
      [.closeObject]

/-- The words of the further elements of an array. -/
def elementWords : List Json → List Word
  | [] => []
  | e :: es => .comma :: words e ++ elementWords es

/-- The words of the further fields of an object. -/
def fieldWords : List (String × Json) → List Word
  | [] => []
  | (key, value) :: fields =>
    .comma :: .string key.toList :: .colon :: words value ++ fieldWords fields

end

mutual

/-- All numbers of a document are numbers of JSON. -/
def Numeric : Json → Prop
  | .null => True
  | .string _ => True
  | .number digits => isNumber digits.toList = true
  | .array elements => NumericElements elements
  | .object fields => NumericFields fields

/-- All numbers of some elements are numbers of JSON. -/
def NumericElements : List Json → Prop
  | [] => True
  | e :: es => Numeric e ∧ NumericElements es

/-- All numbers of some fields are numbers of JSON. -/
def NumericFields : List (String × Json) → Prop
  | [] => True
  | (_, value) :: fields => Numeric value ∧ NumericFields fields

end

theorem stops_newline (level : Nat) (rest : List Char) :
    Stops continuesNumber (newline level ++ rest) :=
  stops_cons (by decide) _

theorem stops_elements (level : Nat) (es : List Json) {rest : List Char}
    (hstops : Stops continuesNumber rest) :
    Stops continuesNumber (layoutElements level es ++ rest) := by
  cases es with
  | nil => exact hstops
  | cons e es => exact stops_cons (by decide) _

theorem stops_fields (level : Nat) (fields : List (String × Json)) {rest : List Char}
    (hstops : Stops continuesNumber rest) :
    Stops continuesNumber (layoutFields level fields ++ rest) := by
  cases fields with
  | nil => exact hstops
  | cons field fields => exact stops_cons (by decide) _

mutual

/-- **The words of an indented document** are those of the document, wherever it stands. -/
theorem words?_layout (level : Nat) {rest : List Char} {ws : List Word}
    (hstops : Stops continuesNumber rest) (hrest : words? rest = some ws) :
    ∀ d : Json, d.Numeric → words? (d.layout level ++ rest) = some (d.words ++ ws)
  | .null, _ => words?_null hrest
  | .string text, _ => words?_quote text.toList hrest
  | .number digits, h => words?_number h hstops hrest
  | .array [], _ => words?_mark rfl (words?_mark rfl hrest)
  | .array (e :: es), h => by
    have hclose := words?_mark (c := ']') rfl hrest
    rw [← words?_newline level] at hclose
    have helements := words?_elements (level + 1) (stops_newline level _) hclose es h.2
    have hfirst := words?_layout (level + 1)
      (stops_elements (level + 1) es (stops_newline level _)) helements e h.1
    rw [← words?_newline (level + 1)] at hfirst
    have hopen := words?_mark (c := '[') rfl hfirst
    simpa only [layout, words, List.cons_append, List.append_assoc, List.nil_append] using hopen
  | .object [], _ => words?_mark rfl (words?_mark rfl hrest)
  | .object ((key, value) :: fields), h => by
    have hclose := words?_mark (c := '}') rfl hrest
    rw [← words?_newline level] at hclose
    have hfields := words?_fields (level + 1) (stops_newline level _) hclose fields h.2
    have hvalue := words?_layout (level + 1)
      (stops_fields (level + 1) fields (stops_newline level _)) hfields value h.1
    have hkey := words?_field key hvalue
    rw [← words?_newline (level + 1)] at hkey
    have hopen := words?_mark (c := '\x7b') rfl hkey
    simpa only [layout, words, List.cons_append, List.append_assoc, List.nil_append] using hopen

/-- The words of the further elements of an array. -/
theorem words?_elements (level : Nat) {rest : List Char} {ws : List Word}
    (hstops : Stops continuesNumber rest) (hrest : words? rest = some ws) :
    ∀ es : List Json, NumericElements es →
      words? (layoutElements level es ++ rest) = some (elementWords es ++ ws)
  | [], _ => hrest
  | e :: es, h => by
    have helements := words?_elements level hstops hrest es h.2
    have hfirst := words?_layout level (stops_elements level es hstops) helements e h.1
    rw [← words?_newline level] at hfirst
    have hcomma := words?_mark (c := ',') rfl hfirst
    simpa only [layoutElements, elementWords, List.cons_append, List.append_assoc] using hcomma

/-- The words of the further fields of an object. -/
theorem words?_fields (level : Nat) {rest : List Char} {ws : List Word}
    (hstops : Stops continuesNumber rest) (hrest : words? rest = some ws) :
    ∀ fields : List (String × Json), NumericFields fields →
      words? (layoutFields level fields ++ rest) = some (fieldWords fields ++ ws)
  | [], _ => hrest
  | (key, value) :: fields, h => by
    have hfields := words?_fields level hstops hrest fields h.2
    have hvalue := words?_layout level (stops_fields level fields hstops) hfields value h.1
    have hkey := words?_field key hvalue
    rw [← words?_newline level] at hkey
    have hcomma := words?_mark (c := ',') rfl hkey
    simpa only [layoutFields, fieldWords, List.cons_append, List.append_assoc] using hcomma

end

/-! ### The nesting of words -/

/-- The words of a document do not start with the end of an array. -/
theorem head?_words_append (d : Json) (ws : List Word) :
    (d.words ++ ws).head? ≠ some .closeArray := by
  unfold words
  split <;> simp only [List.cons_append, List.head?_cons, ne_eq, Option.some.injEq, reduceCtorEq,
    not_false_eq_true]

mutual

/-- **The words of a document** are read as the document, if the bound is not lower than their
number. -/
theorem value?_words (rest : List Word) : ∀ (d : Json) {n : Nat}, d.words.length ≤ n →
    value? n (d.words ++ rest) = some (d, rest)
  | .null, n, _ => by rw [words, List.cons_append, value?, List.nil_append]
  | .string text, n, _ => by
    rw [words, List.cons_append, value?, List.nil_append, String.ofList_toList]
  | .number digits, n, _ => by
    rw [words, List.cons_append, value?, List.nil_append, String.ofList_toList]
  | .array [], n + 1, _ => by
    simp only [words, List.cons_append, List.nil_append, value?, List.head?_cons, if_true,
      List.tail_cons]
  | .array (e :: es), n + 1, h => by
    simp only [words, List.length_append, List.length_cons] at h
    have hfirst := value?_words (elementWords es ++ .closeArray :: rest) e
      (n := n) (by omega)
    have helements := elements?_words rest es (n := n) (by omega)
    simp only [words, List.cons_append, List.append_assoc, List.nil_append, value?,
      head?_words_append, if_false, hfirst, helements, Option.bind_eq_bind, Option.bind_some,
      Option.pure_def]
  | .object [], n + 1, _ => by
    simp only [words, List.cons_append, List.nil_append, value?, List.head?_cons, if_true,
      List.tail_cons]
  | .object ((key, value) :: fields), n + 1, h => by
    simp only [words, List.length_append, List.length_cons] at h
    have hfirst := field?_words (fieldWords fields ++ .closeObject :: rest) key value
      (n := n) (by omega)
    have hfields := fields?_words rest fields (n := n) (by omega)
    simp only [words, List.cons_append, List.append_assoc, List.nil_append, value?,
      List.head?_cons, Option.some.injEq, reduceCtorEq, if_false, hfirst, hfields,
      Option.bind_eq_bind, Option.bind_some, Option.pure_def]

/-- The words of the further elements of an array, up to its end. -/
theorem elements?_words (rest : List Word) : ∀ (es : List Json) {n : Nat},
    (elementWords es).length ≤ n →
    elements? n (elementWords es ++ .closeArray :: rest) = some (es, rest)
  | [], n, _ => by rw [elementWords, List.nil_append, elements?]
  | e :: es, n + 1, h => by
    simp only [elementWords, List.length_append, List.length_cons] at h
    have hfirst := value?_words (elementWords es ++ .closeArray :: rest) e
      (n := n) (by omega)
    have helements := elements?_words rest es (n := n) (by omega)
    simp only [elementWords, List.cons_append, List.append_assoc, elements?, hfirst, helements,
      Option.bind_eq_bind, Option.bind_some, Option.pure_def]

/-- The words of the further fields of an object, up to its end. -/
theorem fields?_words (rest : List Word) : ∀ (fields : List (String × Json)) {n : Nat},
    (fieldWords fields).length ≤ n →
    fields? n (fieldWords fields ++ .closeObject :: rest) = some (fields, rest)
  | [], n, _ => by rw [fieldWords, List.nil_append, fields?]
  | (key, value) :: fields, n + 1, h => by
    simp only [fieldWords, List.length_append, List.length_cons] at h
    have hfirst := field?_words (fieldWords fields ++ .closeObject :: rest) key value
      (n := n) (by omega)
    have hfields := fields?_words rest fields (n := n) (by omega)
    simp only [fieldWords, List.cons_append, List.append_assoc, fields?, hfirst, hfields,
      Option.bind_eq_bind, Option.bind_some, Option.pure_def]

/-- The words of a field. -/
theorem field?_words (rest : List Word) : ∀ (key : String) (value : Json) {n : Nat},
    value.words.length + 1 ≤ n →
    field? n (.string key.toList :: .colon :: (value.words ++ rest)) = some ((key, value), rest)
  | key, value, n + 1, h => by
    have hvalue := value?_words rest value (n := n) (by omega)
    simp only [field?, hvalue, Option.bind_eq_bind, Option.bind_some, Option.pure_def,
      String.ofList_toList]

end

/-- **A document is read again from its text.** If its numbers are numbers of JSON, its indented
text is a JSON text, with or without white space behind it, and stands for the document. -/
theorem read?_pretty {d : Json} (h : d.Numeric) {behind : List Char}
    (hbehind : words? behind = some []) (hstops : Stops continuesNumber behind) :
    read? (d.pretty ++ String.ofList behind) = some d := by
  have hwords := words?_layout 0 hstops hbehind d h
  rw [List.append_nil] at hwords
  have hvalue := value?_words [] d (le_refl d.words.length)
  rw [List.append_nil] at hvalue
  rw [read?, pretty, String.toList_append, String.toList_ofList, String.toList_ofList, hwords]
  simp only [hvalue]

end Lox.Json
