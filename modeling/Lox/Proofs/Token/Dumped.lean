import Lox.Command
import Lox.Proofs.Decimal.Written
import Lox.Proofs.Json.Reread
import Lox.Proofs.Token.Partition
import Mathlib.Data.List.Forall2

/-!
# Token dumps are read back

What is dumped of the tokens of a text is a JSON text: an array with one object for each token, the
end of the input included. From an object the token is read back, its kind, its text and its line,
and the text of a string (`Token.dump_reread`); whatever the lexemes hold, no part of one is taken
for another token. A number that is not finite is dumped as `null`, so the value of a number is
taken from the digits of its lexeme.
-/

namespace Lox

/-! ### Reading the documents of a dump -/

/-- The kinds that are dumped as their name. -/
def Kind.plain : List Kind :=
  (Symbol.marks ++ Symbol.words).map Kind.symbol ++ [.identifier, .eof]

/-- The kind that a document of a dump stands for. A number gets the value given. -/
def Kind.ofJson? (value : Float) : Json → Option Kind
  | .string name => plain.find? fun k => k.label == name
  | .object [(name, .string text)] =>
    if name = (Kind.string text).label then some (.string text) else none
  | .object [(name, .number _)] | .object [(name, .null)] =>
    if name = (Kind.number value).label then some (.number value) else none
  | _ => none

/-- The natural number that digits stand for. -/
def Token.natural? (digits : String) : Option Nat :=
  if digits.toList.all Char.isDigit then some (Nat.ofDigitChars 10 digits.toList 0) else none

/-- The token that a document of a dump stands for. -/
def Token.ofJson? : Json → Option Token
  | .object fields =>
    match fields.lookup "token_type", fields.lookup "lexeme", fields.lookup "line" with
    | some kind, some (.string lexeme), some (.number line) => do
      let kind ← Kind.ofJson? (Decimal.ofDigits lexeme.toList) kind
      let line ← natural? line
      return ⟨kind, lexeme, line⟩
    | _, _, _ => none
  | _ => none

/-! ### The documents of the kinds -/

/-- A symbol is found again by its name. -/
theorem Symbol.find?_label (s : Symbol) :
    ((marks ++ words).find? fun s' => s'.label == s.label) = some s := by
  cases s <;> decide

/-- No symbol is called like a name or the end of the input. -/
theorem Symbol.label_ne (s : Symbol) :
    s.label ≠ Kind.identifier.label ∧ s.label ≠ Kind.eof.label := by
  cases s <;> decide

theorem Kind.find?_plain_symbol (s : Symbol) :
    (plain.find? fun k => k.label == s.label) = some (.symbol s) := by
  have hsymbols : (((Symbol.marks ++ Symbol.words).map Kind.symbol).find? fun k =>
      k.label == s.label) = some (.symbol s) := by
    rw [List.find?_map]
    exact congrArg (Option.map Kind.symbol) s.find?_label
  rw [plain, List.find?_append, hsymbols]
  rfl

theorem Kind.find?_plain_of_ne {k : Kind} (h : ∀ s : Symbol, s.label ≠ k.label) :
    (plain.find? fun k' => k'.label == k.label) =
      [identifier, eof].find? fun k' => k'.label == k.label := by
  have hsymbols : (((Symbol.marks ++ Symbol.words).map Kind.symbol).find? fun k' =>
      k'.label == k.label) = none := by
    refine List.find?_eq_none.mpr fun k' hk' => ?_
    obtain ⟨s, -, rfl⟩ := List.mem_map.mp hk'
    exact fun heq => h s (beq_iff_eq.mp heq)
  rw [plain, List.find?_append, hsymbols]
  rfl

/-- A kind has a document with numbers of JSON that is written like its dump and from which it is
read back. -/
theorem Kind.exists_document (k : Kind) {value : Float} (hvalue : ∀ x, k = .number x → x = value) :
    ∃ d : Json, d.Numeric ∧ (∀ level, d.layout level = k.toJson.layout level) ∧
      Kind.ofJson? value d = some k := by
  cases k with
  | symbol s => exact ⟨.string s.label, trivial, fun _ => rfl, find?_plain_symbol s⟩
  | identifier =>
    refine ⟨.string identifier.label, trivial, fun _ => rfl, ?_⟩
    exact (find?_plain_of_ne fun s => s.label_ne.1).trans (List.find?_cons_of_pos (by decide))
  | eof =>
    refine ⟨.string eof.label, trivial, fun _ => rfl, ?_⟩
    refine (find?_plain_of_ne fun s => s.label_ne.2).trans ?_
    rw [List.find?_cons_of_neg (by decide), List.find?_cons_of_pos (by decide)]
  | string text =>
    refine ⟨.object [(_, .string text)], ⟨trivial, trivial⟩, fun _ => rfl, ?_⟩
    rw [ofJson?, if_pos rfl]
  | number x =>
    obtain rfl := hvalue x rfl
    cases hfinite : Decimal.Binary.ofFloat? x with
    | some b =>
      refine ⟨.object [(_, .number (Token.dumpNumberStyle.writeFinite b))],
        ⟨Decimal.NumberStyle.isNumber_writeFinite rfl rfl b, trivial⟩, fun level => ?_, if_pos rfl⟩
      rw [toJson, Decimal.NumberStyle.write, hfinite]
    | none =>
      have hnull : Token.dumpNumberStyle.write x = "null" := by
        rw [Decimal.NumberStyle.write, hfinite]
        dsimp only [Token.dumpNumberStyle]
        rw [ite_self, ite_self]
      refine ⟨.object [(_, .null)], ⟨trivial, trivial⟩, fun level => ?_, if_pos rfl⟩
      rw [toJson, hnull]
      rfl

/-! ### The documents of the tokens -/

theorem Token.natural?_toString (n : Nat) : natural? (toString n) = some n := by
  rw [natural?, Nat.toString_eq_ofList_toDigits, String.toList_ofList,
    if_pos (List.all_eq_true.mpr (Decimal.all_isDigit_toDigits n)), Nat.ofDigitChars_ten_toDigits]

/-- A token has a document with numbers of JSON that is written like its dump and from which it is
read back, if the value of a number is that of its digits. -/
theorem Token.exists_document {t : Token}
    (ht : ∀ x, t.kind = .number x → x = Decimal.ofDigits t.lexeme.toList) :
    ∃ fields, (Json.object fields).Numeric ∧
      (∀ level, (Json.object fields).layout level = t.toJson.layout level) ∧
      Token.ofJson? (.object fields) = some t := by
  obtain ⟨kind, hnumeric, hlayout, hread⟩ := Kind.exists_document t.kind ht
  refine ⟨[("token_type", kind), ("lexeme", .string t.lexeme), ("line", .number (toString t.line))],
    ⟨hnumeric, trivial, Decimal.isNumber_toString t.line, trivial⟩, fun level => ?_, ?_⟩
  · rw [toJson, Json.layout, Json.layout, hlayout]
  · simp only [ofJson?, List.lookup_cons, beq_self_eq_true, String.reduceBEq, hread,
      natural?_toString, Option.bind_eq_bind, Option.bind_some, Option.pure_def]

/-- The tokens of a list have documents from which they are read back, one after another. -/
theorem Token.exists_documents {ts : List Token}
    (hts : ∀ t ∈ ts, ∀ x, t.kind = .number x → x = Decimal.ofDigits t.lexeme.toList) :
    ∃ ds : List Json, Json.NumericElements ds ∧
      (∀ level, (Json.array ds).layout level = (Json.array (ts.map toJson)).layout level) ∧
      (∀ level, Json.layoutElements level ds = Json.layoutElements level (ts.map toJson)) ∧
      List.Forall₂ (fun d t => (∃ fields, d = .object fields) ∧ Token.ofJson? d = some t)
        ds ts := by
  induction ts with
  | nil => exact ⟨[], trivial, fun _ => rfl, fun _ => rfl, .nil⟩
  | cons t ts ih =>
    obtain ⟨ht, hts⟩ := List.forall_mem_cons.mp hts
    obtain ⟨fields, hnumeric, hlayout, hread⟩ := exists_document ht
    obtain ⟨ds, hnumerics, -, hlayouts, hreads⟩ := ih hts
    refine ⟨.object fields :: ds, ⟨hnumeric, hnumerics⟩, fun level => ?_, fun level => ?_,
      .cons ⟨⟨fields, rfl⟩, hread⟩ hreads⟩
    · rw [List.map_cons, Json.layout, Json.layout, hlayout, hlayouts]
    · rw [List.map_cons, Json.layoutElements, Json.layoutElements, hlayout, hlayouts]

/-- **The dump of the tokens of a text is read back.** What is printed is, with the newline behind
it, a JSON text. It stands for an array with one object for each token in order, the last one for
the end of the input, and each object is read back as its token. -/
theorem Token.dump_reread (host : Host) (n : Nat) (source : String) :
    ∃ (t : Transcript) (text : String) (documents : List Json),
      (Action.tokenize true).perform host n source = some t ∧ t.output = text.toUTF8 ∧
      Json.read? text = some (.array documents) ∧
      List.Forall₂ (fun d token => (∃ fields, d = .object fields) ∧ Token.ofJson? d = some token)
        documents (tokens source) ∧
      ∃ eof, (tokens source).getLast? = some eof ∧ eof.kind = .eof := by
  have hnumbers : ∀ t ∈ tokens source, ∀ x, t.kind = .number x →
      x = Decimal.ofDigits t.lexeme.toList := by
    intro t ht x hx
    have hspells := spells_of_mem_tokens t ht
    rw [hx] at hspells
    exact hspells.resolve_left (by simp)
  obtain ⟨ds, hnumeric, hlayout, -, hreads⟩ := Token.exists_documents hnumbers
  obtain ⟨eof, heof, -, htokens⟩ := tokens_eq_append source
  refine ⟨_, Token.dump (tokens source) ++ "\n", ds, rfl, rfl, ?_, hreads, eof, ?_, heof⟩
  · have hpretty : Token.dump (tokens source) = (Json.array ds).pretty := by
      rw [Token.dump, Json.pretty, Json.pretty, hlayout]
    rw [hpretty]
    have hbehind : Json.words? ['\n'] = some [] := by
      rw [Json.words?, if_pos (by decide), Json.words?]
    exact Json.read?_pretty (d := .array ds) hnumeric hbehind (Json.stops_cons (by decide) _)
  · rw [htokens, List.getLast?_concat]

end Lox
