import Lox.Proofs.Decimal.WholeForm
import Lox.Proofs.Decimal.Written
import Lox.Proofs.Program.Spelled
import Lox.Proofs.Program.Varies

/-!
# Words that can be read back

A word is **readable** when it is spelled as it should be, is no string, no infinite number and no
name that is the mark for an absent part. Such a word is a word in its text too
(`Word.IsReadable.isWord`), and the text tells what it was made from: the kind of a token
(`Token.lines_of_lexeme_eq`) and the value of a constant (`Literal.eq_of_form_eq`).
-/

namespace Lox

/-- A word is **plain** when it is no string, no number without a finite value, and no name that is
the mark for an absent part. -/
def Word.IsPlain : Word → Prop
  | constant (.text _) => False
  | constant (.number value) => (Decimal.Binary.ofFloat? value).isSome = true
  | name t | reference t => t.lexeme ≠ "_"
  | _ => True

instance : DecidablePred Word.IsPlain
  | .constant (.text _) => .isFalse id
  | .constant (.number _) => inferInstanceAs (Decidable (_ = _))
  | .name _ | .reference _ => inferInstanceAs (Decidable (_ ≠ _))
  | .constant (.bool _) | .constant .nil | .head _ _ | .symbol _ _ | .call _ => .isTrue trivial

/-- A word is spelled, and plain. -/
structure Word.IsReadable (w : Word) : Prop where
  /-- The word is spelled. -/
  spelled : w.IsSpelled
  /-- The word is plain. -/
  plain : w.IsPlain

/-! ### Texts of numbers -/

namespace Literal

/-- A number of a run of digits that is finite is written with digits and a point. -/
theorem form_number {value : Float} (h : (Word.constant (.number value)).IsReadable) :
    ∃ n : Nat, (number value).form.toList = Nat.toDigits 10 n ++ ".0".toList := by
  obtain ⟨⟨digits, rfl⟩, hfinite⟩ := h
  have hnatural := Decimal.isNatural_ofDigits hfinite
  refine ⟨Decimal.value (Decimal.ofDigits digits).toModel.unpack, ?_⟩
  rw [form, hnatural.write_eq rfl, String.toList_append, Nat.toString_eq_ofList_toDigits,
    String.toList_ofList]
  rfl

theorem isDigit_head_form_number {value : Float} (h : (Word.constant (.number value)).IsReadable) :
    ∃ c cs, (number value).form.toList = c :: cs ∧ c.isDigit = true := by
  obtain ⟨n, hform⟩ := form_number h
  obtain ⟨c, cs, hdigits⟩ := List.exists_cons_of_ne_nil (Nat.toDigits_ne_nil (n := n) (b := 10))
  refine ⟨c, cs ++ ".0".toList, by rw [hform, hdigits]; rfl, ?_⟩
  exact Decimal.all_isDigit_toDigits n c (hdigits ▸ List.mem_cons_self)

theorem number_inj {value value' : Float} (h : (Word.constant (.number value)).IsReadable)
    (h' : (Word.constant (.number value')).IsReadable)
    (hform : (number value).form = (number value').form) : value = value' := by
  obtain ⟨⟨digits, rfl⟩, hfinite⟩ := h
  obtain ⟨⟨digits', rfl⟩, hfinite'⟩ := h'
  exact (Decimal.isNatural_ofDigits hfinite).write_inj (Decimal.isNatural_ofDigits hfinite') rfl
    hform

end Literal

/-! ### Texts are words -/

/-- What holds of no character between words holds of characters of words only. -/
theorem inWord_of {p : Char → Bool} {c : Char} (hc : p c = true) (hspace : p ' ' = false)
    (hopen : p '(' = false) (hclose : p ')' = false) : inWord c = true := by
  have hne : ∀ d, p d = false → (c != d) = true := by
    rintro d hd
    refine bne_iff_ne.mpr ?_
    rintro rfl
    exact Bool.false_ne_true (hd.symm.trans hc)
  rw [inWord, hne _ hspace, hne _ hopen, hne _ hclose]
  rfl

theorem IsIdentifier.isWord {text : String} (h : IsIdentifier text) : IsWord text := by
  obtain ⟨c, cs, htext, hc, hcs⟩ := h.name
  rw [IsWord, htext]
  refine ⟨List.cons_ne_nil c cs, List.all_eq_true.mpr (List.forall_mem_cons.mpr ⟨?_, ?_⟩)⟩
  · exact inWord_of hc (by decide) (by decide) (by decide)
  · exact fun d hd => inWord_of (hcs d hd) (by decide) (by decide) (by decide)

theorem Literal.isWord_form_number {value : Float}
    (h : (Word.constant (.number value)).IsReadable) : IsWord (number value).form := by
  obtain ⟨n, hform⟩ := form_number h
  rw [IsWord, hform]
  refine ⟨List.append_ne_nil_of_left_ne_nil Nat.toDigits_ne_nil _, ?_⟩
  rw [List.all_append, Bool.and_eq_true, List.all_eq_true]
  refine ⟨fun c hc => ?_, by decide⟩
  exact inWord_of (Decimal.all_isDigit_toDigits n c hc) (by decide) (by decide) (by decide)

theorem Symbol.isWord_spelling {x : Symbol} (hopen : x ≠ .leftParen) (hclose : x ≠ .rightParen) :
    IsWord x.spelling := by
  cases x with
  | leftParen => exact absurd rfl hopen
  | rightParen => exact absurd rfl hclose
  | _ => decide

/-- Parentheses stand in no place of a tree. -/
theorem Mark.ne_paren {m : Mark} : ∀ x ∈ m.symbols, x ≠ .leftParen ∧ x ≠ .rightParen := by
  cases m <;> decide

/-- The text of a readable word is a word. -/
theorem Word.IsReadable.isWord {w : Word} (h : w.IsReadable) : IsWord w.text := by
  have hidentifier : ∀ t : Token, t.kind = .identifier → t.IsSpelled → IsWord t.lexeme := by
    intro t hkind ht
    rw [Token.IsSpelled, hkind] at ht
    exact IsIdentifier.isWord ht
  have hsymbol : ∀ (t : Token) (x : Symbol), t.kind = .symbol x → t.IsSpelled →
      t.lexeme = x.spelling := by
    intro t x hkind ht
    rwa [Token.IsSpelled, hkind] at ht
  cases w with
  | head text hword => exact hword
  | constant value =>
    cases value with
    | number value => exact Literal.isWord_form_number h
    | text value => exact h.plain.elim
    | bool b => cases b <;> exact (by decide)
    | nil => exact (by decide)
  | name t => exact hidentifier t h.spelled.1 h.spelled.2
  | reference t =>
    obtain ⟨hkind | hkind, ht⟩ := h.spelled
    · exact hidentifier t hkind ht
    · rw [text, hsymbol t _ hkind ht]
      decide
  | symbol mark t =>
    obtain ⟨⟨x, hx, hkind⟩, ht⟩ := h.spelled
    rw [text, hsymbol t x hkind ht]
    obtain ⟨hopen, hclose⟩ := Mark.ne_paren x hx
    exact Symbol.isWord_spelling hopen hclose
  | call paren =>
    have hcall : IsWord "call" := by decide
    exact hcall

/-! ### What a text tells -/

/-- A kind with one spelling, or that of a name. -/
def Kind.isNamed : Kind → Bool
  | symbol _ | identifier => true
  | _ => false

theorem IsIdentifier.ne_spelling {text : String} (h : IsIdentifier text) (x : Symbol) :
    text ≠ x.spelling := by
  rintro rfl
  obtain ⟨c, cs, htext, hc, -⟩ := h.name
  obtain hx | hx := x.mem_marks_or_mem_words
  · rw [(Symbol.head_of_mem_marks hx htext).2.2] at hc
    cases hc
  · have hword := h.not_word
    rw [Symbol.ofWord_spelling hx] at hword
    cases hword

/-- A text spells one kind of name or symbol only. -/
theorem Kind.eq_of_spelledBy {k k' : Kind} {text : String} (hk : k.isNamed = true)
    (hk' : k'.isNamed = true) (h : k.SpelledBy text) (h' : k'.SpelledBy text) : k = k' := by
  cases k with
  | symbol x =>
    cases k' with
    | symbol x' => rw [Symbol.spelling_injective (h.symm.trans h')]
    | identifier => exact absurd h (IsIdentifier.ne_spelling h' x)
    | _ => cases hk'
  | identifier =>
    cases k' with
    | symbol x' => exact absurd h' (IsIdentifier.ne_spelling h x')
    | identifier => rfl
    | _ => cases hk'
  | _ => cases hk

variable {t t' : Token}

/-- Names and symbols of the same text are the same but for their lines. -/
theorem Token.lines_of_lexeme_eq (hk : t.kind.isNamed = true) (hk' : t'.kind.isNamed = true)
    (ht : t.IsSpelled) (ht' : t'.IsSpelled) (h : t.lexeme = t'.lexeme) :
    Variation.lines.token t t' :=
  ⟨(Kind.eq_of_spelledBy hk hk' ht (h ▸ ht')).symm, h.symm⟩

/-- What spells a name or a symbol does not start with a digit. -/
theorem Kind.not_isDigit_of_spelledBy {k : Kind} {text : String} {c : Char} {cs : List Char}
    (hk : k.isNamed = true) (h : k.SpelledBy text) (htext : text.toList = c :: cs) :
    c.isDigit = false := by
  have hstart : startsName c = true → c.isDigit = false := by
    intro hc
    by_contra hdigit
    rw [not_startsName_of_isDigit (Bool.eq_true_of_not_eq_false hdigit)] at hc
    cases hc
  cases k with
  | symbol x =>
    have hspelling : text = x.spelling := h
    rw [hspelling] at htext
    obtain hx | hx := x.mem_marks_or_mem_words
    · exact (Symbol.head_of_mem_marks hx htext).1
    · exact hstart (Symbol.head_of_mem_words hx htext)
  | identifier =>
    obtain ⟨d, ds, hname, hd, -⟩ := IsIdentifier.name h
    obtain ⟨rfl, -⟩ := List.cons.inj (hname.symm.trans htext)
    exact hstart hd
  | _ => cases hk

namespace Literal

/-- The kind of the token that a constant is read from. -/
def kind : Literal → Kind
  | number value => .number value
  | text value => .string value
  | bool true => .symbol .trueWord
  | bool false => .symbol .falseWord
  | nil => .symbol .nilWord

theorem literal?_kind (v : Literal) : v.kind.literal? = some v := by
  cases v with
  | bool b => cases b <;> rfl
  | _ => rfl

theorem kind_injective {v v' : Literal} (h : v.kind = v'.kind) : v = v' :=
  Option.some.inj (v.literal?_kind.symm.trans ((congrArg Kind.literal? h).trans v'.literal?_kind))

theorem spelledBy_form {v : Literal} (h : v.kind.isNamed = true) : v.kind.SpelledBy v.form := by
  cases v with
  | bool b => cases b <;> rfl
  | nil => rfl
  | _ => cases h

/-- A constant is written like a name or a symbol only if it is read from one. -/
theorem kind_eq_of_spelledBy {v : Literal} {k : Kind} (hv : (Word.constant v).IsReadable)
    (hk : k.isNamed = true) (h : k.SpelledBy v.form) : v.kind = k := by
  cases v with
  | number value =>
    obtain ⟨c, cs, hform, hdigit⟩ := isDigit_head_form_number hv
    rw [Kind.not_isDigit_of_spelledBy hk h hform] at hdigit
    cases hdigit
  | text value => exact hv.plain.elim
  | bool b => cases b <;> exact Kind.eq_of_spelledBy rfl hk rfl h
  | nil => exact Kind.eq_of_spelledBy rfl hk rfl h

/-- **Readable constants of the same text are the same.** -/
theorem eq_of_form_eq {v v' : Literal} (hv : (Word.constant v).IsReadable)
    (hv' : (Word.constant v').IsReadable) (h : v.form = v'.form) : v = v' := by
  have hnamed : ∀ {u w : Literal}, (Word.constant u).IsReadable → u.form = w.form →
      w.kind.isNamed = true → u = w := fun hu heq hw =>
    kind_injective (kind_eq_of_spelledBy hu hw (heq ▸ spelledBy_form hw))
  cases v' with
  | number value' =>
    cases v with
    | number value => rw [number_inj hv hv' h]
    | text value => exact hv.plain.elim
    | bool b => cases b <;> exact (hnamed hv' h.symm rfl).symm
    | nil => exact (hnamed hv' h.symm rfl).symm
  | text value' => exact hv'.plain.elim
  | bool b' => cases b' <;> exact hnamed hv h rfl
  | nil => exact hnamed hv h rfl

/-- A readable constant is not written like a variable. -/
theorem form_ne_lexeme {v : Literal} (hv : (Word.constant v).IsReadable)
    (ht : (Word.reference t).IsReadable) : v.form ≠ t.lexeme := by
  intro h
  obtain ⟨hplace, hspelled⟩ := ht.spelled
  have hk : t.kind.isNamed = true ∧ t.kind.literal? = none := by
    obtain hkind | hkind := hplace <;> rw [hkind] <;> exact ⟨rfl, rfl⟩
  have hkind := kind_eq_of_spelledBy hv hk.1 (h ▸ hspelled)
  rw [← hkind, literal?_kind] at hk
  cases hk.2

/-- A readable constant is not written like an absent part. -/
theorem form_ne_mark {v : Literal} (hv : (Word.constant v).IsReadable) : v.form ≠ "_" := by
  cases v with
  | number value =>
    obtain ⟨c, cs, hform, hdigit⟩ := isDigit_head_form_number hv
    intro h
    rw [h] at hform
    obtain ⟨rfl, -⟩ := List.cons.inj hform
    cases hdigit
  | text value => exact hv.plain.elim
  | bool b => cases b <;> decide
  | nil => decide

end Literal

end Lox
