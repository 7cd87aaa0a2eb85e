import Lox.Decimal.Style
import Lox.Proofs.Json.Reader
import Mathlib.Data.List.TakeWhile

/-!
# Written numbers are numbers of JSON

A decimal in scientific notation is a number of JSON (`Scaled.isUnsigned_scientific`), and so is one
in positional notation if it is not zero (`Scaled.isUnsigned_positional`). The shortest decimal for
a number other than zero is not zero (`Binary.shortest_digits_ne_zero`), so a style that keeps whole
numbers apart writes every finite number as a number of JSON (`NumberStyle.isNumber_writeFinite`).
-/

namespace Lox.Decimal

open Json

/-! ### Digits -/

theorem head?_toDigits_append (n : Nat) (rest : List Char) :
    (Nat.toDigits 10 n ++ rest).head? = (Nat.toDigits 10 n).head? := by
  obtain ⟨c, digits, h⟩ := List.exists_cons_of_ne_nil (Nat.toDigits_ne_nil (n := n) (b := 10))
  rw [h]
  rfl

theorem all_isDigit_toDigits (n : Nat) : ∀ c ∈ Nat.toDigits 10 n, c.isDigit = true :=
  fun _ => Nat.isDigit_of_mem_toDigits (by decide) (by decide)

/-- Only zero is written with a zero in front. -/
theorem head?_toDigits_ne {n : Nat} (h : n ≠ 0) : (Nat.toDigits 10 n).head? ≠ some '0' := by
  induction n using Nat.strongRecOn with
  | ind n ih =>
    by_cases hn : n < 10
    · rw [Nat.toDigits_of_lt_base hn, List.head?_cons]
      have hdigits : ∀ k < 10, k ≠ 0 → some (Nat.digitChar k) ≠ some '0' := by decide
      exact hdigits n hn h
    · rw [Nat.toDigits_of_base_le (by decide) (by omega), head?_toDigits_append]
      exact ih (n / 10) (by omega) (by omega)

/-- Digits that go on with the digits of a number other than zero have no zero in front. -/
theorem isWholePart_of_head? {digits : List Char} {n : Nat} (hn : n ≠ 0) (hne : digits ≠ [])
    (hhead : digits.head? = (Nat.toDigits 10 n).head?) : isWholePart digits = true := by
  simp only [isWholePart, Bool.or_eq_true, Bool.and_eq_true, Bool.not_eq_true',
    List.isEmpty_eq_false_iff, bne_iff_ne]
  exact .inr ⟨hne, hhead ▸ head?_toDigits_ne hn⟩

theorem isWholePart_toDigits (n : Nat) : isWholePart (Nat.toDigits 10 n) = true := by
  by_cases h : n = 0
  · subst h
    decide
  · exact isWholePart_of_head? h Nat.toDigits_ne_nil rfl

/-! ### The parts of a number -/

theorem isUnsigned_append (digits : List Char) {rest : List Char}
    (hdigits : ∀ c ∈ digits, c.isDigit = true) (hwhole : isWholePart digits = true)
    (hrest : Stops Char.isDigit rest) (hfraction : isFraction rest = true) :
    isUnsigned (digits ++ rest) = true := by
  obtain ⟨htake, hdrop⟩ := span_append hdigits hrest
  rw [isUnsigned, htake, hdrop, hwhole, hfraction, Bool.and_true]

theorem isFraction_dot {digits rest : List Char} (hdigits : ∀ c ∈ digits, c.isDigit = true)
    (hne : digits ≠ []) (hrest : Stops Char.isDigit rest)
    (hexponent : isExponent rest = true) : isFraction ('.' :: (digits ++ rest)) = true := by
  obtain ⟨htake, hdrop⟩ := span_append hdigits hrest
  rw [isFraction, htake, hdrop, hexponent, Bool.and_true, List.isEmpty_eq_false_iff.mpr hne]
  rfl

theorem isExponent_toDigits {sign : Char} (hsign : sign = '+' ∨ sign = '-') (n : Nat) :
    isExponent ('e' :: sign :: Nat.toDigits 10 n) = true := by
  have hne : (Nat.toDigits 10 n).isEmpty = false :=
    List.isEmpty_eq_false_iff.mpr Nat.toDigits_ne_nil
  have hall : (Nat.toDigits 10 n).all Char.isDigit = true :=
    List.all_eq_true.mpr (all_isDigit_toDigits n)
  rcases hsign with rfl | rfl <;>
    simp only [isExponent, List.head?_cons, List.tail_cons, true_or, or_true, if_true, hne, hall,
      beq_self_eq_true, Bool.true_or, Bool.not_false, Bool.and_true]

/-- A number with or without a sign in front. -/
theorem isNumber_sign {text : List Char} (h : isUnsigned text = true) (negative : Bool) :
    isNumber ((if negative then ['-'] else []) ++ text) = true := by
  cases negative with
  | true => exact h
  | false =>
    have hminus : ¬ text.head? = some '-' := by
      intro hhead
      obtain ⟨rest, rfl⟩ : ∃ rest, text = '-' :: rest := by
        cases text with
        | nil => cases hhead
        | cons c rest => exact ⟨rest, by rw [Option.some.inj hhead]⟩
      rw [isUnsigned, List.takeWhile_cons_of_neg (by decide)] at h
      exact absurd (Bool.and_eq_true_iff.mp h).1 (by decide)
    rw [if_neg Bool.false_ne_true, List.nil_append, isNumber, if_neg hminus]
    exact h

theorem isNumber_toString (n : Nat) : isNumber (toString n).toList = true := by
  have h := isUnsigned_append _ (all_isDigit_toDigits n) (isWholePart_toDigits n) (stops_nil _)
    (by decide)
  rw [List.append_nil] at h
  rw [Nat.toString_eq_ofList_toDigits, String.toList_ofList]
  exact isNumber_sign h false

/-! ### Positional and scientific notation -/

namespace Scaled

theorem strip_digits_ne_zero {d : Scaled} (h : d.digits ≠ 0) : d.strip.digits ≠ 0 := by
  fun_induction strip d with
  | case1 d hd ih => exact ih (by dsimp only; omega)
  | case2 d hd => exact h

/-- A decimal other than zero in positional notation is a number of JSON. -/
theorem isUnsigned_positional {d : Scaled} (h : d.digits ≠ 0) :
    isUnsigned d.positional.toList = true := by
  have hall := all_isDigit_toDigits d.digits
  have hne : Nat.toDigits 10 d.digits ≠ [] := Nat.toDigits_ne_nil
  have hlength : 0 < (Nat.toDigits 10 d.digits).length := List.length_pos_iff.mpr hne
  have hzero : ∀ n, ∀ c ∈ List.replicate n '0', c.isDigit = true := by
    intro n c hc
    rw [(List.mem_replicate.mp hc).2]
    decide
  have hnil := stops_nil Char.isDigit
  unfold positional
  dsimp only
  split
  · rw [String.toList_ofList, ← List.append_nil (_ ++ _)]
    refine isUnsigned_append _ (fun c hc => ?_) ?_ hnil (by decide)
    · exact (List.mem_append.mp hc).elim (hall c) (hzero _ c)
    · exact isWholePart_of_head? h (List.append_ne_nil_of_left_ne_nil hne _)
        (head?_toDigits_append _ _)
  split
  · rename_i hexponent hplaces
    rw [String.toList_ofList]
    refine isUnsigned_append _ (fun c hc => hall c (List.mem_of_mem_take hc)) ?_
      (stops_cons (by decide) _) ?_
    · refine isWholePart_of_head? h (List.ne_nil_of_length_pos ?_) ?_
      · rw [List.length_take]
        omega
      · rw [List.head?_take, if_neg (by omega)]
    · rw [← List.append_nil (List.drop _ _)]
      refine isFraction_dot (fun c hc => hall c (List.mem_of_mem_drop hc))
        (List.ne_nil_of_length_pos ?_) hnil (by decide)
      rw [List.length_drop]
      omega
  · rename_i hplaces
    generalize hzeros : List.replicate _ '0' = zeros
    have htext : '0' :: '.' :: zeros ++ Nat.toDigits 10 d.digits =
        ['0'] ++ '.' :: (zeros ++ Nat.toDigits 10 d.digits ++ []) := by
      simp only [List.cons_append, List.nil_append, List.append_nil]
    rw [String.toList_ofList, htext]
    refine isUnsigned_append ['0'] (List.forall_mem_singleton.mpr rfl) rfl
      (stops_cons (by decide) _) ?_
    subst hzeros
    refine isFraction_dot (fun c hc => ?_) (List.append_ne_nil_of_right_ne_nil _ hne) hnil
      (by decide)
    exact (List.mem_append.mp hc).elim (hzero _ c) (hall c)

/-- A decimal in scientific notation is a number of JSON. -/
theorem isUnsigned_scientific (d : Scaled) : isUnsigned d.scientific.toList = true := by
  have hall := all_isDigit_toDigits d.digits
  have htail : ∀ e : Int, ((if e < 0 then "e-" else "e+") ++ toString e.natAbs).toList =
      'e' :: (if e < 0 then '-' else '+') :: Nat.toDigits 10 e.natAbs := by
    intro e
    rw [String.toList_append, Nat.toString_eq_ofList_toDigits, String.toList_ofList]
    split <;> rfl
  have hexponent : ∀ e : Int,
      isExponent ('e' :: (if e < 0 then '-' else '+') :: Nat.toDigits 10 e.natAbs) = true := by
    intro e
    refine isExponent_toDigits ?_ _
    split
    · exact .inr rfl
    · exact .inl rfl
  unfold scientific
  dsimp only
  split
  · rename_i hnil
    exact absurd hnil Nat.toDigits_ne_nil
  · rename_i c hdigits
    have hc : c.isDigit = true := hall c (hdigits ▸ List.mem_singleton_self c)
    rw [String.toList_append, String.toList_singleton, htail]
    refine isUnsigned_append [c] (List.forall_mem_singleton.mpr hc) ?_ (stops_cons (by decide) _)
      (hexponent _)
    rw [← hdigits]
    exact isWholePart_toDigits _
  · rename_i c rest hne hdigits
    obtain ⟨hc, hrest⟩ := List.forall_mem_cons.mp (hdigits ▸ hall)
    have hne' : rest ≠ [] := by
      rintro rfl
      exact hne rfl
    rw [String.toList_append, String.toList_ofList, htail]
    refine isUnsigned_append [c] (List.forall_mem_singleton.mpr hc) ?_ (stops_cons (by decide) _)
      (isFraction_dot hrest hne' (stops_cons (by decide) _) (hexponent _))
    have hwhole := isWholePart_toDigits d.digits
    rw [hdigits] at hwhole
    simp only [isWholePart, List.head?_cons, Bool.or_eq_true, Bool.and_eq_true, beq_iff_eq,
      bne_iff_ne, Bool.not_eq_true', List.isEmpty_cons, List.cons.injEq, ne_eq, Option.some.injEq,
      true_and, and_true] at hwhole ⊢
    exact hwhole.imp And.left id

end Scaled

/-! ### The shortest decimal -/

namespace Binary

/-- Zero identifies no other number. -/
theorem not_isIdentifiedBy_zero {x : Binary} (h : x.m ≠ 0) (e : Int) :
    x.isIdentifiedBy ⟨0, e⟩ = false := by
  have hlow : ∀ n, n ≠ 0 → compareScaled 0 e n (x.q - 2) = .lt := by
    intro n hn
    have hpow : ∀ k, 0 < Nat.pow 10 k := fun k => Nat.pow_pos (by decide)
    rw [compareScaled, Nat.zero_mul, Nat.zero_shiftLeft, Nat.compare_eq_lt, Nat.shiftLeft_eq]
    exact Nat.mul_pos (Nat.mul_pos (Nat.pos_of_ne_zero hn) (hpow _)) (Nat.pow_pos (by decide))
  have hbelow : (if x.narrowBelow then 4 * x.m - 1 else 4 * x.m - 2) ≠ 0 := by
    split <;> omega
  unfold isIdentifiedBy
  simp only [hlow _ hbelow]
  split <;> rfl

theorem onGrid_digits_ne_zero {x : Binary} (h : x.m ≠ 0) {e : Int} {d : Scaled}
    (hd : x.onGrid? e = some d) : d.digits ≠ 0 := by
  have hid : x.isIdentifiedBy d = true := by
    unfold onGrid? at hd
    dsimp only at hd
    split at hd
    · split at hd <;> (obtain rfl := Option.some.inj hd; assumption)
    · obtain rfl := Option.some.inj hd
      assumption
    · obtain rfl := Option.some.inj hd
      assumption
    · cases hd
  intro hzero
  obtain ⟨digits, exponent⟩ := d
  obtain rfl : digits = 0 := hzero
  rw [not_isIdentifiedBy_zero h] at hid
  exact Bool.false_ne_true hid

/-- The shortest decimal for a number other than zero is not zero. -/
theorem shortest_digits_ne_zero {x : Binary} (h : x.m ≠ 0) : x.shortest.digits ≠ 0 := by
  unfold shortest
  split
  · rename_i hd
    obtain ⟨_, -, hd⟩ := List.exists_of_findSome?_eq_some hd
    exact onGrid_digits_ne_zero h hd
  split
  · rw [Nat.shiftLeft_eq]
    exact Nat.mul_ne_zero h (Nat.pos_iff_ne_zero.mp (Nat.pow_pos (by decide)))
  · exact Nat.mul_ne_zero h (Nat.pos_iff_ne_zero.mp (Nat.pow_pos (by decide)))

theorem m_ne_zero_of_not_isWhole {x : Binary} (h : x.isWhole = false) : x.m ≠ 0 := by
  intro hm
  rw [isWhole, hm, Nat.zero_mod, beq_self_eq_true, Bool.or_true] at h
  exact Bool.false_ne_true h.symm

end Binary

/-! ### The text of a number -/

namespace NumberStyle

variable {style : NumberStyle}

/-- **Finite numbers are written as numbers of JSON** by a style that puts `.0` behind the digits of
a whole number and writes the greater ones in scientific notation. -/
theorem isNumber_writeFinite (hmark : style.wholeMark = ".0")
    (hbeyond : style.scientificBeyond = true) (x : Binary) :
    isNumber (style.writeFinite x).toList = true := by
  have hsign : ∀ (p : Bool) (text : String), isUnsigned text.toList = true →
      isNumber ((if p then "-" else "") ++ text).toList = true := by
    intro p text h
    have := isNumber_sign h p
    rw [String.toList_append]
    cases p <;> exact this
  have hwritten : ∀ negative exact : Bool, isNumber (if x.isWhole && exact then
      (if negative then "-" else "") ++ toString x.magnitude ++ style.wholeMark
    else (if negative then "-" else "") ++ if x.isWhole && style.scientificBeyond then
      x.shortest.strip.scientific else x.shortest.strip.positional).toList = true := by
    intro negative exact
    split
    · rw [String.append_assoc]
      refine hsign negative _ ?_
      rw [hmark, String.toList_append, Nat.toString_eq_ofList_toDigits, String.toList_ofList]
      exact isUnsigned_append _ (all_isDigit_toDigits _) (isWholePart_toDigits _)
        (stops_cons (by decide) _) (by decide)
    · refine hsign negative _ ?_
      split
      · exact Scaled.isUnsigned_scientific _
      · rename_i hwhole
        rw [hbeyond, Bool.and_true, Bool.not_eq_true] at hwhole
        exact Scaled.isUnsigned_positional (Scaled.strip_digits_ne_zero
          (Binary.shortest_digits_ne_zero (Binary.m_ne_zero_of_not_isWhole hwhole)))
  exact hwritten _ _

end NumberStyle

end Lox.Decimal
