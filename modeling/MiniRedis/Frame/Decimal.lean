import MiniRedis.Frame.Refinement
import Mathlib.Tactic.IntervalCases
import Mathlib.Tactic.Ring

/-!
# Decimal fields

`get_decimal` accumulates with checked arithmetic in the direction of the sign.
The magnitude only grows along the digits, so an intermediate overflow occurs
exactly when the final value is out of range.
-/
namespace MiniRedis

/-- The value of a digit string that continues the number `n`. -/
def digitsValue (n : ℕ) : Bytes → ℕ
  | [] => n
  | byte :: line => digitsValue (10 * n + (byte - 48).toNat) line

def AllDigits (line : Bytes) : Prop := ∀ byte ∈ line, isDigit byte = true

instance (line : Bytes) : Decidable (AllDigits line) :=
  List.decidableBAll (fun byte => isDigit byte = true) line

@[simp] theorem allDigits_nil : AllDigits [] := by simp [AllDigits]

@[simp] theorem allDigits_cons {byte : UInt8} {line : Bytes} :
    AllDigits (byte :: line) ↔ isDigit byte = true ∧ AllDigits line := by
  simp [AllDigits]

@[simp] theorem allDigits_append {l r : Bytes} :
    AllDigits (l ++ r) ↔ AllDigits l ∧ AllDigits r :=
  List.forall_mem_append

theorem digitsValue_append (n : ℕ) (l r : Bytes) :
    digitsValue n (l ++ r) = digitsValue (digitsValue n l) r := by
  induction l generalizing n with
  | nil => rfl
  | cons byte l ih => simp only [List.cons_append, digitsValue, ih]

theorem le_digitsValue (n : ℕ) (line : Bytes) : n ≤ digitsValue n line := by
  induction line generalizing n with
  | nil => exact le_rfl
  | cons byte line ih =>
    have h := ih (10 * n + (byte - 48).toNat)
    simp only [digitsValue]
    omega

theorem isDigit_iff {byte : UInt8} : isDigit byte = true ↔ 48 ≤ byte.toNat ∧ byte.toNat ≤ 57 := by
  simp [isDigit, UInt8.le_iff_toNat_le]

theorem AllDigits.lineSafe {line : Bytes} (h : AllDigits line) : LineSafe line := by
  intro byte hbyte
  have hdigit := isDigit_iff.mp (h byte hbyte)
  constructor
  · rintro rfl
    exact absurd hdigit (by decide)
  · rintro rfl
    exact absurd hdigit (by decide)

theorem digit_lt {byte : UInt8} (h : isDigit byte = true) : (byte - 48).toNat < 10 := by
  have hb := isDigit_iff.mp h
  have hsub : (byte - 48).toNat = byte.toNat - 48 :=
    UInt8.toNat_sub_of_le _ _ (UInt8.le_iff_toNat_le.mpr hb.1)
  omega

theorem toInt_digitValue {byte : UInt8} (h : isDigit byte = true) :
    (digitValue byte).toInt = ((byte - 48).toNat : ℤ) := by
  have hlt := digit_lt h
  exact Int64.toInt_ofNat_of_lt (by omega)

/-- An `i64` holds the value. -/
def InRange (v : ℤ) : Prop := Int64.minValue.toInt ≤ v ∧ v ≤ Int64.maxValue.toInt

instance (v : ℤ) : Decidable (InRange v) :=
  inferInstanceAs (Decidable (Int64.minValue.toInt ≤ v ∧ v ≤ Int64.maxValue.toInt))

theorem inRange_iff {v : ℤ} : InRange v ↔ -2 ^ 63 ≤ v ∧ v < 2 ^ 63 := by
  have hmin : Int64.minValue.toInt = -2 ^ 63 := by decide
  have hmax : Int64.maxValue.toInt = 2 ^ 63 - 1 := by decide
  rw [InRange, hmin, hmax]
  omega

theorem inRange_toInt (v : Int64) : InRange v.toInt :=
  inRange_iff.mpr ⟨v.le_toInt, v.toInt_lt⟩

theorem toInt_ofInt_of_inRange {v : ℤ} (h : InRange v) : (Int64.ofInt v).toInt = v := by
  obtain ⟨hl, hu⟩ := inRange_iff.mp h
  exact Int64.toInt_ofInt_of_le hl hu

theorem checkedMul_eq (a b : Int64) :
    checkedMul a b =
      if InRange (a.toInt * b.toInt) then some (Int64.ofInt (a.toInt * b.toInt)) else none := rfl

theorem checkedAdd_eq (a b : Int64) :
    checkedAdd a b =
      if InRange (a.toInt + b.toInt) then some (Int64.ofInt (a.toInt + b.toInt)) else none := rfl

/-- A sign for the accumulation: the code uses `1` and `-1`. -/
def IsSign (sign : Int64) : Prop := sign = 1 ∨ sign = -1

theorem toInt_sign_mul {sign : Int64} (hsign : IsSign sign) {byte : UInt8}
    (h : isDigit byte = true) :
    (sign * digitValue byte).toInt = sign.toInt * ((byte - 48).toNat : ℤ) := by
  have hd := toInt_digitValue h
  have hlt := digit_lt h
  rw [Int64.toInt_mul, hd]
  rcases hsign with rfl | rfl
  · rw [show (1 : Int64).toInt = 1 by decide]
    exact Int.bmod_eq_of_le (by omega) (by omega)
  · rw [show (-1 : Int64).toInt = -1 by decide]
    exact Int.bmod_eq_of_le (by omega) (by omega)

/-- Out of range stays out of range when the magnitude grows. -/
theorem not_inRange_of_le {sign : Int64} (hsign : IsSign sign) {n m : ℕ} (hle : n ≤ m)
    (h : ¬ InRange (sign.toInt * n)) : ¬ InRange (sign.toInt * m) := by
  rw [inRange_iff] at h ⊢
  rcases hsign with rfl | rfl
  · rw [show (1 : Int64).toInt = 1 by decide] at *
    omega
  · rw [show (-1 : Int64).toInt = -1 by decide] at *
    omega

/-- The `i64` with the given value, or the overflow error. -/
def exactly (v : ℤ) : Except FrameError Int64 :=
  if InRange v then .ok (Int64.ofInt v) else .error (.other "Integer overflow")

theorem exactly_toInt (v : Int64) : exactly v.toInt = .ok v := by
  rw [exactly, if_pos (inRange_toInt v), Int64.ofInt_toInt]

theorem exactly_of_not_inRange {v : ℤ} (h : ¬ InRange v) :
    exactly v = .error (.other "Integer overflow") := if_neg h

/-- The loop over digits computes the value, or reports that it is out of range. -/
theorem accumulate_digits {sign : Int64} (hsign : IsSign sign) {line : Bytes}
    (hline : AllDigits line) (n : ℕ) (result : Int64) (hresult : result.toInt = sign.toInt * n) :
    accumulate sign result line = exactly (sign.toInt * digitsValue n line) := by
  induction line generalizing n result with
  | nil =>
    have hvalue := exactly_toInt result
    rw [hresult] at hvalue
    exact hvalue.symm
  | cons byte line ih =>
    obtain ⟨hdigit, hline⟩ := allDigits_cons.mp hline
    have hgrow := le_digitsValue (10 * n + (byte - 48).toNat) line
    have hgrow' : 10 * n ≤ digitsValue (10 * n + (byte - 48).toNat) line := by omega
    have hten : (10 : Int64).toInt = 10 := by decide
    have hprod : result.toInt * 10 = sign.toInt * ((10 * n : ℕ) : ℤ) := by
      rw [hresult]
      push_cast
      ring
    have hsum : sign.toInt * ((10 * n : ℕ) : ℤ) + sign.toInt * ((byte - 48).toNat : ℤ) =
        sign.toInt * ((10 * n + (byte - 48).toNat : ℕ) : ℤ) := by
      push_cast
      ring
    simp only [accumulate, digitsValue, checkedMul_eq, hten, hprod]
    by_cases hmul : InRange (sign.toInt * ((10 * n : ℕ) : ℤ))
    · simp only [if_pos hmul, hdigit, if_true, checkedAdd_eq, toInt_sign_mul hsign hdigit,
        toInt_ofInt_of_inRange hmul, hsum]
      by_cases hadd : InRange (sign.toInt * ((10 * n + (byte - 48).toNat : ℕ) : ℤ))
      · simp only [if_pos hadd]
        exact ih hline _ _ (toInt_ofInt_of_inRange hadd)
      · simp only [if_neg hadd]
        exact (exactly_of_not_inRange (not_inRange_of_le hsign hgrow hadd)).symm
    · simp only [if_neg hmul]
      exact (exactly_of_not_inRange (not_inRange_of_le hsign hgrow' hmul)).symm

/-- Only digits are accepted. -/
theorem accumulate_ok_allDigits {sign result value : Int64} {line : Bytes}
    (h : accumulate sign result line = .ok value) : AllDigits line := by
  induction line generalizing result with
  | nil => exact allDigits_nil
  | cons byte line ih =>
    simp only [accumulate] at h
    split at h
    · cases h
    · split at h
      · rename_i hdigit
        split at h
        · cases h
        · exact allDigits_cons.mpr ⟨hdigit, ih h⟩
      · cases h

/-- The sign and the digits of a decimal field. -/
def decimalLine (negative : Bool) (digits : Bytes) : Bytes :=
  if negative then minus :: digits else digits

def decimalValue (negative : Bool) (digits : Bytes) : ℤ :=
  if negative then -(digitsValue 0 digits : ℤ) else digitsValue 0 digits

theorem isDigit_minus : isDigit minus = false := by decide

/-- A well-formed field is read as its value exactly when an `i64` holds it. -/
theorem decimalOfLine_decimalLine (negative : Bool) {digits : Bytes} (hne : digits ≠ [])
    (hdigits : AllDigits digits) :
    decimalOfLine (decimalLine negative digits) = exactly (decimalValue negative digits) := by
  obtain ⟨byte, line, rfl⟩ := List.exists_cons_of_ne_nil hne
  cases negative with
  | true =>
    have hacc := accumulate_digits (.inr rfl : IsSign (-1)) hdigits 0 0 (by decide)
    rw [show (-1 : Int64).toInt = -1 by decide] at hacc
    simpa only [decimalLine, decimalValue, decimalOfLine, if_true, List.isEmpty_cons,
      Bool.false_eq_true, if_false, neg_mul, one_mul] using hacc
  | false =>
    obtain ⟨hdigit, hline⟩ := allDigits_cons.mp hdigits
    have hminus : ¬ byte = minus := by
      rintro rfl
      simp [isDigit_minus] at hdigit
    have hacc := accumulate_digits (.inl rfl : IsSign 1) hline (byte - 48).toNat
      (digitValue byte) (by rw [toInt_digitValue hdigit, show (1 : Int64).toInt = 1 by decide]; ring)
    rw [show (1 : Int64).toInt = 1 by decide] at hacc
    simpa only [decimalLine, decimalValue, decimalOfLine, digitsValue, Bool.false_eq_true,
      if_false, if_neg hminus, hdigit, if_true, Nat.mul_zero, Nat.zero_add, one_mul] using hacc

/-- Every accepted field is well-formed. -/
theorem decimalOfLine_ok_form {line : Bytes} {value : Int64} (h : decimalOfLine line = .ok value) :
    ∃ negative digits, line = decimalLine negative digits ∧ digits ≠ [] ∧ AllDigits digits := by
  cases line with
  | nil => cases h
  | cons byte line =>
    simp only [decimalOfLine] at h
    by_cases hminus : byte = minus
    · rw [if_pos hminus] at h
      split at h
      · cases h
      · rename_i hne
        exact ⟨true, line, by rw [hminus]; rfl, by simpa using hne, accumulate_ok_allDigits h⟩
    · rw [if_neg hminus] at h
      split at h
      · rename_i hdigit
        exact ⟨false, byte :: line, rfl, by simp,
          allDigits_cons.mpr ⟨hdigit, accumulate_ok_allDigits h⟩⟩
      · cases h

/-- `get_decimal` reads exactly the spellings of the numbers in the `i64` range. -/
theorem decimalOfLine_eq_ok_iff {line : Bytes} {value : Int64} :
    decimalOfLine line = .ok value ↔
      ∃ negative digits, line = decimalLine negative digits ∧ digits ≠ [] ∧ AllDigits digits ∧
        value.toInt = decimalValue negative digits := by
  constructor
  · intro h
    obtain ⟨negative, digits, rfl, hne, hdigits⟩ := decimalOfLine_ok_form h
    rw [decimalOfLine_decimalLine negative hne hdigits, exactly] at h
    split at h
    · rename_i hrange
      cases h
      exact ⟨negative, digits, rfl, hne, hdigits, toInt_ofInt_of_inRange hrange⟩
    · cases h
  · rintro ⟨negative, digits, rfl, hne, hdigits, hvalue⟩
    rw [decimalOfLine_decimalLine negative hne hdigits, ← hvalue, exactly_toInt]

/-! ### Printed numbers -/

theorem asBytes_append (s t : String) : asBytes (s ++ t) = asBytes s ++ asBytes t := by
  simp [asBytes, String.toByteArray_append]

/-- The byte of the last decimal digit. -/
def lastDigit (n : ℕ) : UInt8 := UInt8.ofNat (48 + n % 10)

/-- The ten digits: how each is printed, and what its byte is read as. -/
theorem lastDigit_spec (n : ℕ) :
    asBytes (String.singleton (n % 10).digitChar) = [lastDigit n] ∧
      (lastDigit n - 48).toNat = n % 10 ∧ isDigit (lastDigit n) = true := by
  have hlt : n % 10 < 10 := Nat.mod_lt _ (by decide)
  unfold lastDigit
  generalize n % 10 = d at hlt
  interval_cases d <;> decide

theorem asBytes_digitChar (n : ℕ) :
    asBytes (String.singleton (n % 10).digitChar) = [lastDigit n] := (lastDigit_spec n).1

theorem lastDigit_sub (n : ℕ) : (lastDigit n - 48).toNat = n % 10 := (lastDigit_spec n).2.1

theorem isDigit_lastDigit (n : ℕ) : isDigit (lastDigit n) = true := (lastDigit_spec n).2.2

theorem asBytes_toString_of_lt {n : ℕ} (h : n < 10) : asBytes (toString n) = [lastDigit n] := by
  have htext : toString n = String.singleton (n % 10).digitChar := by
    rw [Nat.mod_eq_of_lt h]
    exact Nat.repr_of_lt h
  rw [htext, asBytes_digitChar]

theorem asBytes_toString_of_ge {n : ℕ} (h : 10 ≤ n) :
    asBytes (toString n) = asBytes (toString (n / 10)) ++ [lastDigit n] := by
  have htext : toString n = toString (n / 10) ++ String.singleton (n % 10).digitChar :=
    Nat.repr_of_ge h
  rw [htext, asBytes_append, asBytes_digitChar]

theorem allDigits_toString (n : ℕ) : AllDigits (asBytes (toString n)) := by
  induction n using Nat.strong_induction_on with
  | _ n ih =>
    rcases Nat.lt_or_ge n 10 with h | h
    · rw [asBytes_toString_of_lt h]
      simp [isDigit_lastDigit]
    · rw [asBytes_toString_of_ge h, allDigits_append]
      exact ⟨ih _ (by omega), by simp [isDigit_lastDigit]⟩

theorem asBytes_toString_ne_nil (n : ℕ) : asBytes (toString n) ≠ [] := by
  rcases Nat.lt_or_ge n 10 with h | h
  · rw [asBytes_toString_of_lt h]
    exact List.cons_ne_nil _ _
  · rw [asBytes_toString_of_ge h]
    exact List.append_ne_nil_of_right_ne_nil _ (List.cons_ne_nil _ _)

/-- Reading a printed natural number gives it back. -/
theorem digitsValue_toString (n : ℕ) : digitsValue 0 (asBytes (toString n)) = n := by
  induction n using Nat.strong_induction_on with
  | _ n ih =>
    rcases Nat.lt_or_ge n 10 with h | h
    · rw [asBytes_toString_of_lt h, digitsValue, digitsValue, lastDigit_sub]
      omega
    · rw [asBytes_toString_of_ge h, digitsValue_append, ih _ (by omega), digitsValue, digitsValue,
        lastDigit_sub]
      omega

theorem length_toString_le {n k : ℕ} (hk : 0 < k) (h : n < 10 ^ k) :
    (asBytes (toString n)).length ≤ k := by
  induction k generalizing n with
  | zero => omega
  | succ k ih =>
    rcases Nat.lt_or_ge n 10 with hlt | hge
    · rw [asBytes_toString_of_lt hlt, List.length_singleton]
      omega
    · have hdiv : n / 10 < 10 ^ k := by
        rw [Nat.pow_succ] at h
        omega
      have hk' : 0 < k := by
        rcases Nat.eq_zero_or_pos k with rfl | hpos
        · omega
        · exact hpos
      have hrec := ih hk' hdiv
      rw [asBytes_toString_of_ge hge, List.length_append, List.length_singleton]
      omega

/-- An integer is printed as a well-formed field with its value. -/
theorem asBytes_toString_int (v : Int64) :
    asBytes (toString v) =
      decimalLine (decide (v.toInt < 0)) (asBytes (toString v.toInt.natAbs)) := by
  have htext : toString v = toString v.toInt := rfl
  rw [htext]
  cases hv : v.toInt with
  | ofNat n => rfl
  | negSucc n =>
    have hneg : toString (Int.negSucc n) = "-" ++ toString (n + 1) := rfl
    have hminus : asBytes "-" = [minus] := by decide
    rw [hneg, asBytes_append, hminus, decide_eq_true (Int.negSucc_lt_zero n), Int.natAbs_negSucc]
    rfl

theorem decimalOfLine_toString (v : Int64) : decimalOfLine (asBytes (toString v)) = .ok v := by
  refine decimalOfLine_eq_ok_iff.mpr ⟨_, _, asBytes_toString_int v, asBytes_toString_ne_nil _,
    allDigits_toString _, ?_⟩
  rw [decimalValue, digitsValue_toString]
  by_cases hneg : v.toInt < 0
  · simp only [decide_eq_true hneg, if_true]
    omega
  · simp only [decide_eq_false hneg, Bool.false_eq_true, if_false]
    omega

/-- A printed length is read back as the same number. -/
theorem decimalOfLine_toString_nat {n : ℕ} (h : n < 2 ^ 63) :
    decimalOfLine (asBytes (toString n)) = .ok (Int64.ofNat n) := by
  refine decimalOfLine_eq_ok_iff.mpr ⟨false, asBytes (toString n), rfl,
    asBytes_toString_ne_nil n, allDigits_toString n, ?_⟩
  rw [decimalValue, digitsValue_toString, if_neg Bool.false_ne_true]
  exact Int64.toInt_ofNat_of_lt h

theorem lineSafe_toString_nat (n : ℕ) : LineSafe (asBytes (toString n)) :=
  (allDigits_toString n).lineSafe

theorem lineSafe_toString (v : Int64) : LineSafe (asBytes (toString v)) := by
  rw [asBytes_toString_int, decimalLine]
  split
  · exact lineSafe_cons.mpr ⟨by decide, lineSafe_toString_nat _⟩
  · exact lineSafe_toString_nat _

/-! ### The field at a cursor -/

/-- An optional minus sign and at least one digit, leading zeros allowed, of the
value `v`, which is an `i64`. -/
def DecimalField (line : Bytes) (v : ℤ) : Prop :=
  InRange v ∧ ∃ negative digits,
    line = decimalLine negative digits ∧ digits ≠ [] ∧ AllDigits digits ∧
      v = decimalValue negative digits

theorem decimalOfLine_eq_ok {line : Bytes} {num : Int64} :
    decimalOfLine line = .ok num ↔ DecimalField line num.toInt := by
  rw [decimalOfLine_eq_ok_iff]
  constructor
  · intro h
    exact ⟨inRange_toInt num, h⟩
  · intro h
    exact h.2

theorem getDecimal_of_getLine {src src' : Cursor} {line : Bytes}
    (h : getLine src = (.ok line, src')) : getDecimal src = CursorM.lift (decimalOfLine line) src' :=
  Library.Fallible.bind_ok h

/-- A line that is read stands before its terminator, and the cursor goes past both. -/
theorem getLine_eq_ok {src src' : Cursor} {line : Bytes} (h : getLine src = (.ok line, src')) :
    ∃ rest, src.unread = line ++ cr :: lf :: rest ∧ LineSafe line ∧
      src' = src.skip (line.length + 2) := by
  obtain ⟨_, n, hd, rfl, hsrc⟩ := getLine_refines.eq_ok h
  obtain ⟨rest, hunread, hsafe, rfl⟩ := lineDecoder_eq_complete hd
  exact ⟨rest, hunread, hsafe, hsrc⟩

/-- A printed number is read back between any bytes. -/
theorem getDecimal_toString (pre rest : Bytes) (num : Int64) :
    getDecimal ⟨pre ++ asBytes (toString num) ++ cr :: lf :: rest, pre.length⟩ =
      (.ok num, ⟨pre ++ asBytes (toString num) ++ cr :: lf :: rest,
        pre.length + ((asBytes (toString num)).length + 2)⟩) := by
  have hunread : (Cursor.mk (pre ++ asBytes (toString num) ++ cr :: lf :: rest) pre.length).unread =
      asBytes (toString num) ++ cr :: lf :: rest := by
    rw [Cursor.unread, List.append_assoc, List.drop_left]
  have hdecoder := lineDecoder_line (lineSafe_toString num) rest
  rw [← hunread] at hdecoder
  obtain ⟨_, hline, rfl⟩ := getLine_refines.of_complete hdecoder
  rw [getDecimal_of_getLine hline, decimalOfLine_toString, CursorM.lift_ok]
  rfl

/-- `get_decimal` computes exact `i64` decimals: behind every line that is read it succeeds
on the spellings of the numbers in range only, rejects every other line, and leaves the
cursor past the terminator either way. -/
theorem getDecimal_exact :
    (∀ (src src' : Cursor) (line : Bytes), getLine src = (.ok line, src') →
      (∃ rest, src.unread = line ++ cr :: lf :: rest ∧ src'.unread = rest) ∧
      (getDecimal src).2 = src' ∧
      (∀ num : Int64, (getDecimal src).1 = .ok num ↔ DecimalField line num.toInt) ∧
      (∀ v : ℤ, DecimalField line v → ∃ num : Int64, num.toInt = v ∧ (getDecimal src).1 = .ok num) ∧
      ((¬ ∃ v, DecimalField line v) →
        ∃ message ∈ decimalMessages, (getDecimal src).1 = .error (.error (.other message)))) ∧
    DecimalField (asBytes "-9223372036854775808") Int64.minValue.toInt ∧
    ∀ (pre rest : Bytes) (num : Int64),
      getDecimal ⟨pre ++ asBytes (toString num) ++ cr :: lf :: rest, pre.length⟩ =
        (.ok num, ⟨pre ++ asBytes (toString num) ++ cr :: lf :: rest,
          pre.length + ((asBytes (toString num)).length + 2)⟩) := by
  refine ⟨?_, ?_, getDecimal_toString⟩
  · intro src src' line hline
    have hrun := getDecimal_of_getLine hline
    have hok : ∀ num : Int64, (getDecimal src).1 = .ok num ↔ DecimalField line num.toInt := by
      intro num
      rw [← decimalOfLine_eq_ok, hrun]
      cases hdec : decimalOfLine line with
      | ok value => simp
      | error e => simp
    refine ⟨?_, ?_, hok, ?_, ?_⟩
    · obtain ⟨rest, hunread, _, rfl⟩ := getLine_eq_ok hline
      refine ⟨rest, hunread, ?_⟩
      rw [Cursor.unread_skip, hunread, show line ++ cr :: lf :: rest = (line ++ [cr, lf]) ++ rest by simp]
      exact List.drop_left' (by simp)
    · rw [hrun]
      rfl
    · intro v hv
      have hvalue := toInt_ofInt_of_inRange hv.1
      refine ⟨Int64.ofInt v, hvalue, (hok _).mpr ?_⟩
      rw [hvalue]
      exact hv
    · intro hnone
      cases hdec : decimalOfLine line with
      | ok value => exact absurd ⟨_, decimalOfLine_eq_ok.mp hdec⟩ hnone
      | error e =>
        obtain ⟨message, hmem, rfl⟩ := decimalOfLine_error hdec
        refine ⟨message, hmem, ?_⟩
        rw [hrun, hdec, CursorM.lift_error]
  · have hmin : asBytes "-9223372036854775808" = asBytes (toString Int64.minValue) := by decide
    rw [hmin, ← decimalOfLine_eq_ok]
    exact decimalOfLine_toString Int64.minValue

/-- Leading zeros behind a minus sign. -/
theorem getDecimal_exact_leading_zeros :
    (getDecimal ⟨asBytes "-007\r\n+", 0⟩).1 = .ok (-7) := by
  have hline : getLine ⟨asBytes "-007\r\n+", 0⟩ = (.ok (asBytes "-007"), ⟨asBytes "-007\r\n+", 6⟩) := by
    decide
  have hfield : DecimalField (asBytes "-007") (-7 : Int64).toInt :=
    ⟨by decide, true, asBytes "007", by decide, by decide, by decide, by decide⟩
  exact ((getDecimal_exact.1 _ _ _ hline).2.2.1 (-7)).mpr hfield

end MiniRedis
