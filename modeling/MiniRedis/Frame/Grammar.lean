import MiniRedis.Frame.Encoding

/-!
# The wire grammar

`Shape` is the framing grammar that the structural check follows and `Derives`
the grammar of frames with their contents. Both count the arrays around a frame.
The two passes together accept exactly the derivations.
-/
namespace MiniRedis

open Library

mutual

/-- The bytes of a frame below `depth` arrays, with its lines left as they are. -/
inductive Shape : ℕ → Bytes → Skeleton → Prop where
  | line {depth : ℕ} {marker : UInt8} {line : Bytes} :
      marker = plus ∨ marker = minus ∨ marker = colon → LineSafe line →
      Shape depth (marker :: (line ++ [cr, lf])) (.line marker line)
  | nullBulk {depth : ℕ} {line : Bytes} :
      DecimalField line (-1) → Shape depth (dollar :: (line ++ [cr, lf])) .null
  | bulk {depth : ℕ} {line payload : Bytes} :
      DecimalField line payload.length →
      Shape depth (dollar :: (line ++ [cr, lf] ++ payload ++ [cr, lf])) (.bulk payload)
  | nullArray {depth : ℕ} {line : Bytes} :
      depth < maxArrayDepth → DecimalField line (-1) →
      Shape depth (star :: (line ++ [cr, lf])) .null
  | array {depth : ℕ} {line body : Bytes} {elements : List Skeleton} :
      depth < maxArrayDepth → DecimalField line elements.length →
      (elements.length : ℤ) < arrayLengthLimitExclusive.toInt →
      ShapeAll (depth + 1) body elements →
      Shape depth (star :: (line ++ [cr, lf] ++ body)) (.array elements)

/-- The elements of an array, one after the other. -/
inductive ShapeAll : ℕ → Bytes → List Skeleton → Prop where
  | nil {depth : ℕ} : ShapeAll depth [] []
  | cons {depth : ℕ} {first rest : Bytes} {element : Skeleton} {elements : List Skeleton} :
      Shape depth first element → ShapeAll depth rest elements →
      ShapeAll depth (first ++ rest) (element :: elements)

end

mutual

/-- The bytes derive the frame below `depth` arrays. -/
inductive Derives : ℕ → Bytes → Frame → Prop where
  | simple {depth : ℕ} {line : Bytes} {string : String} :
      LineSafe line → fromUtf8 line = some string →
      Derives depth (plus :: (line ++ [cr, lf])) (.simple string)
  | error {depth : ℕ} {line : Bytes} {string : String} :
      LineSafe line → fromUtf8 line = some string →
      Derives depth (minus :: (line ++ [cr, lf])) (.error string)
  | integer {depth : ℕ} {line : Bytes} {num : Int64} :
      DecimalField line num.toInt → Derives depth (colon :: (line ++ [cr, lf])) (.integer num)
  | nullBulk {depth : ℕ} {line : Bytes} :
      DecimalField line (-1) → Derives depth (dollar :: (line ++ [cr, lf])) .null
  | bulk {depth : ℕ} {line payload : Bytes} :
      DecimalField line payload.length →
      Derives depth (dollar :: (line ++ [cr, lf] ++ payload ++ [cr, lf])) (.bulk payload)
  | nullArray {depth : ℕ} {line : Bytes} :
      depth < maxArrayDepth → DecimalField line (-1) →
      Derives depth (star :: (line ++ [cr, lf])) .null
  | array {depth : ℕ} {line body : Bytes} {elements : List Frame} :
      depth < maxArrayDepth → DecimalField line elements.length →
      (elements.length : ℤ) < arrayLengthLimitExclusive.toInt →
      DerivesAll (depth + 1) body elements →
      Derives depth (star :: (line ++ [cr, lf] ++ body)) (.array elements)

inductive DerivesAll : ℕ → Bytes → List Frame → Prop where
  | nil {depth : ℕ} : DerivesAll depth [] []
  | cons {depth : ℕ} {first rest : Bytes} {element : Frame} {elements : List Frame} :
      Derives depth first element → DerivesAll depth rest elements →
      DerivesAll depth (first ++ rest) (element :: elements)

end

/-! ### Fields -/

theorem DecimalField.lineSafe {line : Bytes} {v : ℤ} (h : DecimalField line v) : LineSafe line := by
  obtain ⟨-, negative, digits, rfl, -, hdigits, -⟩ := h
  unfold decimalLine
  split
  · exact lineSafe_cons.mpr ⟨by decide, hdigits.lineSafe⟩
  · exact hdigits.lineSafe

/-- A field is found and read wherever it stands. -/
theorem decimalDecoder_field {line : Bytes} {num : Int64} (h : DecimalField line num.toInt)
    (rest : Bytes) :
    decimalDecoder (line ++ cr :: lf :: rest) = .complete num (line.length + 2) := by
  refine Decoder.interpret_eq_complete.mpr ⟨line, lineDecoder_line h.lineSafe rest, ?_⟩
  rw [decimalOfLine_eq_ok.mpr h]
  rfl

theorem decimalDecoder_eq_complete {s : Bytes} {num : Int64} {n : ℕ}
    (h : decimalDecoder s = .complete num n) :
    ∃ line rest, s = line ++ cr :: lf :: rest ∧ DecimalField line num.toInt ∧
      n = line.length + 2 := by
  obtain ⟨line, hline, hvalue⟩ := Decoder.interpret_eq_complete.mp h
  obtain ⟨rest, rfl, -, rfl⟩ := lineDecoder_eq_complete hline
  refine ⟨line, rest, rfl, decimalOfLine_eq_ok.mp ?_, rfl⟩
  cases hdec : decimalOfLine line with
  | ok value =>
    rw [hdec] at hvalue
    cases hvalue
    rfl
  | error e =>
    rw [hdec] at hvalue
    cases hvalue

/-- Every value of a field is the value of some `i64`. -/
theorem DecimalField.exists_toInt {line : Bytes} {v : ℤ} (h : DecimalField line v) :
    ∃ num : Int64, num.toInt = v :=
  ⟨Int64.ofInt v, toInt_ofInt_of_inRange h.1⟩

theorem toInt_neg_one_iff {num : Int64} : num = -1 ↔ num.toInt = -1 := by
  rw [← Int64.toInt_inj, show (-1 : Int64).toInt = -1 by decide]

theorem toInt_zero_iff {num : Int64} : num = 0 ↔ num.toInt = 0 := by
  rw [← Int64.toInt_inj, show (0 : Int64).toInt = 0 by decide]

theorem toNatClampNeg_of_toInt {num : Int64} {n : ℕ} (h : num.toInt = n) :
    num.toNatClampNeg = n := by
  rw [← Int64.toNat_toInt, h, Int.toNat_natCast]

theorem natCast_toNatClampNeg {num : Int64} (h : 0 ≤ num.toInt) :
    (num.toNatClampNeg : ℤ) = num.toInt := by
  rw [← Int64.toNat_toInt, Int.toNat_of_nonneg h]

theorem zero_le_iff_toInt {num : Int64} : 0 ≤ num ↔ 0 ≤ num.toInt := by
  rw [Int64.le_iff_toInt_le, show (0 : Int64).toInt = 0 by decide]

theorem bulkDecoder_payload (payload rest : Bytes) :
    bulkDecoder payload.length (payload ++ cr :: lf :: rest) =
      .complete (.bulk payload) (payload.length + 2) := by
  rw [bulkDecoder_apply]
  simp

theorem bulkDecoder_eq_complete {length n : ℕ} {s : Bytes} {sk : Skeleton}
    (h : bulkDecoder length s = .complete sk n) :
    ∃ payload rest, s = payload ++ cr :: lf :: rest ∧ payload.length = length ∧
      sk = .bulk payload ∧ n = length + 2 := by
  rw [bulkDecoder_apply] at h
  split at h
  · rename_i hle
    split at h
    · rename_i hterm
      cases h
      refine ⟨s.take length, s.drop (length + 2), ?_, by simp; omega, rfl, rfl⟩
      have hsplit : s.drop length = (s.drop length).take 2 ++ s.drop (length + 2) := by
        rw [← List.drop_drop, List.take_append_drop]
      rw [hterm] at hsplit
      calc s = s.take length ++ s.drop length := (List.take_append_drop _ _).symm
        _ = s.take length ++ cr :: lf :: s.drop (length + 2) := by rw [hsplit]; rfl
    · cases h
  · cases h

/-- A field and what follows it. -/
theorem field_bind_eq_complete {α : Type} {f : Int64 → WireDecoder α} {s : Bytes} {a : α} {n : ℕ} :
    (decimalDecoder >>= f) s = .complete a n ↔
      ∃ line num rest m, s = line ++ cr :: lf :: rest ∧ DecimalField line num.toInt ∧
        f num rest = .complete a m ∧ n = line.length + 2 + m := by
  have hdrop : ∀ line rest : Bytes, (line ++ cr :: lf :: rest).drop (line.length + 2) = rest := by
    intro line rest
    rw [← List.drop_drop, List.drop_left]
    rfl
  constructor
  · intro h
    obtain ⟨num, k, m, hnum, hf, rfl⟩ := Decoder.bind_eq_complete.mp h
    obtain ⟨line, rest, rfl, hfield, rfl⟩ := decimalDecoder_eq_complete hnum
    rw [hdrop] at hf
    exact ⟨line, num, rest, m, rfl, hfield, hf, rfl⟩
  · rintro ⟨line, num, rest, m, rfl, hfield, hf, rfl⟩
    refine Decoder.bind_eq_complete.mpr ⟨num, _, m, decimalDecoder_field hfield rest, ?_, rfl⟩
    rw [hdrop]
    exact hf

theorem marker_bind_eq_complete {α : Type} {f : UInt8 → WireDecoder α} {marker : UInt8} {s : Bytes}
    {a : α} {n : ℕ} :
    (Decoder.item >>= f) (marker :: s) = .complete a n ↔
      ∃ m, f marker s = .complete a m ∧ n = m + 1 := by
  constructor
  · intro h
    obtain ⟨_, _, m, hitem, hf, rfl⟩ := Decoder.bind_eq_complete.mp h
    cases hitem
    exact ⟨m, hf, Nat.add_comm 1 m⟩
  · rintro ⟨m, hf, rfl⟩
    exact Decoder.bind_eq_complete.mpr ⟨marker, 1, m, rfl, hf, Nat.add_comm m 1⟩

/-! ### The structural pass -/

/-- The body of a bulk string behind its length. -/
def bulkBody (length : Int64) : WireDecoder Skeleton :=
  if length = -1 then pure Skeleton.null
  else if 0 ≤ length then bulkDecoder length.toNatClampNeg
  else Decoder.fail "Invalid bulk string length"

/-- The body of an array behind its length. -/
def arrayBody (child : WireDecoder Skeleton) (length : Int64) : WireDecoder Skeleton :=
  if length = -1 then pure Skeleton.null
  else if length = 0 then pure (Skeleton.array [])
  else if 1 ≤ length ∧ length < arrayLengthLimitExclusive then do
    let elements ← child.sequence length.toNatClampNeg
    pure (Skeleton.array elements)
  else Decoder.fail "Array length is outside the supported range"

theorem skeleton_dollar_eq_complete {levels n : ℕ} {s : Bytes} {sk : Skeleton} :
    skeleton levels (dollar :: s) = .complete sk n ↔
      ∃ m, (decimalDecoder >>= bulkBody) s = .complete sk m ∧ n = m + 1 := by
  have hmarker : ¬ (dollar = plus ∨ dollar = minus ∨ dollar = colon) := by decide
  rw [skeleton_eq]
  unfold layer
  rw [marker_bind_eq_complete, if_neg hmarker, if_pos rfl]
  rfl

theorem skeleton_star_eq_complete {levels n : ℕ} {s : Bytes} {sk : Skeleton} :
    skeleton (levels + 1) (star :: s) = .complete sk n ↔
      ∃ m, (decimalDecoder >>= arrayBody (skeleton levels)) s = .complete sk m ∧ n = m + 1 := by
  have hmarker : ¬ (star = plus ∨ star = minus ∨ star = colon) := by decide
  have hdollar : ¬ star = dollar := by decide
  have hlayer : skeleton (levels + 1) = layer (some (skeleton levels)) := rfl
  rw [hlayer]
  unfold layer
  rw [marker_bind_eq_complete, if_neg hmarker, if_neg hdollar, if_pos rfl]
  rfl

theorem bulkBody_neg_one {num : Int64} (h : num.toInt = -1) (s : Bytes) :
    bulkBody num s = .complete .null 0 := by
  rw [bulkBody, if_pos (toInt_neg_one_iff.mpr h)]
  rfl

theorem bulkBody_payload {num : Int64} {payload : Bytes} (h : num.toInt = payload.length)
    (rest : Bytes) :
    bulkBody num (payload ++ cr :: lf :: rest) = .complete (.bulk payload) (payload.length + 2) := by
  have hneg : ¬ num = -1 := by
    rw [toInt_neg_one_iff]
    omega
  have hnonneg : 0 ≤ num := by
    rw [zero_le_iff_toInt]
    omega
  rw [bulkBody, if_neg hneg, if_pos hnonneg, toNatClampNeg_of_toInt h, bulkDecoder_payload]

/-- The two ways in which the body of a bulk string is complete. -/
theorem bulkBody_eq_complete {num : Int64} {s : Bytes} {sk : Skeleton} {n : ℕ}
    (h : bulkBody num s = .complete sk n) :
    (num.toInt = -1 ∧ sk = .null ∧ n = 0) ∨
      ∃ payload rest, s = payload ++ cr :: lf :: rest ∧ num.toInt = payload.length ∧
        sk = .bulk payload ∧ n = payload.length + 2 := by
  unfold bulkBody at h
  split at h
  · rename_i hneg
    cases h
    exact .inl ⟨toInt_neg_one_iff.mp hneg, rfl, rfl⟩
  split at h
  · rename_i hnonneg
    obtain ⟨payload, rest, rfl, hlength, rfl, rfl⟩ := bulkDecoder_eq_complete h
    have hvalue := natCast_toNatClampNeg (zero_le_iff_toInt.mp hnonneg)
    rw [← hlength] at hvalue
    exact .inr ⟨payload, rest, rfl, hvalue.symm, rfl, by rw [hlength]⟩
  · cases h

theorem arrayBody_neg_one {child : WireDecoder Skeleton} {num : Int64} (h : num.toInt = -1)
    (s : Bytes) : arrayBody child num s = .complete .null 0 := by
  rw [arrayBody, if_pos (toInt_neg_one_iff.mpr h)]
  rfl

theorem arrayBody_elements {child : WireDecoder Skeleton} {num : Int64} {elements : List Skeleton}
    {s : Bytes} {n : ℕ} (h : num.toInt = elements.length)
    (hlimit : num.toInt < arrayLengthLimitExclusive.toInt)
    (hseq : child.sequence elements.length s = .complete elements n) :
    arrayBody child num s = .complete (.array elements) n := by
  have hneg : ¬ num = -1 := by
    rw [toInt_neg_one_iff]
    omega
  rw [arrayBody, if_neg hneg]
  by_cases hzero : num = 0
  · have hlength := toInt_zero_iff.mp hzero
    obtain rfl : elements = [] := List.length_eq_zero_iff.mp (by omega)
    cases hseq
    rw [if_pos hzero]
    rfl
  · rw [toInt_zero_iff] at hzero
    have hrange : 1 ≤ num ∧ num < arrayLengthLimitExclusive := by
      rw [Int64.le_iff_toInt_le, Int64.lt_iff_toInt_lt, show (1 : Int64).toInt = 1 by decide]
      omega
    rw [if_neg (by rw [toInt_zero_iff]; exact hzero), if_pos hrange, toNatClampNeg_of_toInt h]
    exact Decoder.bind_eq_complete.mpr ⟨elements, n, 0, hseq, rfl, rfl⟩

theorem sequence_length {α : Type} {d : WireDecoder α} {k n : ℕ} {s : Bytes} {as : List α}
    (h : d.sequence k s = .complete as n) : as.length = k := by
  induction k generalizing s as n with
  | zero =>
    cases h
    exact List.length_nil
  | succ k ih =>
    obtain ⟨a, n₁, n₂, ha, hrest, rfl⟩ := Decoder.bind_eq_complete.mp h
    obtain ⟨as', n₃, n₄, has, hpure, rfl⟩ := Decoder.bind_eq_complete.mp hrest
    cases hpure
    rw [List.length_cons, ih has]

theorem arrayBody_eq_complete {child : WireDecoder Skeleton} {num : Int64} {s : Bytes}
    {sk : Skeleton} {n : ℕ} (h : arrayBody child num s = .complete sk n) :
    (num.toInt = -1 ∧ sk = .null ∧ n = 0) ∨
      ∃ elements, num.toInt = elements.length ∧ num.toInt < arrayLengthLimitExclusive.toInt ∧
        sk = .array elements ∧ child.sequence elements.length s = .complete elements n := by
  unfold arrayBody at h
  split at h
  · rename_i hneg
    cases h
    exact .inl ⟨toInt_neg_one_iff.mp hneg, rfl, rfl⟩
  split at h
  · rename_i hzero
    cases h
    subst hzero
    exact .inr ⟨[], rfl, by decide, rfl, rfl⟩
  split at h
  · rename_i hrange
    obtain ⟨elements, j, _, hseq, hpure, rfl⟩ := Decoder.bind_eq_complete.mp h
    cases hpure
    rw [Int64.le_iff_toInt_le, Int64.lt_iff_toInt_lt, show (1 : Int64).toInt = 1 by decide] at hrange
    have hlength := sequence_length hseq
    have hnonneg : 0 ≤ num.toInt := by omega
    have hvalue := natCast_toNatClampNeg hnonneg
    rw [← hlength] at hvalue hseq
    exact .inr ⟨elements, hvalue.symm, hrange.2, rfl, hseq⟩
  · cases h

mutual

/-- The structural pass finds every shape, whatever follows it. -/
theorem Shape.complete {levels depth : ℕ} {s : Bytes} {sk : Skeleton} (h : Shape depth s sk)
    (hlevels : levels + depth = maxArrayDepth) (rest : Bytes) :
    skeleton levels (s ++ rest) = .complete sk s.length := by
  cases h with
  | line hmarker hline => exact skeleton_line levels hmarker hline rest
  | @nullBulk _ line hfield =>
    obtain ⟨num, hnum⟩ := hfield.exists_toInt
    rw [← hnum] at hfield
    refine skeleton_dollar_eq_complete.mpr ⟨line.length + 2, ?_, by simp⟩
    exact field_bind_eq_complete.mpr
      ⟨line, num, rest, 0, by simp, hfield, bulkBody_neg_one hnum rest, rfl⟩
  | @bulk _ line payload hfield =>
    obtain ⟨num, hnum⟩ := hfield.exists_toInt
    rw [← hnum] at hfield
    refine skeleton_dollar_eq_complete.mpr ⟨line.length + 2 + (payload.length + 2), ?_, by simp; omega⟩
    exact field_bind_eq_complete.mpr
      ⟨line, num, payload ++ cr :: lf :: rest, _, by simp, hfield, bulkBody_payload hnum rest, rfl⟩
  | @nullArray _ line hdepth hfield =>
    obtain ⟨levels, rfl⟩ : ∃ k, levels = k + 1 := ⟨levels - 1, by omega⟩
    obtain ⟨num, hnum⟩ := hfield.exists_toInt
    rw [← hnum] at hfield
    refine skeleton_star_eq_complete.mpr ⟨line.length + 2, ?_, by simp⟩
    exact field_bind_eq_complete.mpr
      ⟨line, num, rest, 0, by simp, hfield, arrayBody_neg_one hnum rest, rfl⟩
  | @array _ line body elements hdepth hfield hlimit helements =>
    obtain ⟨levels, rfl⟩ : ∃ k, levels = k + 1 := ⟨levels - 1, by omega⟩
    obtain ⟨num, hnum⟩ := hfield.exists_toInt
    rw [← hnum] at hfield
    have hseq := helements.complete (show levels + (depth + 1) = maxArrayDepth by omega) rest
    refine skeleton_star_eq_complete.mpr ⟨line.length + 2 + body.length, ?_, by simp; omega⟩
    exact field_bind_eq_complete.mpr ⟨line, num, body ++ rest, _, by simp, hfield,
      arrayBody_elements hnum (hnum ▸ hlimit) hseq, rfl⟩

theorem ShapeAll.complete {levels depth : ℕ} {s : Bytes} {sks : List Skeleton}
    (h : ShapeAll depth s sks) (hlevels : levels + depth = maxArrayDepth) (rest : Bytes) :
    (skeleton levels).sequence sks.length (s ++ rest) = .complete sks s.length := by
  cases h with
  | nil => rfl
  | @cons _ first others element elements hfirst hothers =>
    have hhead := hfirst.complete hlevels (others ++ rest)
    have htail := hothers.complete hlevels rest
    rw [List.append_assoc, List.length_append]
    refine Decoder.bind_eq_complete.mpr ⟨_, _, _, hhead, ?_, rfl⟩
    refine Decoder.bind_eq_complete.mpr ⟨_, _, 0, ?_, rfl, rfl⟩
    rw [List.drop_left]
    exact htail

end

/-- The first `n` bytes satisfy the predicate. -/
def Fronts (s : Bytes) (n : ℕ) (P : Bytes → Prop) : Prop :=
  ∃ used rest, s = used ++ rest ∧ used.length = n ∧ P used

theorem sequence_shape {d : WireDecoder Skeleton} {depth : ℕ}
    (hd : ∀ s sk n, d s = .complete sk n → Fronts s n fun used => Shape depth used sk)
    {k n : ℕ} {s : Bytes} {sks : List Skeleton} (h : d.sequence k s = .complete sks n) :
    Fronts s n fun used => ShapeAll depth used sks := by
  induction k generalizing s sks n with
  | zero =>
    cases h
    exact ⟨[], s, rfl, rfl, .nil⟩
  | succ k ih =>
    obtain ⟨element, n₁, n₂, helement, hrest, rfl⟩ := Decoder.bind_eq_complete.mp h
    obtain ⟨elements, n₃, n₄, helements, hpure, rfl⟩ := Decoder.bind_eq_complete.mp hrest
    cases hpure
    obtain ⟨first, s, rfl, rfl, hfirst⟩ := hd _ _ _ helement
    rw [List.drop_left] at helements
    obtain ⟨others, rest, rfl, rfl, hothers⟩ := ih helements
    exact ⟨first ++ others, rest, by simp, by simp, .cons hfirst hothers⟩

/-- Whatever the structural pass finds has a shape: one case for each marker. -/
theorem layer_shape {child : Option (WireDecoder Skeleton)} {depth : ℕ}
    (hchild : ∀ d ∈ child, depth < maxArrayDepth ∧
      ∀ s sk n, d s = .complete sk n → Fronts s n fun used => Shape (depth + 1) used sk)
    {s : Bytes} {sk : Skeleton} {n : ℕ} (h : layer child s = .complete sk n) :
    Fronts s n fun used => Shape depth used sk := by
  obtain ⟨marker, s, rfl⟩ : ∃ marker rest, s = marker :: rest := by
    cases s with
    | nil => cases h
    | cons marker rest => exact ⟨marker, rest, rfl⟩
  obtain ⟨m, hbody, rfl⟩ := marker_bind_eq_complete.mp h
  split at hbody
  · rename_i hmarker
    obtain ⟨line, k, _, hline, hpure, rfl⟩ := Decoder.bind_eq_complete.mp hbody
    cases hpure
    obtain ⟨rest, rfl, hsafe, rfl⟩ := lineDecoder_eq_complete hline
    exact ⟨marker :: (line ++ [cr, lf]), rest, by simp, by simp, .line hmarker hsafe⟩
  split at hbody
  · rename_i hdollar
    subst hdollar
    obtain ⟨line, num, rest, k, rfl, hfield, hbulk, rfl⟩ :=
      (field_bind_eq_complete (f := bulkBody)).mp hbody
    obtain ⟨hneg, rfl, rfl⟩ | ⟨payload, rest, rfl, hlength, rfl, rfl⟩ := bulkBody_eq_complete hbulk
    · rw [hneg] at hfield
      exact ⟨dollar :: (line ++ [cr, lf]), rest, by simp, by simp, .nullBulk hfield⟩
    · rw [hlength] at hfield
      exact ⟨dollar :: (line ++ [cr, lf] ++ payload ++ [cr, lf]), rest, by simp, by simp; omega,
        .bulk hfield⟩
  split at hbody
  · rename_i hstar
    subst hstar
    cases child with
    | none => cases hbody
    | some child =>
      obtain ⟨hdepth, hchild⟩ := hchild child rfl
      obtain ⟨line, num, rest, k, rfl, hfield, harray, rfl⟩ :=
        (field_bind_eq_complete (f := arrayBody child)).mp hbody
      obtain ⟨hneg, rfl, rfl⟩ | ⟨elements, hlength, hlimit, rfl, hseq⟩ :=
        arrayBody_eq_complete harray
      · rw [hneg] at hfield
        exact ⟨star :: (line ++ [cr, lf]), rest, by simp, by simp, .nullArray hdepth hfield⟩
      · obtain ⟨body, rest, rfl, rfl, helements⟩ := sequence_shape hchild hseq
        rw [hlength] at hfield hlimit
        exact ⟨star :: (line ++ [cr, lf] ++ body), rest, by simp, by simp; omega,
          .array hdepth hfield hlimit helements⟩
  · cases hbody

theorem skeleton_shape {levels depth : ℕ} (hlevels : levels + depth = maxArrayDepth) {s : Bytes}
    {sk : Skeleton} {n : ℕ} (h : skeleton levels s = .complete sk n) :
    Fronts s n fun used => Shape depth used sk := by
  induction levels generalizing depth s sk n with
  | zero => exact layer_shape (by simp) h
  | succ levels ih =>
    refine layer_shape ?_ h
    intro d hd
    obtain rfl : d = skeleton levels := by simpa using hd.symm
    exact ⟨by omega, fun s sk n hsk => ih (by omega) hsk⟩

/-- The structural pass accepts exactly the shapes at the front of its input. -/
theorem skeleton_eq_complete_iff {s : Bytes} {sk : Skeleton} {n : ℕ} :
    skeleton maxArrayDepth s = .complete sk n ↔ Fronts s n fun used => Shape 0 used sk := by
  constructor
  · exact skeleton_shape (Nat.add_zero _)
  · rintro ⟨used, rest, rfl, rfl, hshape⟩
    exact hshape.complete (Nat.add_zero _) rest

/-! ### The content pass -/

theorem decodeAll_cons_eq_ok {element : Skeleton} {elements : List Skeleton} {frames : List Frame}
    (h : decodeAll (element :: elements) = .ok frames) :
    ∃ frame rest, frames = frame :: rest ∧ decode element = .ok frame ∧
      decodeAll elements = .ok rest := by
  rw [decodeAll] at h
  split at h
  · cases h
  · rename_i frame hframe
    split at h
    · cases h
    · rename_i rest hrest
      cases h
      exact ⟨frame, rest, rfl, hframe, hrest⟩

theorem decode_array_eq_ok {elements : List Skeleton} {frame : Frame}
    (h : decode (.array elements) = .ok frame) :
    ∃ frames, frame = .array frames ∧ decodeAll elements = .ok frames := by
  rw [decode] at h
  split at h
  · cases h
  · rename_i frames hframes
    cases h
    exact ⟨frames, rfl, hframes⟩

theorem decodeAll_length {elements : List Skeleton} {frames : List Frame}
    (h : decodeAll elements = .ok frames) : elements.length = frames.length := by
  induction elements generalizing frames with
  | nil =>
    rw [decodeAll] at h
    cases h
    exact List.length_nil
  | cons element elements ih =>
    obtain ⟨frame, rest, rfl, -, hrest⟩ := decodeAll_cons_eq_ok h
    rw [List.length_cons, List.length_cons, ih hrest]

mutual

/-- A derivation is a shape whose lines can be read. -/
theorem Derives.shape {depth : ℕ} {s : Bytes} {frame : Frame} (h : Derives depth s frame) :
    ∃ sk, Shape depth s sk ∧ decode sk = .ok frame := by
  cases h with
  | @simple _ line string hline hutf =>
    refine ⟨.line plus line, .line (.inl rfl) hline, ?_⟩
    simp [decode, hutf]
  | @error _ line string hline hutf =>
    refine ⟨.line minus line, .line (.inr (.inl rfl)) hline, ?_⟩
    have hmarker : ¬ minus = plus := by decide
    simp [decode, hutf, hmarker]
  | @integer _ line num hfield =>
    refine ⟨.line colon line, .line (.inr (.inr rfl)) hfield.lineSafe, ?_⟩
    have hmarker : ¬ (colon = plus ∨ colon = minus) := by decide
    rw [decode, if_neg hmarker, decimalOfLine_eq_ok.mpr hfield]
  | nullBulk hfield => exact ⟨.null, .nullBulk hfield, by rw [decode]⟩
  | @bulk _ line payload hfield => exact ⟨.bulk payload, .bulk hfield, by rw [decode]⟩
  | nullArray hdepth hfield => exact ⟨.null, .nullArray hdepth hfield, by rw [decode]⟩
  | @array _ line body elements hdepth hfield hlimit helements =>
    obtain ⟨sks, hsks, hdecode⟩ := helements.shape
    have hlength := decodeAll_length hdecode
    rw [← hlength] at hfield hlimit
    refine ⟨.array sks, .array hdepth hfield hlimit hsks, ?_⟩
    rw [decode, hdecode]

theorem DerivesAll.shape {depth : ℕ} {s : Bytes} {frames : List Frame}
    (h : DerivesAll depth s frames) :
    ∃ sks, ShapeAll depth s sks ∧ decodeAll sks = .ok frames := by
  cases h with
  | nil => exact ⟨[], .nil, by rw [decodeAll]⟩
  | cons hfirst hothers =>
    obtain ⟨sk, hsk, hdecode⟩ := hfirst.shape
    obtain ⟨sks, hsks, hdecodes⟩ := hothers.shape
    refine ⟨sk :: sks, .cons hsk hsks, ?_⟩
    rw [decodeAll, hdecode, hdecodes]

end

/-- A line that decodes is derived as its marker says. -/
theorem line_derives {depth : ℕ} {marker : UInt8} {line : Bytes} {frame : Frame}
    (hmarker : marker = plus ∨ marker = minus ∨ marker = colon) (hline : LineSafe line)
    (h : decode (.line marker line) = .ok frame) :
    Derives depth (marker :: (line ++ [cr, lf])) frame := by
  rw [decode] at h
  split at h
  · rename_i htext
    cases hutf : fromUtf8 line with
    | none =>
      rw [hutf] at h
      cases h
    | some string =>
      rw [hutf] at h
      rcases htext with rfl | rfl
      · cases h
        exact .simple hline hutf
      · cases h
        exact .error hline hutf
  · rename_i htext
    obtain rfl : marker = colon := by tauto
    cases hdec : decimalOfLine line with
    | error e =>
      rw [hdec] at h
      cases h
    | ok num =>
      rw [hdec] at h
      cases h
      exact .integer (decimalOfLine_eq_ok.mp hdec)

mutual

theorem Shape.derives {depth : ℕ} {s : Bytes} {sk : Skeleton} {frame : Frame}
    (h : Shape depth s sk) (hdecode : decode sk = .ok frame) : Derives depth s frame := by
  cases h with
  | line hmarker hline => exact line_derives hmarker hline hdecode
  | nullBulk hfield =>
    rw [decode] at hdecode
    cases hdecode
    exact .nullBulk hfield
  | bulk hfield =>
    rw [decode] at hdecode
    cases hdecode
    exact .bulk hfield
  | nullArray hdepth hfield =>
    rw [decode] at hdecode
    cases hdecode
    exact .nullArray hdepth hfield
  | array hdepth hfield hlimit helements =>
    obtain ⟨frames, rfl, hframes⟩ := decode_array_eq_ok hdecode
    rw [decodeAll_length hframes] at hfield hlimit
    exact .array hdepth hfield hlimit (helements.derives hframes)

theorem ShapeAll.derives {depth : ℕ} {s : Bytes} {sks : List Skeleton} {frames : List Frame}
    (h : ShapeAll depth s sks) (hdecode : decodeAll sks = .ok frames) :
    DerivesAll depth s frames := by
  cases h with
  | nil =>
    rw [decodeAll] at hdecode
    cases hdecode
    exact .nil
  | cons hfirst hothers =>
    obtain ⟨frame, rest, rfl, hframe, hrest⟩ := decodeAll_cons_eq_ok hdecode
    exact .cons (hfirst.derives hframe) (hothers.derives hrest)

end

theorem frameDecoder_eq_complete_iff {s : Bytes} {frame : Frame} {n : ℕ} :
    frameDecoder s = .complete frame n ↔ Fronts s n fun used => Derives 0 used frame := by
  unfold frameDecoder
  rw [Decoder.interpret_eq_complete]
  constructor
  · rintro ⟨sk, hsk, hdecode⟩
    obtain ⟨used, rest, rfl, rfl, hshape⟩ := skeleton_eq_complete_iff.mp hsk
    exact ⟨used, rest, rfl, rfl, hshape.derives hdecode⟩
  · rintro ⟨used, rest, rfl, rfl, hderives⟩
    obtain ⟨sk, hshape, hdecode⟩ := hderives.shape
    exact ⟨sk, skeleton_eq_complete_iff.mpr ⟨used, rest, rfl, rfl, hshape⟩, hdecode⟩

/-- The bytes from `p` to `q`. -/
def segment (b : Bytes) (p q : ℕ) : Bytes := (b.drop p).take (q - p)

theorem fronts_iff_segment {b : Bytes} {p n : ℕ} (hp : p ≤ b.length) {P : Bytes → Prop} :
    Fronts (b.drop p) n P ↔ p + n ≤ b.length ∧ P (segment b p (p + n)) := by
  have hsub : p + n - p = n := by omega
  rw [segment, hsub]
  constructor
  · rintro ⟨used, rest, hsplit, rfl, hused⟩
    have hlength : b.length - p = used.length + rest.length := by
      rw [← List.length_drop, hsplit, List.length_append]
    refine ⟨by omega, ?_⟩
    rw [hsplit, List.take_left]
    exact hused
  · rintro ⟨hle, hused⟩
    refine ⟨_, (b.drop p).drop n, (List.take_append_drop _ _).symm, ?_, hused⟩
    rw [List.length_take, List.length_drop]
    omega

/-- `parse` accepts exactly the derivations of the grammar, from every position. -/
theorem parse_iff_derives (b : Bytes) (p q : ℕ) (hp : p ≤ b.length) (frame : Frame) :
    parse ⟨b, p⟩ = (.ok frame, ⟨b, q⟩) ↔
      p ≤ q ∧ q ≤ b.length ∧ Derives 0 (segment b p q) frame := by
  rw [parse_eq_ok_iff]
  constructor
  · rintro ⟨n, hdecoder, hskip⟩
    obtain rfl : q = p + n := by
      simpa only [Cursor.skip, Cursor.mk.injEq, true_and] using hskip
    obtain ⟨hle, hderives⟩ := (fronts_iff_segment hp).mp (frameDecoder_eq_complete_iff.mp hdecoder)
    exact ⟨by omega, hle, hderives⟩
  · rintro ⟨hpq, hle, hderives⟩
    obtain ⟨n, rfl⟩ := Nat.exists_eq_add_of_le hpq
    refine ⟨n, frameDecoder_eq_complete_iff.mpr ?_, rfl⟩
    exact (fronts_iff_segment hp).mpr ⟨hle, hderives⟩

/-- A null array among padded lengths, behind one byte and before another. -/
theorem parse_iff_derives_padded :
    Derives 0 (segment (asBytes "+*02\r\n*-1\r\n$01\r\n\r\r\n-") 1 19)
      (.array [.null, .bulk [cr]]) := by
  have hrun : parse ⟨asBytes "+*02\r\n*-1\r\n$01\r\n\r\r\n-", 1⟩ =
      (.ok (.array [.null, .bulk [cr]]), ⟨asBytes "+*02\r\n*-1\r\n$01\r\n\r\r\n-", 19⟩) :=
    parse_eq_ok_iff.mpr ⟨18, rfl, rfl⟩
  exact ((parse_iff_derives _ 1 19 (by decide) _).mp hrun).2.2

end MiniRedis
