import MiniRedis.Library.Audited
import MiniRedis.Frame.Grammar

/-!
# The audited parser

The parser again, writing down the exact value of every sum that the code takes
without a check and every length for which it reserves a vector. Without its
notes it is the parser, and no sum exceeds its type.
-/
namespace MiniRedis

open Library Library.Audited

/-- A sum with the greatest value of its type, or a reserved length and where the cursor is. -/
inductive Note where
  | sum (value limit : ℕ)
  | reserve (position capacity : ℕ)
  deriving DecidableEq, Repr

abbrev AuditM : Type → Type := Audited Cursor Note Stop

/-- `i32::MAX`. -/
def i32Max : ℕ := 2 ^ 31 - 1

namespace Audit

def err {α : Type} (e : FrameError) : AuditM α := Fallible.err (.error e)

/-- An unchecked `a + b`. -/
def sum (limit a b : ℕ) : AuditM ℕ := do
  note fun _ => .sum (a + b) limit
  pure (a + b)

/-- `Vec::with_capacity`. -/
def withCapacity (capacity : ℕ) : AuditM Unit := note fun src => .reserve src.position capacity

def forCount (body : AuditM Unit) : ℕ → AuditM Unit
  | 0 => pure ()
  | count + 1 => do
    body
    forCount body count

def collect (body : AuditM Frame) : ℕ → AuditM (List Frame)
  | 0 => pure []
  | count + 1 => do
    let element ← body
    let elements ← collect body count
    pure (element :: elements)

/-- `Frame::get_line` behind its scan, in which `index + 1` is at most a length. -/
def takeLine (startPosition index : ℕ) : AuditM Bytes := do
  let stop ← sum usizeMax startPosition index
  let result ← silent (CursorM.slice startPosition stop)
  let used ← sum usizeMax index 2
  silent (CursorM.advance used)
  pure result

def getLine : AuditM Bytes := do
  let line ← silent CursorM.chunk
  let startPosition ← silent CursorM.position
  let index ← silent (CursorM.lift (scanLine line 0))
  takeLine startPosition index

def getDecimal : AuditM Int64 := do
  let line ← getLine
  silent (CursorM.lift (decimalOfLine line))

def checkWithDepth (depth : ℕ) : AuditM Unit := do
  let available ← silent CursorM.hasRemaining
  if !available then err .incomplete
  else
    let firstByte ← silent CursorM.getU8
    if firstByte = plus ∨ firstByte = minus ∨ firstByte = colon then
      let _bytes ← getLine
      pure ()
    else if firstByte = dollar then
      let length ← getDecimal
      if length = -1 then pure ()
      else if 0 ≤ length then
        let lengthUsize ← silent (usizeTryFrom length "Bulk string length overflow")
        if usizeMax < lengthUsize + 2 then err (.other "Bulk string length overflow")
        else
          let available ← silent CursorM.remaining
          if lengthUsize + 2 ≤ available then
            silent (CursorM.advance lengthUsize)
            let first ← silent CursorM.getU8
            if first = cr then
              let second ← silent CursorM.getU8
              if second = lf then pure ()
              else err (.other "Invalid bulk string terminator")
            else err (.other "Invalid bulk string terminator")
          else err .incomplete
      else err (.other "Invalid bulk string length")
    else if firstByte = star then
      if _h : maxArrayDepth ≤ depth then
        err (.other "Array nesting depth exceeds the supported limit")
      else
        let arrayLength ← getDecimal
        if -1 ≤ arrayLength ∧ arrayLength ≤ 0 then pure ()
        else if 1 ≤ arrayLength ∧ arrayLength < arrayLengthLimitExclusive then
          forCount (note (fun _ => .sum (depth + 1) i32Max) >>= fun _ => checkWithDepth (depth + 1))
            arrayLength.toNatClampNeg
        else err (.other "Array length is outside the supported range")
    else err (.other "Invalid frame type marker")
termination_by maxArrayDepth - depth

def check : AuditM Unit := checkWithDepth 0

/-- `Frame::parse_data` behind the marker of an array. -/
def arrayData (element : AuditM Frame) : AuditM Frame := do
  let arrayLength ← getDecimal
  if arrayLength = -1 then pure Frame.null
  else
    let capacity ← silent (usizeTryFrom arrayLength "Array length overflow")
    withCapacity capacity
    let elements ← collect element capacity
    pure (Frame.array elements)

/-- `Frame::parse_data` behind its marker. -/
def decodeMarked (array : AuditM Frame) (firstByte : UInt8) : AuditM Frame :=
  if firstByte = plus ∨ firstByte = minus then do
    let content ← getLine
    match fromUtf8 content with
    | none => err (.other "Invalid UTF-8")
    | some string =>
      if firstByte = plus then pure (Frame.simple string) else pure (Frame.error string)
  else if firstByte = colon then do
    let number ← getDecimal
    pure (Frame.integer number)
  else if firstByte = dollar then do
    let length ← getDecimal
    if length = -1 then pure Frame.null
    else
      let lengthUsize ← silent (usizeTryFrom length "Bulk string length overflow")
      let bytes ← silent (CursorM.chunkPrefix lengthUsize)
      let used ← sum usizeMax lengthUsize 2
      silent (CursorM.advance used)
      pure (Frame.bulk bytes)
  else if firstByte = star then array
  else err (.other "Invalid frame type marker")

def parseData : ℕ → AuditM Frame
  | 0 => Fallible.err .panic
  | fuel + 1 => do
    let firstByte ← silent CursorM.getU8
    decodeMarked (arrayData (parseData fuel)) firstByte

def parse : AuditM Frame := do
  let startPosition ← silent CursorM.position
  check
  silent (CursorM.setPosition startPosition)
  let unread ← silent CursorM.remaining
  parseData (unread + 1)

end Audit

/-! ### The same parts of the parser -/

/-- The branch of `parse_data` for arrays. -/
def arrayData (element : CursorM Frame) : CursorM Frame := do
  let arrayLength ← getDecimal
  if arrayLength = -1 then pure Frame.null
  else
    let capacity ← usizeTryFrom arrayLength "Array length overflow"
    let elements ← CursorM.collect element capacity
    pure (Frame.array elements)

/-- The branches of `parse_data`. -/
def decodeMarked (array : CursorM Frame) (firstByte : UInt8) : CursorM Frame :=
  if firstByte = plus ∨ firstByte = minus then do
    let content ← getLine
    match fromUtf8 content with
    | none => CursorM.err (.other "Invalid UTF-8")
    | some string =>
      if firstByte = plus then pure (Frame.simple string) else pure (Frame.error string)
  else if firstByte = colon then do
    let number ← getDecimal
    pure (Frame.integer number)
  else if firstByte = dollar then do
    let length ← getDecimal
    if length = -1 then pure Frame.null
    else
      let lengthUsize ← usizeTryFrom length "Bulk string length overflow"
      let bytes ← CursorM.chunkPrefix lengthUsize
      CursorM.advance (lengthUsize + 2)
      pure (Frame.bulk bytes)
  else if firstByte = star then array
  else CursorM.err (.other "Invalid frame type marker")

theorem parseData_succ (fuel : ℕ) :
    parseData (fuel + 1) = CursorM.getU8 >>= decodeMarked (arrayData (parseData fuel)) := rfl

/-! ### Notes of the parts -/

section Parts

variable {α : Type} {I : Bytes → Prop} {P : Note → Prop}

/-- `q` is `p` with notes that satisfy `P` wherever the input satisfies `I`. -/
abbrev Notes (I : Bytes → Prop) (P : Note → Prop) (q : AuditM α) (p : CursorM α) : Prop :=
  Audits (fun src => I src.data) P q p

/-- A step that only moves the cursor and writes nothing. -/
theorem notes_silent {p : CursorM α} (h : ∀ src, (p src).2.data = src.data) :
    Notes I P (silent p) p := by
  refine .silent fun src hsrc => ?_
  rw [h src]
  exact hsrc

theorem data_getU8 (src : Cursor) : (CursorM.getU8 src).2.data = src.data := by
  unfold CursorM.getU8
  split <;> rfl

theorem data_advance (n : ℕ) (src : Cursor) : (CursorM.advance n src).2.data = src.data := by
  unfold CursorM.advance
  split <;> rfl

theorem data_slice (start stop : ℕ) (src : Cursor) :
    (CursorM.slice start stop src).2.data = src.data := by
  unfold CursorM.slice
  split <;> rfl

theorem data_chunkPrefix (n : ℕ) (src : Cursor) :
    (CursorM.chunkPrefix n src).2.data = src.data := by
  unfold CursorM.chunkPrefix
  split <;> rfl

theorem data_usizeTryFrom (length : Int64) (message : String) (src : Cursor) :
    (usizeTryFrom length message src).2.data = src.data := by
  unfold usizeTryFrom
  split <;> rfl

theorem sum_bind (limit a b : ℕ) (f : ℕ → AuditM α) :
    (Audit.sum limit a b >>= f) = (note fun _ => Note.sum (a + b) limit) >>= fun _ => f (a + b) :=
  rfl

theorem notes_sum_bind {limit a b : ℕ} {f : ℕ → AuditM α} {p : CursorM α}
    (hsum : P (.sum (a + b) limit)) (hf : Notes I P (f (a + b)) p) :
    Notes I P (Audit.sum limit a b >>= f) p := by
  rw [sum_bind]
  exact hf.note_bind fun _ _ => hsum

theorem notes_err (e : FrameError) : Notes I P (Audit.err e : AuditM α) (CursorM.err e) := .err _

theorem takeLine_notes (startPosition index : ℕ)
    (hstop : P (.sum (startPosition + index) usizeMax)) (hused : P (.sum (index + 2) usizeMax)) :
    Notes I P (Audit.takeLine startPosition index) (do
      let result ← CursorM.slice startPosition (startPosition + index)
      CursorM.advance (index + 2)
      pure result) := by
  refine notes_sum_bind hstop ((notes_silent (data_slice _ _)).bind fun result _ _ _ => ?_)
  exact notes_sum_bind hused ((notes_silent (data_advance _)).bind fun _ _ _ _ => .pure result)

theorem getLine_notes (hsum : ∀ value limit, P (.sum value limit)) :
    Notes I P Audit.getLine getLine := by
  refine (notes_silent fun _ => rfl).bind fun line _ _ _ => ?_
  refine (notes_silent fun _ => rfl).bind fun startPosition _ _ _ => ?_
  refine (notes_silent fun _ => rfl).bind fun index _ _ _ => ?_
  exact takeLine_notes startPosition index (hsum _ _) (hsum _ _)

theorem getDecimal_notes (hline : Notes I P Audit.getLine getLine) :
    Notes I P Audit.getDecimal getDecimal :=
  hline.bind fun _ _ _ _ => notes_silent fun _ => rfl

theorem forCount_notes {q : AuditM Unit} {p : CursorM Unit} (h : Notes I P q p) (count : ℕ) :
    Notes I P (Audit.forCount q count) (CursorM.forCount p count) := by
  induction count with
  | zero => exact .pure ()
  | succ count ih => exact h.bind fun _ _ _ _ => ih

theorem collect_notes {q : AuditM Frame} {p : CursorM Frame} (h : Notes I P q p) (count : ℕ) :
    Notes I P (Audit.collect q count) (CursorM.collect p count) := by
  induction count with
  | zero => exact .pure []
  | succ count ih => exact h.bind fun _ _ _ _ => ih.bind fun _ _ _ _ => .pure _

/-- The check writes the notes of its lines and of its nesting. -/
theorem checkWithDepth_notes (hline : Notes I P Audit.getLine getLine)
    (hdepth : ∀ depth < maxArrayDepth, P (.sum (depth + 1) i32Max)) (depth : ℕ) :
    Notes I P (Audit.checkWithDepth depth) (checkWithDepth depth) := by
  induction depth using checkWithDepth.induct with
  | case1 depth ih =>
    rw [Audit.checkWithDepth, checkWithDepth]
    refine (notes_silent fun _ => rfl).bind fun available _ _ _ => ?_
    refine .ite (fun _ => notes_err _) fun _ => ?_
    refine (notes_silent data_getU8).bind fun firstByte _ _ _ => ?_
    refine .ite (fun _ => hline.bind fun _ _ _ _ => .pure ()) fun _ => ?_
    refine .ite (fun _ => ?_) fun _ => .ite (fun _ => ?_) fun _ => notes_err _
    · refine (getDecimal_notes hline).bind fun length _ _ _ => ?_
      refine .ite (fun _ => .pure ()) fun _ => .ite (fun _ => ?_) fun _ => notes_err _
      refine (notes_silent (data_usizeTryFrom _ _)).bind fun lengthUsize _ _ _ => ?_
      refine .ite (fun _ => notes_err _) fun _ => ?_
      refine (notes_silent fun _ => rfl).bind fun available _ _ _ => ?_
      refine .ite (fun _ => ?_) fun _ => notes_err _
      refine (notes_silent (data_advance _)).bind fun _ _ _ _ => ?_
      refine (notes_silent data_getU8).bind fun first _ _ _ => ?_
      refine .ite (fun _ => ?_) fun _ => notes_err _
      refine (notes_silent data_getU8).bind fun second _ _ _ => ?_
      exact .ite (fun _ => .pure ()) fun _ => notes_err _
    · by_cases hlevel : maxArrayDepth ≤ depth
      · rw [dif_pos hlevel, dif_pos hlevel]
        exact notes_err _
      · rw [dif_neg hlevel, dif_neg hlevel]
        refine (getDecimal_notes hline).bind fun length _ _ _ => ?_
        refine .ite (fun _ => .pure ()) fun _ => .ite (fun _ => ?_) fun _ => notes_err _
        refine forCount_notes ((ih hlevel).note_bind fun _ _ => ?_) _
        exact hdepth depth (Nat.lt_of_not_le hlevel)

/-- A length that was converted comes from an `i64`. -/
theorem usizeTryFrom_add_two {length : Int64} {message : String} {src src' : Cursor} {n : ℕ}
    (h : usizeTryFrom length message src = (.ok n, src')) : n + 2 ≤ usizeMax := by
  have hlt := length.toNatClampNeg_lt
  unfold usizeTryFrom at h
  split at h
  · obtain ⟨rfl, -⟩ := Fallible.pure_eq_ok.mp h
    unfold usizeMax
    omega
  · cases h

/-- Behind a marker the notes are those of the lines, of a payload, or of an array. -/
theorem decodeMarked_notes {q : AuditM Frame} {p : CursorM Frame} {firstByte : UInt8}
    (hline : Notes I P Audit.getLine getLine)
    (hpayload : ∀ n, n + 2 ≤ usizeMax → P (.sum (n + 2) usizeMax))
    (harray : firstByte = star → Notes I P q p) :
    Notes I P (Audit.decodeMarked q firstByte) (decodeMarked p firstByte) := by
  unfold Audit.decodeMarked decodeMarked
  refine .ite (fun _ => ?_) fun _ => .ite (fun _ => ?_) fun _ => .ite (fun _ => ?_) fun _ =>
    .ite harray fun _ => notes_err _
  · refine hline.bind fun content _ _ _ => ?_
    cases fromUtf8 content with
    | none => exact notes_err _
    | some string => exact .ite (fun _ => .pure _) fun _ => .pure _
  · exact (getDecimal_notes hline).bind fun number _ _ _ => .pure _
  · refine (getDecimal_notes hline).bind fun length _ _ _ => .ite (fun _ => .pure _) fun _ => ?_
    refine (notes_silent (data_usizeTryFrom _ _)).bind fun lengthUsize src src' hlength => ?_
    refine (notes_silent (data_chunkPrefix _)).bind fun bytes _ _ _ => ?_
    exact notes_sum_bind (hpayload _ (usizeTryFrom_add_two hlength))
      ((notes_silent (data_advance _)).bind fun _ _ _ _ => .pure _)

theorem arrayData_notes {q : AuditM Frame} {p : CursorM Frame}
    (hline : Notes I P Audit.getLine getLine)
    (hreserve : ∀ position capacity, P (.reserve position capacity)) (h : Notes I P q p) :
    Notes I P (Audit.arrayData q) (arrayData p) := by
  refine (getDecimal_notes hline).bind fun length _ _ _ => .ite (fun _ => .pure _) fun _ => ?_
  refine (notes_silent (data_usizeTryFrom _ _)).bind fun capacity _ _ _ => ?_
  refine Audits.note_bind (fun src _ => hreserve src.position capacity) ?_
  exact (collect_notes h capacity).bind fun elements _ _ _ => .pure _

theorem parseData_notes (hline : Notes I P Audit.getLine getLine)
    (hpayload : ∀ n, n + 2 ≤ usizeMax → P (.sum (n + 2) usizeMax))
    (hreserve : ∀ position capacity, P (.reserve position capacity)) (fuel : ℕ) :
    Notes I P (Audit.parseData fuel) (parseData fuel) := by
  induction fuel with
  | zero => exact .err _
  | succ fuel ih =>
    rw [Audit.parseData, parseData_succ]
    refine (notes_silent data_getU8).bind fun firstByte _ _ _ => ?_
    exact decodeMarked_notes hline hpayload fun _ => arrayData_notes hline hreserve ih

end Parts

/-! ### No sum exceeds its type -/

/-- The value of a sum is a value of its type. -/
def Note.Lawful : Note → Prop
  | .sum value limit => value ≤ limit
  | .reserve _ _ => True

/-- The input is a slice, whose length is a `usize`. -/
def IsSlice (data : Bytes) : Prop := data.length ≤ usizeMax

/-- A line and its terminator lie within the slice. -/
theorem getLine_lawful : Notes IsSlice Note.Lawful Audit.getLine getLine := by
  have hany : Notes IsSlice (fun _ => True) Audit.getLine getLine :=
    getLine_notes fun _ _ => trivial
  refine ⟨hany.erases, hany.keeps, ?_⟩
  intro src hsrc v hv
  have hrun : written Audit.getLine src =
      written (silent (CursorM.lift (scanLine src.unread 0)) >>= fun index =>
        Audit.takeLine src.position index) src := rfl
  rw [hrun] at hv
  cases hscan : scanLine src.unread 0 with
  | error e =>
    rw [hscan, (Erases.silent _).written_bind_error (CursorM.lift_error e src)] at hv
    cases hv
  | ok index =>
    obtain ⟨line, rest, hunread, -, hindex⟩ := scanLine_eq_ok hscan
    have hlength : src.unread.length = src.data.length - src.position := List.length_drop
    rw [hunread, List.length_append, List.length_cons, List.length_cons] at hlength
    unfold IsSlice at hsrc
    have hstop : Note.Lawful (.sum (src.position + index) usizeMax) := by
      show src.position + index ≤ usizeMax
      omega
    have hused : Note.Lawful (.sum (index + 2) usizeMax) := by
      show index + 2 ≤ usizeMax
      omega
    have htake := takeLine_notes (I := IsSlice) src.position index hstop hused
    rw [hscan, (Erases.silent _).written_bind_ok (CursorM.lift_ok index src) htake.erases] at hv
    exact htake.lawful src hsrc v hv

/-- The audited parser is the parser, and on a slice none of its sums overflows. -/
theorem parse_lawful : Notes IsSlice Note.Lawful Audit.parse parse := by
  refine (notes_silent fun _ => rfl).bind fun startPosition _ _ _ => ?_
  refine (checkWithDepth_notes getLine_lawful ?_ 0).bind fun _ _ _ _ => ?_
  · intro depth hdepth
    show depth + 1 ≤ i32Max
    unfold i32Max
    unfold maxArrayDepth at hdepth
    omega
  refine (notes_silent fun _ => rfl).bind fun _ _ _ _ => ?_
  refine (notes_silent fun _ => rfl).bind fun unread _ _ _ => ?_
  exact parseData_notes getLine_lawful (fun _ hn => hn) (fun _ _ => trivial) _

end MiniRedis
