import MiniRedis.Config
import MiniRedis.Library.Fallible

/-!
# RESP frames and the two-pass parser

`Frame::parse` first checks the structure of a frame with `check_with_depth`
and then, from the same start, decodes it with `parse_data`. A parser step maps
the cursor to a result and the cursor it leaves behind, which the code keeps on
an error as well. The panics of `bytes::Buf` and of slice indexing are results
of their own. Positions and lengths are natural numbers; the 64-bit conversions
of the code that can fail are kept.
-/
namespace MiniRedis

inductive FrameError where
  | incomplete
  | other (message : String)
  deriving DecidableEq, Repr

/-- The `Display` text of `frame::Error`. -/
def FrameError.display : FrameError → String
  | .incomplete => "Incomplete frame"
  | .other message => message

inductive Frame where
  | simple (string : String)
  | error (string : String)
  | integer (num : Int64)
  | bulk (bytes : Bytes)
  | array (elements : List Frame)
  | null
  deriving Repr

/-- `Cursor<&[u8]>`. -/
structure Cursor where
  data : Bytes
  position : ℕ
  deriving DecidableEq, Repr

/-- `Buf::chunk`: the unread bytes, empty when the position is past the end. -/
def Cursor.unread (src : Cursor) : Bytes := src.data.drop src.position

def Cursor.skip (src : Cursor) (n : ℕ) : Cursor := { src with position := src.position + n }

/-- Why a parser step stops early. -/
inductive Stop where
  | error (e : FrameError)
  | panic
  deriving DecidableEq, Repr

abbrev CursorM : Type → Type := Library.Fallible Cursor Stop

namespace CursorM

def err {α : Type} (e : FrameError) : CursorM α := Library.Fallible.err (.error e)

def lift {α : Type} (result : Except FrameError α) : CursorM α := fun src =>
  (result.mapError .error, src)

def hasRemaining : CursorM Bool := fun src => (.ok !src.unread.isEmpty, src)

def remaining : CursorM ℕ := fun src => (.ok src.unread.length, src)

def chunk : CursorM Bytes := fun src => (.ok src.unread, src)

def position : CursorM ℕ := fun src => (.ok src.position, src)

def setPosition (position : ℕ) : CursorM Unit := fun src => (.ok (), { src with position })

/-- `Buf::get_u8` panics when nothing remains. -/
def getU8 : CursorM UInt8 := fun src =>
  match src.unread with
  | [] => (.error .panic, src)
  | byte :: _ => (.ok byte, src.skip 1)

/-- `Buf::advance` panics past the end. -/
def advance (n : ℕ) : CursorM Unit := fun src =>
  if n ≤ src.unread.length then (.ok (), src.skip n) else (.error .panic, src)

/-- `&src.get_ref()[start..stop]` panics when the range is out of bounds. -/
def slice (start stop : ℕ) : CursorM Bytes := fun src =>
  if start ≤ stop ∧ stop ≤ src.data.length then
    (.ok ((src.data.drop start).take (stop - start)), src)
  else (.error .panic, src)

/-- `&src.chunk()[..n]` panics when fewer bytes remain. -/
def chunkPrefix (n : ℕ) : CursorM Bytes := fun src =>
  if n ≤ src.unread.length then (.ok (src.unread.take n), src) else (.error .panic, src)

/-- `for _ in 0..count { body? }`. -/
def forCount (body : CursorM Unit) : ℕ → CursorM Unit
  | 0 => pure ()
  | count + 1 => do
    body
    forCount body count

/-- `for _ in 0..count { elements.push(body?) }`. -/
def collect (body : CursorM Frame) : ℕ → CursorM (List Frame)
  | 0 => pure []
  | count + 1 => do
    let element ← body
    let elements ← collect body count
    pure (element :: elements)

end CursorM

open CursorM

/-- The scan of `get_line` over the unread bytes: the index of the `\r` of the
terminator. -/
def scanLine : Bytes → ℕ → Except FrameError ℕ
  | [], _ => .error .incomplete
  | byte :: rest, index =>
    if byte = lf then .error (.other "Bare line feed in line")
    else if byte ≠ cr then scanLine rest (index + 1)
    else
      match rest with
      | [] => .error .incomplete
      | next :: _ =>
        if next ≠ lf then .error (.other "Carriage return is not followed by line feed")
        else .ok index

/-- `Frame::get_line`. -/
def getLine : CursorM Bytes := do
  let line ← chunk
  let startPosition ← position
  let index ← lift (scanLine line 0)
  let result ← slice startPosition (startPosition + index)
  advance (index + 2)
  pure result

/-- `i64::checked_mul`. -/
def checkedMul (a b : Int64) : Option Int64 :=
  let product := a.toInt * b.toInt
  if Int64.minValue.toInt ≤ product ∧ product ≤ Int64.maxValue.toInt then
    some (Int64.ofInt product)
  else none

/-- `i64::checked_add`. -/
def checkedAdd (a b : Int64) : Option Int64 :=
  let sum := a.toInt + b.toInt
  if Int64.minValue.toInt ≤ sum ∧ sum ≤ Int64.maxValue.toInt then some (Int64.ofInt sum)
  else none

/-- `i64::from(byte - b'0')`. -/
def digitValue (byte : UInt8) : Int64 := Int64.ofNat (byte - 48).toNat

/-- Step 4 of `get_decimal`: the loop over the digits that follow the first byte. -/
def accumulate (sign : Int64) : Int64 → Bytes → Except FrameError Int64
  | result, [] => .ok result
  | result, byte :: line =>
    match checkedMul result 10 with
    | none => .error (.other "Integer overflow")
    | some result =>
      if isDigit byte then
        match checkedAdd result (sign * digitValue byte) with
        | none => .error (.other "Integer overflow")
        | some result => accumulate sign result line
      else .error (.other "Invalid decimal integer")

/-- Steps 2 to 4 of `get_decimal`, on the line that was read. -/
def decimalOfLine : Bytes → Except FrameError Int64
  | [] => .error (.other "Empty decimal field")
  | firstByte :: line =>
    if firstByte = minus then
      -- A minus sign must be followed by at least one digit.
      if line.isEmpty then .error (.other "Invalid decimal integer")
      else accumulate (-1) 0 line
    else if isDigit firstByte then accumulate 1 (digitValue firstByte) line
    else .error (.other "Invalid decimal integer")

/-- `Frame::get_decimal`. -/
def getDecimal : CursorM Int64 := do
  let line ← getLine
  lift (decimalOfLine line)

/-- `usize::try_from` on an `i64`, with the error the caller maps a failure to. -/
def usizeTryFrom (length : Int64) (message : String) : CursorM ℕ :=
  if 0 ≤ length then pure length.toNatClampNeg else err (.other message)

/-- `Frame::check_with_depth`. -/
def checkWithDepth (depth : ℕ) : CursorM Unit := do
  let available ← hasRemaining
  if !available then err .incomplete
  else
    let firstByte ← getU8
    if firstByte = plus ∨ firstByte = minus ∨ firstByte = colon then
      let _bytes ← getLine
      pure ()
    else if firstByte = dollar then
      let length ← getDecimal
      if length = -1 then pure ()
      else if 0 ≤ length then
        let lengthUsize ← usizeTryFrom length "Bulk string length overflow"
        -- `checked_add(2)` on a `usize`
        if usizeMax < lengthUsize + 2 then err (.other "Bulk string length overflow")
        else
          let available ← remaining
          if lengthUsize + 2 ≤ available then
            advance lengthUsize
            let first ← getU8
            if first = cr then
              let second ← getU8
              if second = lf then pure ()
              else err (.other "Invalid bulk string terminator")
            else err (.other "Invalid bulk string terminator")
          else err .incomplete
      else err (.other "Invalid bulk string length")
    else if firstByte = star then
      if _h : maxArrayDepth ≤ depth then
        err (.other "Array nesting depth exceeds the supported limit")
      else
        let arrayLength ← getDecimal
        if -1 ≤ arrayLength ∧ arrayLength ≤ 0 then pure ()
        else if 1 ≤ arrayLength ∧ arrayLength < arrayLengthLimitExclusive then
          forCount (checkWithDepth (depth + 1)) arrayLength.toNatClampNeg
        else err (.other "Array length is outside the supported range")
    else err (.other "Invalid frame type marker")
termination_by maxArrayDepth - depth

/-- `Frame::check`. -/
def check : CursorM Unit := checkWithDepth 0

/-- `Frame::parse_data`. The recursion of the code is bounded by `fuel`; running
out of it counts as a panic, so that panic-freedom includes termination. -/
def parseData : ℕ → CursorM Frame
  | 0 => fun src => (.error .panic, src)
  | fuel + 1 => do
    let firstByte ← getU8
    if firstByte = plus ∨ firstByte = minus then
      let content ← getLine
      match fromUtf8 content with
      | none => err (.other "Invalid UTF-8")
      | some string =>
        if firstByte = plus then pure (Frame.simple string) else pure (Frame.error string)
    else if firstByte = colon then
      let number ← getDecimal
      pure (Frame.integer number)
    else if firstByte = dollar then
      let length ← getDecimal
      if length = -1 then pure Frame.null
      else
        let lengthUsize ← usizeTryFrom length "Bulk string length overflow"
        let bytes ← chunkPrefix lengthUsize
        advance (lengthUsize + 2)
        pure (Frame.bulk bytes)
    else if firstByte = star then
      let arrayLength ← getDecimal
      if arrayLength = -1 then pure Frame.null
      else
        let capacity ← usizeTryFrom arrayLength "Array length overflow"
        let elements ← collect (parseData fuel) capacity
        pure (Frame.array elements)
    else err (.other "Invalid frame type marker")

/-- `Frame::parse`. Every nested call of `parse_data` has read a marker, so one
more than the unread bytes is fuel enough. -/
def parse : CursorM Frame := do
  let startPosition ← position
  check
  setPosition startPosition
  let unread ← remaining
  parseData (unread + 1)

end MiniRedis
