import Mathlib.Algebra.Ring.Nat
import Mathlib.Tactic.Common

/-!
# Limits and byte constants

The limits of `config.rs` that the modelled code reads, and the ASCII bytes of
the wire format.
-/
namespace MiniRedis

def defaultMaxConnections : ℕ := 512

/-- Maximum unread bytes buffered by a connection. -/
def maxBufferedBytes : ℕ := 65536

/-- Exclusive upper bound on the element count of each RESP array. -/
def arrayLengthLimitExclusive : Int64 := 1024

/-- Maximum array layers along one nesting path, including the outermost array. -/
def maxArrayDepth : ℕ := 32

/-- `usize::MAX` of the 64-bit targets. -/
def usizeMax : ℕ := 2 ^ 64 - 1

/-- `isize::MAX`: no Rust allocation holds more bytes. -/
def isizeMax : ℕ := 2 ^ 63 - 1

/-- `Semaphore::MAX_PERMITS`. -/
def semaphoreMaxPermits : ℕ := usizeMax / 8

/-- `[u8]`, `Vec<u8>` and `Bytes`. -/
abbrev Bytes := List UInt8

abbrev cr : UInt8 := 13
abbrev lf : UInt8 := 10
abbrev plus : UInt8 := 43
abbrev minus : UInt8 := 45
abbrev colon : UInt8 := 58
abbrev dollar : UInt8 := 36
abbrev star : UInt8 := 42

@[simp] theorem cr_ne_lf : ¬ cr = lf := by decide

/-- The pattern `b'0'..=b'9'`. -/
def isDigit (byte : UInt8) : Bool := 48 ≤ byte && byte ≤ 57

/-- `str::as_bytes`. -/
def asBytes (string : String) : Bytes := string.toByteArray.data.toList

/-- `String::from_utf8`, without the error value, which the code discards. -/
def fromUtf8 (bytes : Bytes) : Option String := String.fromUTF8? ⟨⟨bytes⟩⟩

theorem fromUtf8_eq_some {bytes : Bytes} {string : String} :
    fromUtf8 bytes = some string ↔ asBytes string = bytes := by
  unfold fromUtf8 String.fromUTF8? asBytes
  constructor
  · intro h
    split at h
    · cases h
      rfl
    · cases h
  · rintro rfl
    have hvalid : (ByteArray.mk ⟨string.toByteArray.data.toList⟩).IsValidUTF8 := string.isValidUTF8
    rw [dif_pos hvalid]
    rfl

@[simp] theorem fromUtf8_asBytes (string : String) : fromUtf8 (asBytes string) = some string :=
  fromUtf8_eq_some.mpr rfl

end MiniRedis
