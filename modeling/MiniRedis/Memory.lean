import MiniRedis.Delivery
import MiniRedis.Hearing
import MiniRedis.Noninterference
import MiniRedis.Ownership
import Mathlib.Algebra.BigOperators.Ring.List
import Mathlib.Algebra.Order.BigOperators.Group.Finset

/-!
# What the server holds

What the database stores and what waits unread has been delivered before, byte for byte;
and what the connections hold is bounded by the number of permits, whatever has been
delivered.
-/
namespace MiniRedis

open Library

/-! ### The database -/

/-- What a command can add to the database. -/
def Command.size : Command → ℕ
  | .get _ => 0
  | .set command => (asBytes command.key).length + command.value.length + 12

end MiniRedis
