import Mathlib.Algebra.Ring.Nat
import Mathlib.Data.List.Basic
import Mathlib.Tactic.Common

/-!
# Scanning a stream

A scanner takes items off the front of a stream, one after the other. What has
been scanned does not change when the stream goes on, so a stream that arrives in
parts yields the items of the whole in their order.
-/
namespace Library

variable {β α : Type*}

/-- An item uses at least one symbol, and does not depend on what comes behind it. -/
structure Scanner (β α : Type*) where
  next : List β → Option (α × List β)
  consumes : ∀ {stream item left}, next stream = some (item, left) → left.length < stream.length
  next_append : ∀ {stream item left}, next stream = some (item, left) →
    ∀ more, next (stream ++ more) = some (item, left ++ more)

namespace Scanner

variable (S : Scanner β α)

/-- All items at the front of the stream, and what is left behind them. -/
def scan (stream : List β) : List α × List β :=
  match _h : S.next stream with
  | some (item, left) => (item :: (scan left).1, (scan left).2)
  | none => ([], stream)
termination_by stream.length
decreasing_by all_goals exact S.consumes (by assumption)

theorem scan_of_none {stream : List β} (h : S.next stream = none) :
    S.scan stream = ([], stream) := by
  rw [scan]
  split
  · rename_i hsome
    rw [h] at hsome
    cases hsome
  · rfl

theorem scan_of_some {stream left : List β} {item : α} (h : S.next stream = some (item, left)) :
    S.scan stream = (item :: (S.scan left).1, (S.scan left).2) := by
  rw [scan]
  split
  · rename_i hsome
    rw [h] at hsome
    cases hsome
    rfl
  · rename_i hnone
    rw [h] at hnone
    cases hnone

/-- These items can be taken off the stream one after the other. -/
inductive Scans : List β → List α → List β → Prop
  | nil (stream : List β) : Scans stream [] stream
  | cons {stream rest left : List β} {item : α} {items : List α}
    (h : S.next stream = some (item, rest)) (hrest : Scans rest items left) :
    Scans stream (item :: items) left

variable {S} {stream left : List β} {items : List α}

namespace Scans

/-- The stream may go on. -/
theorem append (h : S.Scans stream items left) (more : List β) :
    S.Scans (stream ++ more) items (left ++ more) := by
  induction h with
  | nil stream => exact .nil _
  | cons hnext _ ih => exact .cons (S.next_append hnext more) ih

theorem concat (h : S.Scans stream items left) {item : α} {rest : List β}
    (hnext : S.next left = some (item, rest)) : S.Scans stream (items ++ [item]) rest := by
  induction h with
  | nil stream => exact .cons hnext (.nil _)
  | cons hfirst _ ih => exact .cons hfirst (ih hnext)

/-- What has been taken is the front of what there is to take. -/
theorem scan_eq (h : S.Scans stream items left) :
    S.scan stream = (items ++ (S.scan left).1, (S.scan left).2) := by
  induction h with
  | nil stream => rfl
  | cons hnext _ ih => rw [S.scan_of_some hnext, ih, List.cons_append]

/-- Everything is taken when there is no next item. -/
theorem scan_eq_of_none (h : S.Scans stream items left) (hnone : S.next left = none) :
    S.scan stream = (items, left) := by
  rw [h.scan_eq, S.scan_of_none hnone, List.append_nil]

end Scans

end Scanner
end Library
