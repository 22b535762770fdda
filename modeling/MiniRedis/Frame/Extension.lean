import MiniRedis.Frame.Refinement

/-!
# Only an incomplete verdict can change when more bytes arrive

Stability of the decoders, carried to the cursor programs: positions are
absolute, so extending the buffer leaves the unread bytes a prefix of the new
ones wherever the cursor stands inside the buffer.
-/
namespace MiniRedis

open Library

@[simp] theorem skeleton_nil (levels : ℕ) : skeleton levels [] = .incomplete := by
  rw [skeleton_eq]
  rfl

@[simp] theorem frameDecoder_nil : frameDecoder [] = .incomplete := by
  simp [frameDecoder, Decoder.interpret]

namespace Refines

variable {α γ : Type} {p : CursorM α} {d : WireDecoder γ} {R : γ → α → Prop}

/-- A decoder that needs input decides nothing at or past the end of the buffer. -/
theorem position_lt (hnil : d [] = .incomplete) {b : Bytes} {start : ℕ}
    (h : d (b.drop start) ≠ .incomplete) : start < b.length := by
  by_contra hle
  exact h (by rw [List.drop_eq_nil_of_le (by omega), hnil])

theorem ok_extend (h : Refines p d R) (hd : d.Stable) (hnil : d [] = .incomplete)
    (hR : ∀ c a a', R c a → R c a' → a = a') (b e : Bytes) (start stop : ℕ) (a : α)
    (hp : p ⟨b, start⟩ = (.ok a, ⟨b, stop⟩)) :
    p ⟨b ++ e, start⟩ = (.ok a, ⟨b ++ e, stop⟩) := by
  obtain ⟨c, n, hc, hca, hstop⟩ := h.eq_ok hp
  have hlt : start < b.length := position_lt hnil (by rw [Cursor.unread] at hc; simp [hc])
  have hunread : (Cursor.mk (b ++ e) start).unread = b.drop start ++ e := by
    simp only [Cursor.unread]
    exact List.drop_append_of_le_length (Nat.le_of_lt hlt)
  obtain ⟨a', hrun, hca'⟩ := h.of_complete (hunread ▸ hd.complete_append hc e)
  obtain rfl := hR c a a' hca hca'
  simp only [Cursor.skip, Cursor.mk.injEq, true_and] at hstop
  rw [hrun, hstop]
  rfl

theorem other_extend (h : Refines p d R) (hd : d.Stable) (hnil : d [] = .incomplete)
    (b e : Bytes) (start : ℕ) (message : String)
    (hp : (p ⟨b, start⟩).1 = .error (.error (.other message))) :
    (p ⟨b ++ e, start⟩).1 = .error (.error (.other message)) := by
  rw [h.other_iff] at hp ⊢
  have hlt : start < b.length := position_lt hnil (by rw [Cursor.unread] at hp; simp [hp])
  have hunread : (Cursor.mk (b ++ e) start).unread = b.drop start ++ e := by
    simp only [Cursor.unread]
    exact List.drop_append_of_le_length (Nat.le_of_lt hlt)
  rw [hunread]
  exact hd.invalid_append hp e

end Refines

/-- Success and rejection of `check` and `parse` survive every extension of the
buffer, with the same frame, end position and message; so a code word has only
incomplete strict prefixes. -/
theorem parse_extension (b e : Bytes) (start : ℕ) :
    (∀ stop, check ⟨b, start⟩ = (.ok (), ⟨b, stop⟩) →
      check ⟨b ++ e, start⟩ = (.ok (), ⟨b ++ e, stop⟩)) ∧
    (∀ message, (check ⟨b, start⟩).1 = .error (.error (.other message)) →
      (check ⟨b ++ e, start⟩).1 = .error (.error (.other message))) ∧
    (∀ frame stop, parse ⟨b, start⟩ = (.ok frame, ⟨b, stop⟩) →
      parse ⟨b ++ e, start⟩ = (.ok frame, ⟨b ++ e, stop⟩)) ∧
    (∀ message, (parse ⟨b, start⟩).1 = .error (.error (.other message)) →
      (parse ⟨b ++ e, start⟩).1 = .error (.error (.other message))) ∧
    (∀ frame, parse ⟨b, 0⟩ = (.ok frame, ⟨b, b.length⟩) →
      ∀ p, p <+: b → p.length < b.length → (parse ⟨p, 0⟩).1 = .error (.error .incomplete)) := by
  have hskeleton := skeleton_stable maxArrayDepth
  refine ⟨fun stop => ?_, fun message => ?_, fun frame stop => ?_, fun message => ?_, ?_⟩
  · exact check_refines.ok_extend hskeleton (by simp) (by simp) b e start stop ()
  · exact check_refines.other_extend hskeleton (by simp) b e start message
  · exact parse_refines.ok_extend frameDecoder_stable (by simp) (by simp) b e start stop frame
  · exact parse_refines.other_extend frameDecoder_stable (by simp) b e start message
  · intro frame hframe p hp hlt
    obtain ⟨n, hd, hn⟩ := parse_eq_ok_iff.mp hframe
    have hlen : n = b.length := by simpa [Cursor.skip] using hn.symm
    subst hlen
    exact parse_refines.of_incomplete (frameDecoder_stable.strict_prefix hd hp hlt)

/-- `:0\r\n` parses as a whole, and still does with another marker behind it. -/
theorem parse_extension_integer :
    parse ⟨[58, 48, 13, 10] ++ [43], 0⟩ = (.ok (.integer 0), ⟨[58, 48, 13, 10] ++ [43], 4⟩) ∧
    (parse ⟨[58, 48, 13], 0⟩).1 = .error (.error .incomplete) := by
  have hparse : parse ⟨[58, 48, 13, 10], 0⟩ = (.ok (.integer 0), ⟨[58, 48, 13, 10], 4⟩) :=
    parse_eq_ok_iff.mpr ⟨4, rfl, rfl⟩
  obtain ⟨_, _, hok, _, hprefix⟩ := parse_extension [58, 48, 13, 10] [43] 0
  exact ⟨hok _ 4 hparse, hprefix _ hparse [58, 48, 13] (by decide) (by decide)⟩

end MiniRedis
