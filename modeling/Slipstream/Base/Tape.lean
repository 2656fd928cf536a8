import Slipstream.Base.Ranged
import Mathlib.Logic.Function.Basic

/-!
# A list behind a tail pointer

A growing list kept as the number of its entries and a partial map from
indices to entries. `Holds` says that the two are in step: an entry is there
just when its index is below the tail.
-/

namespace Tape

variable {α : Type*}

structure Holds (tail : U64) (entry : U64 → Option α) (l : List α) : Prop where
  tail : tail.val = l.length
  entry : ∀ i, entry i = l[i.val.toNat]?

variable {tail next : U64} {entry : U64 → Option α} {l : List α}

theorem holds_nil (h : ∀ i, entry i = none) : Holds 0 entry [] where
  tail := rfl
  entry i := by simpa using h i

/-- Write the entry at the tail, then move the tail. -/
theorem Holds.append (h : Holds tail entry l) (hn : next.val = tail.val + 1) (a : α) :
    Holds next (Function.update entry tail (some a)) (l ++ [a]) where
  tail := by
    have ht := h.tail
    simp only [List.length_append, List.length_singleton]
    omega
  entry i := by
    have ht := h.tail
    have h0 := i.lo_le
    by_cases hi : i = tail
    · subst hi
      have hl : i.val.toNat = l.length := by omega
      simp [hl]
    · have hne : i.val ≠ tail.val := fun he => hi (Ranged.val_inj.mp he)
      rw [Function.update_of_ne hi, h.entry i, List.getElem?_append]
      split
      · rfl
      · next hlt =>
        rw [List.getElem?_eq_none (by omega), List.getElem?_eq_none (by simp; omega)]

end Tape
