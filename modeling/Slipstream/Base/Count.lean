import Slipstream.Base.Component
import Slipstream.Base.Ranged
import Mathlib.Algebra.Ring.Nat

/-!
# A count that stops at its last number

Each call hands out the next number of a `u64`, and none once the last one is
out. So the calls of a run get the numbers in order without a gap, and the
count is how many calls there were or the last number.
-/

namespace Count

open Run (final outputs)

variable {C : Type*}

abbrev last : Nat := 2 ^ 64 - 1

def tick (v : U64) (_ : C) : Option U64 × U64 :=
  match v.add? 1 with
  | some w => (some w, w)
  | none => (none, v)

/-- The numbers that `n` calls get after the number `k`. -/
def numbers (k n : Nat) : List Int := (List.range' (k + 1) (min n (last - k))).map Int.ofNat

theorem val_le_last (v : U64) : v.val ≤ last := v.le_hi

theorem tick_cases (v : U64) (c : C) :
    (v.val + 1 ≤ last ∧ ∃ w : U64, w.val = v.val + 1 ∧ tick v c = (some w, w)) ∨
      (v.val = last ∧ tick v c = (none, v)) := by
  have hhi := val_le_last v
  have hlast : (last : Int) = 2 ^ 64 - 1 := rfl
  obtain ⟨hr, w, hw⟩ | ⟨hr, hw⟩ := Ranged.U64.add?_one v
  · exact .inl ⟨hr, w, Ranged.add?_eq_some.mp hw, by simp [tick, hw]⟩
  · exact .inr ⟨by omega, by simp [tick, hw]⟩

theorem numbers_succ {k : Nat} (hk : k < last) (n : Nat) :
    numbers k (n + 1) = (k + 1 : Int) :: numbers (k + 1) n := by
  have hlen : min (n + 1) (last - k) = min n (last - (k + 1)) + 1 := by omega
  rw [numbers, hlen, List.range'_succ, List.map_cons, numbers]
  rfl

theorem numbers_last (n : Nat) : numbers last n = [] := by simp [numbers]

theorem pairwise_numbers (k n : Nat) : (numbers k n).Pairwise (· < ·) :=
  List.pairwise_map.mpr ((List.pairwise_lt_range' _).imp Int.ofNat_lt.mpr)

theorem run_tick {v : U64} {k : Nat} (hk : v.val = k) (cs : List C) :
    ((outputs tick v cs).filterMap id).map Ranged.val = numbers k cs.length ∧
      (final tick v cs).val = min (k + cs.length) last := by
  have hlast : k ≤ last := by
    have hhi := val_le_last v
    omega
  induction cs generalizing v k with
  | nil =>
    refine ⟨by simp [numbers], ?_⟩
    rw [Run.final_nil, hk, List.length_nil]
    omega
  | cons c cs ih =>
    rw [Run.outputs_cons, Run.final_cons, List.length_cons]
    obtain ⟨hr, w, hw, ht⟩ | ⟨hr, ht⟩ := tick_cases v c
    · have hwk : w.val = ((k + 1 : Nat) : Int) := by rw [hw, hk]; rfl
      obtain ⟨ho, hf⟩ := ih hwk (by omega)
      rw [ht, hf, numbers_succ (by omega), ← ho]
      refine ⟨?_, by omega⟩
      simp [hw, hk]
    · have hkl : k = last := by omega
      subst hkl
      obtain ⟨ho, hf⟩ := ih hk hlast
      rw [ht, hf, numbers_last]
      rw [numbers_last] at ho
      refine ⟨?_, by omega⟩
      simpa using ho

section
variable {S O : Type*} {step : S → C → O × S} {count : S → U64} {call : C → Option Unit}
  {out : C × O → Option U64}

/-- A machine that counts some of its calls, from any count on. -/
theorem run_component (h : Run.Component step tick count (fun _ => call) out) (s : S)
    (cs : List C) :
    (Run.handed step out s cs).map Ranged.val =
        numbers (count s).val.toNat (cs.filterMap call).length ∧
      (count (final step s cs)).val =
        min ((count s).val + (cs.filterMap call).length) last := by
  have hv : (count s).val = (count s).val.toNat := (Int.toNat_of_nonneg (count s).lo_le).symm
  obtain ⟨ho, hf⟩ := h.run s cs
  rw [Run.reaching_filterMap] at ho hf
  obtain ⟨hn, hc⟩ := run_tick hv (cs.filterMap call)
  rw [ho, hf, hn, hc]
  exact ⟨rfl, by omega⟩

end

end Count
