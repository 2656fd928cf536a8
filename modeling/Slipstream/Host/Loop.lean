import Slipstream.Base.Ranged
import Slipstream.Host.Prog
import Mathlib.Algebra.BigOperators.Group.List.Basic
import Mathlib.Algebra.Order.BigOperators.Group.List

/-!
# Sums over a range of keys

A loop that reads one key after another and adds the values up, checked at
each addition. The values are not negative, so a prefix of the sum never
exceeds the whole: the loop returns the exact sum, and traps just when that
does not fit.
-/

namespace Host

theorem mem_upTo {n i : UInt32} : i ∈ upTo n ↔ i < n := by
  simp only [upTo, List.mem_map, List.mem_range, UInt32.lt_iff_toNat_lt]
  constructor
  · rintro ⟨k, hk, rfl⟩
    have hn := n.toNat_lt_size
    rwa [UInt32.toNat_ofNat_of_lt' (by omega)]
  · intro hi
    exact ⟨i.toNat, hi, UInt32.ofNat_toNat⟩

theorem nodup_upTo (n : UInt32) : (upTo n).Nodup := by
  refine List.nodup_range.map_on ?_
  intro a ha b hb h
  have hn := n.toNat_lt_size
  simp only [List.mem_range] at ha hb
  rw [← UInt32.toNat_inj, UInt32.toNat_ofNat_of_lt' (by omega),
    UInt32.toNat_ofNat_of_lt' (by omega)] at h
  exact h

variable {K : Type} {V : K → Type} {E ι : Type} [DecidableEq K] {s s' : Store V}

/-- One pass of the loop: read, then add. -/
def addTo (read : ι → Prog V E U64) (sum : U64) (i : ι) : Prog V E U64 := do
  let value ← read i
  checked (sum.add? value)

theorem values_nonneg (value : ι → U64) (l : List ι) :
    0 ≤ (l.map fun i => (value i).val).sum := by
  refine List.sum_nonneg fun x hx => ?_
  obtain ⟨j, -, rfl⟩ := List.mem_map.mp hx
  exact (value j).lo_le

theorem sum_ok {read : ι → Prog V E U64} {value : ι → U64}
    (hread : ∀ i, (read i).run s = .ok (value i, s)) {l : List ι} {acc r : U64} :
    (l.foldlM (addTo read) acc).run s = .ok (r, s') ↔
      r.val = acc.val + (l.map fun i => (value i).val).sum ∧ s' = s := by
  induction l generalizing acc with
  | nil => simp [← Ranged.val_inj, eq_comm]
  | cons i l ih =>
    have hrest := values_nonneg value l
    have hacc := acc.lo_le
    have hi := (value i).lo_le
    have hr := r.le_hi
    simp only [List.foldlM_cons, addTo, bind_ok, hread, checked_ok, Ranged.add?_eq_some,
      List.map_cons, List.sum_cons]
    constructor
    · rintro ⟨next, _, ⟨_, _, hv, hnext, rfl⟩, hl⟩
      cases hv
      obtain ⟨hr, rfl⟩ := ih.mp hl
      exact ⟨by omega, rfl⟩
    · rintro ⟨hr, rfl⟩
      obtain ⟨next, hnext⟩ := Ranged.exists_val.mpr
        (⟨by omega, by omega⟩ : 0 ≤ acc.val + (value i).val ∧ acc.val + (value i).val ≤ 2 ^ 64 - 1)
      exact ⟨next, s', ⟨_, s', rfl, hnext, rfl⟩, ih.mpr ⟨by omega, rfl⟩⟩

/-- A loop that faults has overflown at the first prefix that does not fit. -/
theorem sum_fault {read : ι → Prog V E U64} {value : ι → U64}
    (hread : ∀ i, (read i).run s = .ok (value i, s)) {l : List ι} {acc : U64} {f : Fault E}
    (hf : (l.foldlM (addTo read) acc).run s = .error f) :
    f = .overflow ∧ 2 ^ 64 - 1 < acc.val + (l.map fun i => (value i).val).sum := by
  induction l generalizing acc with
  | nil => cases hf
  | cons i l ih =>
    have hrest := values_nonneg value l
    simp only [List.foldlM_cons, addTo, run_bind, hread] at hf
    cases hnext : acc.add? (value i) with
    | none =>
      rw [hnext] at hf
      cases hf
      have hacc := acc.lo_le
      have hi := (value i).lo_le
      have hover := Ranged.add?_eq_none.mp hnext
      refine ⟨rfl, ?_⟩
      simp only [List.map_cons, List.sum_cons]
      omega
    | some next =>
      rw [hnext] at hf
      obtain ⟨rfl, hsum⟩ := ih hf
      have hval := Ranged.add?_eq_some.mp hnext
      refine ⟨rfl, ?_⟩
      simp only [List.map_cons, List.sum_cons]
      omega

end Host
