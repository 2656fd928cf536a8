import Mathlib.Algebra.BigOperators.Finprod
import Mathlib.Algebra.BigOperators.Group.Finset.Piecewise
import Mathlib.Algebra.Order.BigOperators.Group.Finset
import Mathlib.Algebra.Order.Group.Int
import Mathlib.Tactic.Abel
import Slipstream.Base.Ranged

/-!
# Totals over all keys

The sum of a function with finite support over its whole domain, and how one
changed value changes it; then the same for functions into machine integers,
whose exact sum is over the integers.
-/

namespace Total

section
variable {α M : Type*} [DecidableEq α] [AddCommGroup M] {f : α → M}

theorem finite_support_update (hf : f.support.Finite) (a : α) (x : M) :
    (Function.update f a x).support.Finite := by
  refine (hf.insert a).subset fun i hi => ?_
  by_cases h : i = a
  · exact .inl h
  · exact .inr (by simpa [Function.update_of_ne h] using hi)

theorem finsum_update (hf : f.support.Finite) (a : α) (x : M) :
    ∑ᶠ i, Function.update f a x i = ∑ᶠ i, f i + (x - f a) := by
  have hs : f.support ⊆ (insert a hf.toFinset : Finset α) := by
    intro i hi
    simp [hi]
  have hu : (Function.update f a x).support ⊆ (insert a hf.toFinset : Finset α) := by
    intro i hi
    by_cases h : i = a
    · simp [h]
    · exact hs (by simpa [Function.update_of_ne h] using hi)
  have ha : a ∈ insert a hf.toFinset := Finset.mem_insert_self ..
  rw [finsum_eq_sum_of_support_subset _ hs, finsum_eq_sum_of_support_subset _ hu,
    Finset.sum_update_of_mem ha, Finset.sum_eq_add_sum_sdiff_singleton_of_mem ha f]
  abel

end

section
variable {α : Type*} {lo hi : Int} {f : α → Ranged lo hi}

noncomputable def sum (f : α → Ranged lo hi) : Int := ∑ᶠ a, (f a).val

/-- Only finitely many values are not zero, so that `sum` is their sum. -/
def Finite (f : α → Ranged lo hi) : Prop := (Function.support fun a => (f a).val).Finite

theorem finite_of_eq_zero (h : ∀ a, (f a).val = 0) : Finite f := by
  simp [Finite, Function.support, h]

theorem sum_of_eq_zero (h : ∀ a, (f a).val = 0) : sum f = 0 := by
  simp [sum, h]

theorem le_sum (hf : Finite f) (h : ∀ a, 0 ≤ (f a).val) (a : α) : (f a).val ≤ sum f :=
  single_le_finsum a hf h

theorem sum_finset_le (hf : Finite f) (h : ∀ a, 0 ≤ (f a).val) (A : Finset α) :
    ∑ a ∈ A, (f a).val ≤ sum f := by
  classical
  have hs : (Function.support fun a => (f a).val) ⊆ (A ∪ hf.toFinset : Finset α) := by
    intro a ha
    exact Finset.mem_union_right A (hf.mem_toFinset.mpr ha)
  rw [sum, finsum_eq_sum_of_support_subset _ hs]
  exact Finset.sum_le_sum_of_subset_of_nonneg Finset.subset_union_left fun a _ _ => h a

variable [DecidableEq α]

theorem val_update (f : α → Ranged lo hi) (a : α) (v : Ranged lo hi) :
    (fun x => (Function.update f a v x).val) = Function.update (fun x => (f x).val) a v.val :=
  Function.comp_update Ranged.val f a v

theorem finite_update (hf : Finite f) (a : α) (v : Ranged lo hi) :
    Finite (Function.update f a v) := by
  rw [Finite, val_update]
  exact finite_support_update hf a v.val

theorem sum_update (hf : Finite f) (a : α) (v : Ranged lo hi) :
    sum (Function.update f a v) = sum f + (v.val - (f a).val) := by
  rw [sum, val_update]
  exact finsum_update hf a v.val

end

end Total
