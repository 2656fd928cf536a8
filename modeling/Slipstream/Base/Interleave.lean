import Mathlib.Algebra.BigOperators.Group.List.Basic
import Mathlib.Algebra.BigOperators.Ring.Finset
import Mathlib.Data.List.Nodup
import Mathlib.Data.Set.Function
import Mathlib.Data.Set.Monotone
import Mathlib.Order.Interval.Set.Defs

/-!
# A list as an interleaving of its lanes

Each item carries the lane it belongs to. `lane k l` is the list of items of
one lane, and `place k l i` is where the `i`-th of them stands in the whole
list. Places are a bijection from the positions of all lanes onto the
positions of the list, and keep the order of each lane.
-/

namespace Interleave

variable {κ α : Type*} [DecidableEq κ]

def lane (k : κ) : List (κ × α) → List α
  | [] => []
  | (j, a) :: l => if j = k then a :: lane k l else lane k l

def place (k : κ) : List (κ × α) → Nat → Nat
  | [], _ => 0
  | (j, _) :: l, i =>
    if j = k then
      match i with
      | 0 => 0
      | i + 1 => place k l i + 1
    else place k l i + 1

section
variable {k : κ} {l m : List (κ × α)}

@[simp] theorem lane_nil : lane k ([] : List (κ × α)) = [] := rfl

theorem lane_cons_self (a : α) : lane k ((k, a) :: l) = a :: lane k l := by simp [lane]

theorem lane_cons_of_ne {j : κ} (h : j ≠ k) (a : α) : lane k ((j, a) :: l) = lane k l := by
  simp [lane, h]

theorem lane_append : lane k (l ++ m) = lane k l ++ lane k m := by
  induction l with
  | nil => rfl
  | cons x l ih =>
    obtain ⟨j, a⟩ := x
    by_cases h : j = k
    · subst h
      rw [List.cons_append, lane_cons_self, lane_cons_self, ih, List.cons_append]
    · rw [List.cons_append, lane_cons_of_ne h, lane_cons_of_ne h, ih]

theorem length_lane_le (l : List (κ × α)) : (lane k l).length ≤ l.length := by
  induction l with
  | nil => exact Nat.le_refl 0
  | cons x l ih =>
    simp only [lane]
    split
    · exact Nat.succ_le_succ ih
    · exact Nat.le_succ_of_le ih

theorem length_lane_cons (j : κ) (a : α) :
    (lane k ((j, a) :: l)).length = (if k = j then 1 else 0) + (lane k l).length := by
  by_cases h : j = k
  · subst h
    rw [lane_cons_self, if_pos rfl, List.length_cons, Nat.add_comm]
  · rw [lane_cons_of_ne h, if_neg (Ne.symm h), Nat.zero_add]

theorem sum_length_lane {ks : List κ} (hks : ks.Nodup) (h : ∀ x ∈ l, x.1 ∈ ks) :
    (ks.map fun k => (lane k l).length).sum = l.length := by
  induction l with
  | nil => simp
  | cons x l ih =>
    obtain ⟨j, a⟩ := x
    obtain ⟨hj, hl⟩ := List.forall_mem_cons.mp h
    have hone : (ks.map fun k => if k = j then 1 else 0).sum = 1 := by
      rw [List.sum_map_eq_nsmul_single j _ (fun k hk _ => if_neg hk),
        List.count_eq_one_of_mem hks hj]
      simp
    simp only [length_lane_cons, List.sum_map_add, hone, ih hl, List.length_cons]
    omega

@[simp] theorem place_self_zero (a : α) : place k ((k, a) :: l) 0 = 0 := by simp [place]

@[simp] theorem place_self_succ (a : α) (i : Nat) :
    place k ((k, a) :: l) (i + 1) = place k l i + 1 := by simp [place]

theorem place_of_ne {j : κ} (h : j ≠ k) (a : α) (i : Nat) :
    place k ((j, a) :: l) i = place k l i + 1 := by simp [place, h]

theorem getElem?_place {i : Nat} (hi : i < (lane k l).length) :
    l[place k l i]? = (lane k l)[i]?.map (k, ·) := by
  induction l generalizing i with
  | nil => simp at hi
  | cons x l ih =>
    obtain ⟨j, a⟩ := x
    by_cases h : j = k
    · subst h
      rw [lane_cons_self] at hi ⊢
      cases i with
      | zero => simp
      | succ i => simpa using ih (by simpa using hi)
    · rw [lane_cons_of_ne h] at hi ⊢
      simpa [place_of_ne h] using ih hi

theorem item_at_place {i : Nat} (hi : i < (lane k l).length) :
    l[place k l i]? = some (k, (lane k l)[i]) := by
  rw [getElem?_place hi, List.getElem?_eq_getElem hi, Option.map_some]

theorem place_lt {i : Nat} (hi : i < (lane k l).length) : place k l i < l.length :=
  (List.getElem?_eq_some_iff.mp (item_at_place hi)).1

theorem place_lt_place {i j : Nat} (hij : i < j) (hj : j < (lane k l).length) :
    place k l i < place k l j := by
  induction l generalizing i j with
  | nil => simp at hj
  | cons x l ih =>
    obtain ⟨m, a⟩ := x
    by_cases h : m = k
    · subst h
      rw [lane_cons_self, List.length_cons] at hj
      obtain ⟨j, rfl⟩ : ∃ j', j = j' + 1 := ⟨j - 1, by omega⟩
      cases i with
      | zero => simp
      | succ i => simpa using ih (by omega) (by omega)
    · rw [lane_cons_of_ne h] at hj
      simpa [place_of_ne h] using ih hij hj

/-- An item put on its lane stands where the list ended. -/
theorem place_length_lane (a : α) :
    place k (l ++ (k, a) :: m) (lane k l).length = l.length := by
  induction l with
  | nil => simp
  | cons x l ih =>
    obtain ⟨j, b⟩ := x
    by_cases h : j = k
    · subst h
      simpa [lane_cons_self] using ih
    · simpa [lane_cons_of_ne h, place_of_ne h] using ih

end

/-- The positions of all lanes: the `i`-th item of lane `k`. -/
def positions (l : List (κ × α)) : Set (κ × Nat) := {p | p.2 < (lane p.1 l).length}

theorem place_strictMonoOn (k : κ) (l : List (κ × α)) :
    StrictMonoOn (place k l) (Set.Iio (lane k l).length) :=
  fun _ _ _ hj hij => place_lt_place hij hj

theorem place_bijOn (l : List (κ × α)) :
    Set.BijOn (fun p => place p.1 l p.2) (positions l) (Set.Iio l.length) := by
  refine ⟨fun p hp => place_lt hp, ?_, ?_⟩
  · rintro ⟨k, i⟩ hp ⟨k', i'⟩ hq (he : place k l i = place k' l i')
    -- two items at one place are the same item, so their lanes are one lane
    have hk : k = k' := by
      have hi := item_at_place (k := k) hp
      rw [he, item_at_place (k := k') hq] at hi
      exact (Prod.mk.inj (Option.some.inj hi)).1.symm
    subst hk
    have hi : i = i' := (place_strictMonoOn k l).injOn hp hq he
    rw [hi]
  · rintro n (hn : n < l.length)
    obtain ⟨pre, ⟨k, a⟩, post, rfl, rfl⟩ : ∃ pre x post, l = pre ++ x :: post ∧ pre.length = n :=
      ⟨l.take n, l[n], l.drop (n + 1), by simp, by simpa using Nat.le_of_lt hn⟩
    refine ⟨(k, (lane k pre).length), ?_, place_length_lane a⟩
    simp [positions, lane_append, lane_cons_self]

end Interleave
