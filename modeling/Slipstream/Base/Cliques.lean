import Slipstream.Base.Stages
import Mathlib.Data.Finset.Max

/-!
# Stages filled greedily

The jobs take their stages in an order of ranks. Where its conflicts with the
jobs before it leave each job a stage below its bound, the greatest bound is
enough stages; where each bound is the size of a clique, no choice uses fewer.
-/

namespace Stages

variable {ι α : Type} [Fintype ι] [LinearOrder α]

/-- Jobs that conflict two by two. -/
def Clique (conflict : ι → ι → Prop) (jobs : Finset ι) : Prop :=
  (jobs : Set ι).Pairwise (SimpleGraph.fromRel conflict).Adj

/-- The job conflicts with another that is not after it. -/
def Waits (conflict : ι → ι → Prop) (rank : ι → α) (i j : ι) : Prop :=
  rank j ≤ rank i ∧ (SimpleGraph.fromRel conflict).Adj i j

/-- How a greedy choice finds a stage: too few jobs are waited for to fill the
stages below the bound, or all of them stay below a smaller one. -/
def Fills (conflict : ι → ι → Prop) (rank : ι → α) (bound : ι → Nat) : Prop :=
  ∀ i, (∃ jobs : Finset ι, (∀ j, Waits conflict rank i j → j ∈ jobs) ∧ jobs.card < bound i) ∨
    0 < bound i ∧ ∀ j, Waits conflict rank i j → bound j < bound i

variable {conflict : ι → ι → Prop} {rank : ι → α} {bound : ι → Nat}

theorem Clique.card_le {jobs : Finset ι} (h : Clique conflict jobs) {k : Nat}
    (hk : k ∈ counts conflict) : jobs.card ≤ k := by
  obtain ⟨stage, rfl⟩ := hk
  refine Finset.card_le_card_of_injOn stage (fun j _ => by simp) fun j hj k hk hjk => ?_
  by_contra hne
  exact stage.valid (h hj hk hne) hjk

/-- What is enough bounds what is needed. -/
theorem exists_isLeast {k : Nat} (hk : k ∈ counts conflict) :
    ∃ m, IsLeast (counts conflict) m ∧ m ≤ k := by
  classical
  have hex : ∃ m, m ∈ counts conflict := ⟨k, hk⟩
  exact ⟨Nat.find hex, ⟨Nat.find_spec hex, fun _ hm => Nat.find_min' hex hm⟩,
    Nat.find_min' hex hk⟩

omit [Fintype ι] in
theorem Fills.next (h : Fills conflict rank bound) {jobs : Finset ι} {stage : ι → Nat}
    (hs : ∀ j ∈ jobs, stage j < bound j) (i : ι) :
    ∃ t < bound i, ∀ j ∈ jobs, Waits conflict rank i j → stage j ≠ t := by
  obtain ⟨waited, hw, hlt⟩ | ⟨hpos, hlt⟩ := h i
  · have himage : (waited.image stage).card < (Finset.range (bound i)).card := by
      rw [Finset.card_range]
      exact lt_of_le_of_lt Finset.card_image_le hlt
    obtain ⟨t, ht, hnot⟩ := Finset.exists_mem_notMem_of_card_lt_card himage
    refine ⟨t, Finset.mem_range.mp ht, fun j _ hj he => hnot ?_⟩
    exact Finset.mem_image.mpr ⟨j, hw j hj, he⟩
  · refine ⟨bound i - 1, Nat.sub_one_lt_of_lt hpos, fun j hm hj he => ?_⟩
    have hstage := hs j hm
    have hbound := hlt j hj
    omega

omit [Fintype ι] in
theorem Fills.exists_stage (h : Fills conflict rank bound) (jobs : Finset ι) :
    ∃ stage : ι → Nat, (∀ i ∈ jobs, stage i < bound i) ∧
      ∀ i ∈ jobs, ∀ j ∈ jobs, (SimpleGraph.fromRel conflict).Adj i j → stage i ≠ stage j := by
  classical
  induction jobs using Finset.induction_on_max_value rank with
  | empty => exact ⟨fun _ => 0, by simp, by simp⟩
  | insert a jobs ha hmax ih =>
    obtain ⟨stage, hb, hs⟩ := ih
    obtain ⟨t, ht, hnot⟩ := h.next hb a
    have hold : ∀ j ∈ jobs, Function.update stage a t j = stage j := fun j hj =>
      Function.update_of_ne (ne_of_mem_of_not_mem hj ha) ..
    have hnew : ∀ j ∈ jobs, (SimpleGraph.fromRel conflict).Adj a j →
        Function.update stage a t a ≠ Function.update stage a t j := by
      intro j hj hadj
      rw [Function.update_self, hold j hj]
      exact (hnot j hj ⟨hmax j hj, hadj⟩).symm
    refine ⟨Function.update stage a t, fun i hi => ?_, fun i hi j hj hadj => ?_⟩
    · obtain rfl | hi' := Finset.mem_insert.mp hi
      · rwa [Function.update_self]
      · exact (hold i hi').symm ▸ hb i hi'
    · obtain rfl | hi' := Finset.mem_insert.mp hi
      · obtain rfl | hj' := Finset.mem_insert.mp hj
        · exact absurd rfl hadj.ne
        · exact hnew j hj' hadj
      · obtain rfl | hj' := Finset.mem_insert.mp hj
        · exact (hnew i hi' hadj.symm).symm
        · rw [hold i hi', hold j hj']
          exact hs i hi' j hj' hadj

theorem Fills.exists_count (h : Fills conflict rank bound) :
    ∃ k ∈ counts conflict, k ≤ Finset.univ.sup bound := by
  obtain ⟨stage, hb, hs⟩ := h.exists_stage Finset.univ
  let coloring : (SimpleGraph.fromRel conflict).Coloring Nat :=
    .mk stage fun {i j} => hs i (Finset.mem_univ i) j (Finset.mem_univ j)
  have hsub : Finset.univ.image coloring ⊆ Finset.range (Finset.univ.sup bound) := by
    intro t ht
    obtain ⟨i, -, rfl⟩ := Finset.mem_image.mp ht
    exact Finset.mem_range.mpr (lt_of_lt_of_le (hb i (Finset.mem_univ i))
      (Finset.le_sup (Finset.mem_univ i)))
  have hle := Finset.card_le_card hsub
  rw [Finset.card_range] at hle
  exact ⟨_, ⟨coloring, rfl⟩, hle⟩

theorem Fills.isLeast (h : Fills conflict rank bound)
    (hc : ∀ i, ∃ jobs, Clique conflict jobs ∧ bound i = jobs.card) :
    IsLeast (counts conflict) (Finset.univ.sup bound) := by
  have hlow : Finset.univ.sup bound ∈ lowerBounds (counts conflict) := by
    refine fun k hk => Finset.sup_le fun i _ => ?_
    obtain ⟨jobs, hj, hb⟩ := hc i
    exact hb ▸ hj.card_le hk
  obtain ⟨k, hk, hle⟩ := h.exists_count
  exact ⟨le_antisymm hle (hlow hk) ▸ hk, hlow⟩

end Stages
