import Mathlib.Algebra.Order.Floor.Div
import Mathlib.Combinatorics.SimpleGraph.Coloring.Vertex
import Mathlib.Data.Int.CardIntervalMod
import Mathlib.Order.Bounds.Basic

/-!
# Stages of a batch

Jobs that conflict may not share a stage, so a choice of stages is a colouring
of the conflict graph. Where two jobs conflict exactly when they name the same
resource and that resource is contended, the least number of stages is the
number of jobs on the busiest one.
-/

namespace Stages

variable {ι κ : Type} [Fintype ι] [DecidableEq κ]

/-- How many stages some choice of stages uses. -/
def counts (conflict : ι → ι → Prop) : Set Nat :=
  {k | ∃ stage : (SimpleGraph.fromRel conflict).Coloring Nat, (Finset.univ.image stage).card = k}

def peers (label : ι → κ) (i : ι) : Finset ι := Finset.univ.filter fun j => label j = label i

/-- The largest number of jobs that name one resource. -/
def largest (label : ι → κ) : Nat := Finset.univ.sup fun i => (peers label i).card

/-- The largest number of jobs that name one contended resource, and at least
one stage for the jobs on the others. -/
def busiest (label : ι → κ) (contended : κ → Prop) [DecidablePred contended] : Nat :=
  Finset.univ.sup fun i => if contended (label i) then (peers label i).card else 1

/-- Two jobs conflict exactly when they name the same contended resource. -/
def Contend (conflict : ι → ι → Prop) (label : ι → κ) (contended : κ → Prop) : Prop :=
  ∀ i j, i ≠ j → (conflict i j ↔ label i = label j ∧ contended (label i))

/-- Two jobs conflict exactly when they name the same resource, and the jobs
on the busiest one are the stages needed. -/
structure Clustered (conflict : ι → ι → Prop) (label : ι → κ) : Prop where
  conflict_iff : ∀ i j, i ≠ j → (conflict i j ↔ label i = label j)
  least : IsLeast (counts conflict) (largest label)

theorem mem_peers {label : ι → κ} {i j : ι} : j ∈ peers label i ↔ label j = label i := by
  simp [peers]

section
variable {conflict : ι → ι → Prop} {label : ι → κ} {contended : κ → Prop}

omit [Fintype ι] [DecidableEq κ] in
theorem Contend.adj (h : Contend conflict label contended) {i j : ι} :
    (SimpleGraph.fromRel conflict).Adj i j ↔
      i ≠ j ∧ label i = label j ∧ contended (label i) := by
  rw [SimpleGraph.fromRel_adj]
  refine and_congr_right fun hne => ?_
  rw [h i j hne, h j i hne.symm]
  constructor
  · rintro (hl | ⟨hl, hc⟩)
    · exact hl
    · exact ⟨hl.symm, hl ▸ hc⟩
  · exact .inl

variable [DecidablePred contended]

theorem Contend.busiest_le (h : Contend conflict label contended)
    (stage : (SimpleGraph.fromRel conflict).Coloring Nat) :
    busiest label contended ≤ (Finset.univ.image stage).card := by
  refine Finset.sup_le fun i _ => ?_
  split
  · next hc =>
    refine Finset.card_le_card_of_injOn stage (fun j _ => by simp) fun j hj k hk hjk => ?_
    have hj := mem_peers.mp hj
    have hk := mem_peers.mp hk
    by_contra hne
    exact stage.valid (h.adj.mpr ⟨hne, hj.trans hk.symm, hj ▸ hc⟩) hjk
  · exact Finset.card_pos.mpr ⟨stage i, by simp⟩

end

section
variable [LinearOrder ι] (label : ι → κ) (contended : κ → Prop) [DecidablePred contended]

/-- The jobs on one contended resource go in turn, all others first. -/
def inTurn (i : ι) : Nat :=
  if contended (label i) then ((peers label i).filter (· < i)).card else 0

variable {label contended}

theorem inTurn_lt (i : ι) : inTurn label contended i < busiest label contended := by
  refine lt_of_lt_of_le ?_ (Finset.le_sup (Finset.mem_univ i))
  unfold inTurn
  split
  · refine Finset.card_lt_card (Finset.filter_ssubset.mpr ⟨i, mem_peers.mpr rfl, lt_irrefl i⟩)
  · exact Nat.one_pos

theorem inTurn_lt_inTurn {i j : ι} (hij : i < j) (hl : label i = label j)
    (hc : contended (label i)) : inTurn label contended i < inTurn label contended j := by
  have hp : peers label i = peers label j := by unfold peers; rw [hl]
  rw [inTurn, inTurn, if_pos hc, if_pos (hl ▸ hc), hp]
  refine Finset.card_lt_card (Finset.ssubset_iff_of_subset ?_ |>.mpr ⟨i, ?_, ?_⟩)
  · exact Finset.monotone_filter_right _ fun k _ hk => lt_trans hk hij
  · exact Finset.mem_filter.mpr ⟨mem_peers.mpr hl, hij⟩
  · simp

variable {conflict : ι → ι → Prop}

theorem Contend.inTurn_ne (h : Contend conflict label contended) {i j : ι}
    (ha : (SimpleGraph.fromRel conflict).Adj i j) :
    inTurn label contended i ≠ inTurn label contended j := by
  obtain ⟨hne, hl, hc⟩ := h.adj.mp ha
  obtain hij | hji := lt_or_gt_of_ne hne
  · exact (inTurn_lt_inTurn hij hl hc).ne
  · exact (inTurn_lt_inTurn hji hl.symm (hl ▸ hc)).ne'

theorem Contend.isLeast (h : Contend conflict label contended) :
    IsLeast (counts conflict) (busiest label contended) := by
  have hlow : busiest label contended ∈ lowerBounds (counts conflict) := by
    rintro k ⟨stage, rfl⟩
    exact h.busiest_le stage
  let stage : (SimpleGraph.fromRel conflict).Coloring Nat :=
    .mk (inTurn label contended) h.inTurn_ne
  have hsub : Finset.univ.image stage ⊆ Finset.range (busiest label contended) := by
    intro k hk
    obtain ⟨i, _, rfl⟩ := Finset.mem_image.mp hk
    exact Finset.mem_range.mpr (inTurn_lt i)
  have hle := Finset.card_le_card hsub
  rw [Finset.card_range] at hle
  exact ⟨⟨stage, le_antisymm hle (h.busiest_le stage)⟩, hlow⟩

end

-- ---------------------------------------------------------------------------
-- Batches of one shape
-- ---------------------------------------------------------------------------

section
variable {label : ι → κ} {contended : κ → Prop} [DecidablePred contended]

theorem busiest_of_contended (h : ∀ i, contended (label i)) :
    busiest label contended = largest label :=
  Finset.sup_congr rfl fun i _ => if_pos (h i)

theorem Contend.clustered [LinearOrder ι] {conflict : ι → ι → Prop}
    (h : Contend conflict label contended) (hc : ∀ i, contended (label i)) :
    Clustered conflict label where
  conflict_iff i j hne := by rw [h i j hne, and_iff_left (hc i)]
  least := busiest_of_contended hc ▸ h.isLeast

theorem busiest_of_free (h : ∀ i, ¬ contended (label i)) :
    busiest label contended = min (Fintype.card ι) 1 := by
  have hone : busiest label contended = Finset.univ.sup fun _ : ι => 1 :=
    Finset.sup_congr rfl fun i _ => if_neg (h i)
  rw [hone]
  obtain hι | hι := isEmpty_or_nonempty ι
  · simp
  · have hcard : 0 < Fintype.card ι := Fintype.card_pos
    rw [Finset.sup_const Finset.univ_nonempty]
    omega

end

theorem largest_congr {κ' : Type} [DecidableEq κ'] {label : ι → κ} {label' : ι → κ'}
    (h : ∀ i j, label i = label j ↔ label' i = label' j) : largest label = largest label' := by
  unfold largest peers
  simp only [h]

theorem largest_const (k : κ) : largest (fun _ : ι => k) = Fintype.card ι := by
  have hall : largest (fun _ : ι => k) = Finset.univ.sup fun _ : ι => Fintype.card ι :=
    Finset.sup_congr rfl fun i _ => by simp [peers]
  rw [hall]
  obtain hι | hι := isEmpty_or_nonempty ι
  · simp
  · exact Finset.sup_const Finset.univ_nonempty _

theorem card_peers_mod {r n : Nat} (hr : 0 < r) (i : Fin n) :
    (peers (fun j : Fin n => j.val % r) i).card = n / r + if i.val % r < n % r then 1 else 0 := by
  rw [← Nat.count_modEq_card n hr i.val, Nat.count_eq_card_filter_range, peers,
    Finset.card_filter, Finset.card_filter]
  exact Fin.sum_univ_eq_sum_range (fun j => if j % r = i.val % r then 1 else 0) n

theorem ceilDiv_eq {r : Nat} (hr : 0 < r) (n : Nat) :
    n ⌈/⌉ r = n / r + if 0 < n % r then 1 else 0 := by
  have hn := Nat.div_add_mod n r
  have hlt := Nat.mod_lt n hr
  rw [Nat.ceilDiv_eq_add_pred_div]
  split
  · have he : n + r - 1 = r * (n / r + 1) + (n % r - 1) := by
      rw [Nat.mul_add, Nat.mul_one]
      omega
    have hrest : (n % r - 1) / r = 0 := Nat.div_eq_of_lt (by omega)
    rw [he, Nat.mul_add_div hr, hrest]
  · have he : n + r - 1 = r * (n / r) + (r - 1) := by omega
    have hrest : (r - 1) / r = 0 := Nat.div_eq_of_lt (by omega)
    rw [he, Nat.mul_add_div hr, hrest]

/-- Jobs dealt over `r` resources in turn. -/
theorem largest_mod {r : Nat} (hr : 0 < r) (n : Nat) :
    largest (fun i : Fin n => i.val % r) = n ⌈/⌉ r := by
  refine le_antisymm (Finset.sup_le fun i _ => ?_) ?_
  · rw [card_peers_mod hr, ceilDiv_eq hr]
    split <;> split <;> omega
  · obtain rfl | hn := Nat.eq_zero_or_pos n
    · simp
    · refine le_trans (le_of_eq ?_) (Finset.le_sup (Finset.mem_univ (⟨0, hn⟩ : Fin n)))
      rw [card_peers_mod hr, ceilDiv_eq hr, Nat.zero_mod]

-- ---------------------------------------------------------------------------
-- A batch told stage by stage
-- ---------------------------------------------------------------------------

section
variable {n : Nat} {assigned : Fin n → Nat} {i j : Fin n}

/-- The jobs of each stage, each stage in batch order. -/
def groups (assigned : Fin n → Nat) : List (List (Fin n)) :=
  (List.range (Finset.univ.sup assigned + 1)).map fun t =>
    (List.finRange n).filter fun i => assigned i = t

theorem mem_groups {labels : List (Fin n)} (h : labels ∈ groups assigned) :
    labels.Pairwise fun i j => assigned i = assigned j ∧ i < j := by
  obtain ⟨t, -, rfl⟩ := List.mem_map.mp h
  refine List.pairwise_filter.mpr ((List.pairwise_lt_finRange n).imp fun hij hi hj => ⟨?_, hij⟩)
  exact (of_decide_eq_true hi).trans (of_decide_eq_true hj).symm

theorem mem_flatten_groups (i : Fin n) : i ∈ (groups assigned).flatten := by
  have hlt : assigned i < Finset.univ.sup assigned + 1 :=
    Nat.lt_succ_of_le (Finset.le_sup (Finset.mem_univ i))
  refine List.mem_flatten.mpr ⟨_, List.mem_map_of_mem (List.mem_range.mpr hlt), ?_⟩
  simp

theorem pairwise_groups : (groups assigned).flatten.Pairwise fun i j =>
    assigned i < assigned j ∨ assigned i = assigned j ∧ i < j := by
  refine List.pairwise_flatten.mpr ⟨fun labels hl => (mem_groups hl).imp .inr, ?_⟩
  refine List.pairwise_map.mpr (List.pairwise_lt_range.imp fun {t u} htu i hi j hj => .inl ?_)
  have hi : assigned i = t := by simpa using hi
  have hj : assigned j = u := by simpa using hj
  rwa [hi, hj]

theorem groups_perm : (groups assigned).flatten.Perm (List.finRange n) := by
  have hnodup : (groups assigned).flatten.Nodup := by
    refine pairwise_groups.imp fun {i j} hij he => ?_
    subst he
    exact hij.elim (lt_irrefl _) fun h => lt_irrefl _ h.2
  exact (List.perm_ext_iff_of_nodup hnodup (List.nodup_finRange n)).mpr
    fun i => iff_of_true (mem_flatten_groups i) (List.mem_finRange i)

theorem length_groups (assigned : Fin n → Nat) :
    (groups assigned).length = Finset.univ.sup assigned + 1 := by
  rw [groups, List.length_map, List.length_range]

/-- One label after the other takes as many stages as the largest label has
jobs. -/
theorem length_groups_inTurn (label : Fin n → κ) :
    (groups (inTurn label fun _ => True)).length ≤ max 1 (largest label) := by
  rw [length_groups]
  obtain rfl | hn := Nat.eq_zero_or_pos n
  · simp
  · refine le_trans (Nat.succ_le_of_lt ((Finset.sup_lt_iff ?_).mpr fun i _ => ?_))
      (le_max_right ..)
    · refine lt_of_lt_of_le ?_ (Finset.le_sup (Finset.mem_univ (⟨0, hn⟩ : Fin n)))
      exact Finset.card_pos.mpr ⟨⟨0, hn⟩, mem_peers.mpr rfl⟩
    · have hbusy : busiest label (fun _ => True) = largest label :=
        busiest_of_contended fun _ => trivial
      exact hbusy ▸ inTurn_lt i

end

end Stages
