import Slipstream.Base.Cliques
import Slipstream.Host.Footprint
import Mathlib.Algebra.Order.BigOperators.Group.Finset

/-!
# Queues at a key

Calls documented to write one key conflict two by two, and with every call
that reads it. Where each kind of call has keys whose writers are all it waits
for, the longest queue at such a key is the least number of stages.
-/

namespace Host

variable {K Call : Type}

/-- Every kind of call waits for the writers of some keys it touches, among the
kinds that rank no higher. -/
structure Queues (doc : Call → Footprint K) (waitsFor : Call → Finset K) (rank : Call → Nat) :
    Prop where
  touched : ∀ c, ∀ k ∈ waitsFor c, k ∈ (doc c).reads ∪ (doc c).writes
  waits : ∀ c d, rank d ≤ rank c → (doc c).Conflict (doc d) →
    ∃ k ∈ waitsFor c, k ∈ (doc d).writes

/-- It waits at one key, or reads all of them and meets there only calls that
wait at that one. -/
structure Bottleneck (doc : Call → Footprint K) (waitsFor : Call → Finset K) (rank : Call → Nat) :
    Prop extends Queues doc waitsFor rank where
  narrow : ∀ c, (waitsFor c).card ≤ 1 ∨ ∀ d, rank d ≤ rank c → (doc c).Conflict (doc d) →
    ∃ k ∈ waitsFor c, waitsFor d = {k} ∧ k ∈ (doc d).writes ∧ k ∉ (doc c).writes

section
variable {ι : Type} [Fintype ι]

open Classical in
noncomputable def writers (f : ι → Footprint K) (k : K) : Finset ι :=
  Finset.univ.filter fun j => k ∈ (f j).writes

open Classical in
/-- A job, and the others it queues with at a key. -/
noncomputable def queue (f : ι → Footprint K) (i : ι) (k : K) : Finset ι := insert i (writers f k)

/-- The longest queue of a job, itself included. -/
noncomputable def longestQueue (f : ι → Footprint K) (keys : ι → Finset K) (i : ι) : Nat :=
  max 1 ((keys i).sup fun k => (queue f i k).card)

variable {doc : Call → Footprint K} {waitsFor : Call → Finset K} {rank : Call → Nat}
  {f : ι → Footprint K} {keys : ι → Finset K} {call : ι → Call} {i j : ι} {k : K}

theorem mem_writers : j ∈ writers f k ↔ k ∈ (f j).writes := by
  simp [writers]

theorem mem_queue : j ∈ queue f i k ↔ j = i ∨ k ∈ (f j).writes := by
  simp [queue, mem_writers]

theorem queue_clique (hk : k ∈ (f i).reads ∪ (f i).writes) :
    Stages.Clique (fun i j => (f i).Conflict (f j)) (queue f i k) := by
  intro a ha b hb hne
  refine (SimpleGraph.fromRel_adj ..).mpr ⟨hne, ?_⟩
  obtain rfl | hwa := mem_queue.mp ha
  · exact .inr (.inl ⟨k, (mem_queue.mp hb).resolve_left hne.symm, hk⟩)
  · obtain rfl | hwb := mem_queue.mp hb
    · exact .inl (.inl ⟨k, hwa, hk⟩)
    · exact .inl (.inl ⟨k, hwa, .inr hwb⟩)

theorem card_queue_pos : 0 < (queue f i k).card :=
  Finset.card_pos.mpr ⟨i, mem_queue.mpr (.inl rfl)⟩

theorem card_queue_le (hk : k ∈ keys i) : (queue f i k).card ≤ longestQueue f keys i :=
  le_trans (Finset.le_sup (f := fun k => (queue f i k).card) hk) (le_max_right ..)

theorem longestQueue_cases (f : ι → Footprint K) (keys : ι → Finset K) (i : ι) :
    (keys i = ∅ ∧ longestQueue f keys i = 1) ∨
      ∃ k ∈ keys i, longestQueue f keys i = (queue f i k).card := by
  obtain he | hne := (keys i).eq_empty_or_nonempty
  · exact .inl ⟨he, by rw [longestQueue, he]; rfl⟩
  · obtain ⟨k, hk, hs⟩ := Finset.exists_mem_eq_sup _ hne fun k => (queue f i k).card
    exact .inr ⟨k, hk, by rw [longestQueue, hs]; exact max_eq_right card_queue_pos⟩

theorem card_queue_of_writer (f : ι → Footprint K) (j : ι) (h : k ∈ (f j).writes) :
    (queue f j k).card = (writers f k).card := by
  classical
  rw [queue, Finset.insert_eq_of_mem (mem_writers.mpr h)]

theorem card_queue_of_reader (f : ι → Footprint K) (i : ι) (h : k ∉ (f i).writes) :
    (queue f i k).card = (writers f k).card + 1 := by
  classical
  rw [queue, Finset.card_insert_of_notMem (mt mem_writers.mp h)]

-- A batch of calls.

variable (call) in
theorem Queues.clique (h : Queues doc waitsFor rank) (i : ι) :
    ∃ jobs, Stages.Clique (fun i j => (doc (call i)).Conflict (doc (call j))) jobs ∧
      longestQueue (fun i => doc (call i)) (fun i => waitsFor (call i)) i = jobs.card := by
  obtain ⟨-, he⟩ | ⟨k, hk, he⟩ := longestQueue_cases (fun i => doc (call i))
    (fun i => waitsFor (call i)) i
  · exact ⟨{i}, by simp [Stages.Clique], by rw [he, Finset.card_singleton]⟩
  · exact ⟨_, queue_clique (h.touched _ k hk), he⟩

omit [Fintype ι] in
theorem conflict_of_waits (hw : Stages.Waits (fun i j => (doc (call i)).Conflict (doc (call j)))
    (fun i => rank (call i)) i j) :
    j ≠ i ∧ rank (call j) ≤ rank (call i) ∧ (doc (call i)).Conflict (doc (call j)) := by
  obtain ⟨hne, hc⟩ := (SimpleGraph.fromRel_adj ..).mp hw.2
  exact ⟨hne.symm, hw.1, hc.elim id Or.symm⟩

open Classical in
/-- All that a call waits for. -/
noncomputable def ahead (f : ι → Footprint K) (keys : ι → Finset K) (i : ι) : Finset ι :=
  (keys i).biUnion fun k => (queue f i k).erase i

theorem Queues.mem_ahead (h : Queues doc waitsFor rank)
    (hw : Stages.Waits (fun i j => (doc (call i)).Conflict (doc (call j)))
      (fun i => rank (call i)) i j) :
    j ∈ ahead (fun i => doc (call i)) (fun i => waitsFor (call i)) i := by
  classical
  obtain ⟨hne, hr, hc⟩ := conflict_of_waits hw
  obtain ⟨k, hk, hwrites⟩ := h.waits _ _ hr hc
  refine Finset.mem_biUnion.mpr ⟨k, hk, ?_⟩
  exact Finset.mem_erase.mpr ⟨hne, mem_queue.mpr (.inr hwrites)⟩

theorem card_ahead_le (f : ι → Footprint K) (keys : ι → Finset K) {w : Nat}
    (hw : (keys i).card ≤ w) : (ahead f keys i).card ≤ w * (longestQueue f keys i - 1) := by
  classical
  refine le_trans (Finset.card_biUnion_le_card_mul _ _ (longestQueue f keys i - 1) ?_)
    (Nat.mul_le_mul_right _ hw)
  intro k hk
  rw [Finset.card_erase_of_mem (mem_queue.mpr (.inl rfl))]
  exact Nat.sub_le_sub_right (card_queue_le hk) 1

variable (call) in
theorem Bottleneck.fills (h : Bottleneck doc waitsFor rank) :
    Stages.Fills (fun i j => (doc (call i)).Conflict (doc (call j))) (fun i => rank (call i))
      (longestQueue (fun i => doc (call i)) fun i => waitsFor (call i)) := by
  intro i
  obtain hone | hall := h.narrow (call i)
  · refine .inl ⟨_, fun j hj => h.mem_ahead hj, ?_⟩
    have hle := card_ahead_le (fun i => doc (call i)) (fun i => waitsFor (call i)) hone
    have hpos : 1 ≤ longestQueue (fun i => doc (call i)) (fun i => waitsFor (call i)) i :=
      le_max_left ..
    rw [Nat.one_mul] at hle
    omega
  · refine .inr ⟨lt_of_lt_of_le Nat.one_pos (le_max_left ..), fun j hj => ?_⟩
    obtain ⟨-, hr, hc⟩ := conflict_of_waits hj
    obtain ⟨k, hk, hd, hw, hnot⟩ := hall _ hr hc
    have hshort : longestQueue (fun i => doc (call i)) (fun i => waitsFor (call i)) j =
        (writers (fun i => doc (call i)) k).card := by
      rw [longestQueue, hd, Finset.sup_singleton, max_eq_right card_queue_pos,
        card_queue_of_writer _ j hw]
    rw [hshort, Nat.lt_iff_add_one_le, ← card_queue_of_reader _ i hnot]
    exact card_queue_le hk

/-- The stages a batch needs, for any batch. -/
theorem Bottleneck.isLeast (h : Bottleneck doc waitsFor rank) (call : ι → Call) :
    IsLeast (Stages.counts fun i j => (doc (call i)).Conflict (doc (call j)))
      (Finset.univ.sup (longestQueue (fun i => doc (call i)) fun i => waitsFor (call i))) :=
  (h.fills call).isLeast (h.clique call)

/-- Where calls wait at up to `w` keys, the longest queue tells the stages up to
that factor. -/
theorem Queues.isLeast_between (h : Queues doc waitsFor rank) {w : Nat}
    (hw : ∀ c, (waitsFor c).card ≤ w) (call : ι → Call) :
    ∃ k, IsLeast (Stages.counts fun i j => (doc (call i)).Conflict (doc (call j))) k ∧
      Finset.univ.sup (longestQueue (fun i => doc (call i)) fun i => waitsFor (call i)) ≤ k ∧
      k ≤ w * (Finset.univ.sup
        (longestQueue (fun i => doc (call i)) fun i => waitsFor (call i)) - 1) + 1 := by
  let longest := longestQueue (fun i => doc (call i)) fun i => waitsFor (call i)
  have hfills : Stages.Fills (fun i j => (doc (call i)).Conflict (doc (call j)))
      (fun i => rank (call i)) fun i => w * (longest i - 1) + 1 :=
    fun i => .inl ⟨_, fun j hj => h.mem_ahead hj,
      Nat.lt_succ_of_le (card_ahead_le _ _ (hw (call i)))⟩
  obtain ⟨m, hm, hmle⟩ := hfills.exists_count
  obtain ⟨k, hk, hkm⟩ := Stages.exists_isLeast hm
  refine ⟨k, hk, Finset.sup_le fun i _ => ?_, le_trans (le_trans hkm hmle) ?_⟩
  · obtain ⟨jobs, hj, he⟩ := h.clique call i
    exact he ▸ hj.card_le hk.1
  · refine Finset.sup_le fun i _ => Nat.add_le_add_right (Nat.mul_le_mul_left w ?_) 1
    exact Nat.sub_le_sub_right (Finset.le_sup (f := longest) (Finset.mem_univ i)) 1

end

end Host
