import Slipstream.Base.Count
import Slipstream.EventLog.Merge

/-!
# Logs that fill up

Both logs on runs of any length. A log holds the first messages appended to
it, up to the last index of a `u64`; a full one refuses the next message and
keeps what it holds, and an entry once read reads the same for ever.
-/

namespace EventLog

open Host (Env Invocation)
open Interleave (lane)
open Run (final)
open SegmentedEventLog (SEGMENTS appended)

variable {Address Msg : Type}

-- ---------------------------------------------------------------------------
-- One append
-- ---------------------------------------------------------------------------

theorem take_snoc {α : Type} (k : Nat) (l : List α) (a : α) :
    (l ++ [a]).take k = if l.length < k then l.take k ++ [a] else l.take k := by
  split
  · next h =>
    have hlen : (l ++ [a]).length ≤ k := by
      rw [List.length_append]
      exact h
    rw [List.take_of_length_le hlen, List.take_of_length_le h.le]
  · next h => rw [List.take_append_of_le_length (Nat.le_of_not_lt h)]

/-- The last entry is written before its number is found to be too large, and
the write is rolled back. -/
theorem naive_append_full {s : NaiveEventLog.Ledger Msg}
    (h : (NaiveEventLog.tailOf s).add? 1 = none) (env : Env Address) (msg : Msg) :
    NaiveEventLog.step s ⟨env, .append msg⟩ = (.error .overflow, s) := by
  apply Host.invoke_of_error
  unfold NaiveEventLog.tailOf at h
  simp [NaiveEventLog.dispatch, NaiveEventLog.append, h]

theorem segmented_append_full {s : SegmentedEventLog.Ledger Msg} {segment : UInt32}
    (hg : segment < SEGMENTS) (h : (SegmentedEventLog.tailOf s segment).add? 1 = none)
    (env : Env Address) (msg : Msg) :
    SegmentedEventLog.step s ⟨env, .append segment msg⟩ = (.error .overflow, s) := by
  apply Host.invoke_of_error
  unfold SegmentedEventLog.tailOf at h
  simp [SegmentedEventLog.dispatch, SegmentedEventLog.append, UInt32.not_le.mpr hg, h]

theorem add?_one_of_last {v : U64} (h : v.val = Count.last) : v.add? 1 = none := by
  have hlast : (Count.last : Int) = 2 ^ 64 - 1 := rfl
  refine Ranged.add?_eq_none.mpr (.inr ?_)
  rw [Ranged.U64.val_one]
  omega

theorem naive_holds_step {s : NaiveEventLog.Ledger Msg} {l : List Msg}
    (h : NaiveEventLog.Holds s (l.take Count.last))
    (i : Invocation Address (NaiveEventLog.Call Msg)) :
    NaiveEventLog.Holds (NaiveEventLog.step s i).2
      ((l ++ (NaiveEventLog.appended i).toList).take Count.last) := by
  obtain ⟨env, call⟩ := i
  cases call with
  | append msg =>
    simp only [NaiveEventLog.appended, Option.toList_some, take_snoc]
    split
    · next hlt =>
      have hlen : (l.take Count.last).length + 1 < 2 ^ 64 := by
        rw [List.take_of_length_le hlt.le]
        exact Nat.add_lt_of_lt_sub hlt
      exact (NaiveEventLog.step_append h hlen env msg).2
    · next hge =>
      have ht : (NaiveEventLog.tailOf s).val = Count.last := by
        rw [h.tail, List.length_take_of_le (Nat.le_of_not_lt hge)]
      rwa [naive_append_full (add?_one_of_last ht)]
  | entryCount => simpa [NaiveEventLog.appended, NaiveEventLog.step_entryCount] using h
  | get index => simpa [NaiveEventLog.appended, NaiveEventLog.step_get] using h

theorem naive_holds_any (cs : List (Invocation Address (NaiveEventLog.Call Msg))) :
    NaiveEventLog.Holds (final NaiveEventLog.step ∅ cs)
      ((cs.filterMap NaiveEventLog.appended).take Count.last) := by
  induction cs using List.reverseRecOn with
  | nil => exact NaiveEventLog.holds_empty
  | append_singleton cs i ih =>
    rw [Run.final_snoc, Run.filterMap_snoc]
    exact naive_holds_step ih i

theorem take_lanes (as : List (UInt32 × Msg)) (segment : UInt32) (msg : Msg) :
    (fun g => (lane g (as ++ [(segment, msg)])).take Count.last) =
      Function.update (fun g => (lane g as).take Count.last) segment
        ((lane segment as ++ [msg]).take Count.last) := by
  funext g
  have hl := congrFun (SegmentedEventLog.lane_snoc as segment msg) g
  by_cases hg : g = segment
  · subst hg
    rw [Function.update_self] at hl ⊢
    rw [hl]
  · rw [Function.update_of_ne hg] at hl ⊢
    rw [hl]

theorem segmented_holds_step {s : SegmentedEventLog.Ledger Msg} {as : List (UInt32 × Msg)}
    (h : SegmentedEventLog.Holds s fun g => (lane g as).take Count.last)
    (i : Invocation Address (SegmentedEventLog.Call Msg)) :
    SegmentedEventLog.Holds (SegmentedEventLog.step s i).2
      fun g => (lane g (as ++ (appended i).toList)).take Count.last := by
  obtain ⟨env, call⟩ := i
  have hread (hw : (SegmentedEventLog.footprint call).writes = ∅) :
      (SegmentedEventLog.step s ⟨env, call⟩).2 = s :=
    Host.invoke_readOnly (SegmentedEventLog.covers env call) hw
  cases call with
  | append segment msg =>
    by_cases hg : segment < SEGMENTS
    · rw [appended_append env hg, Option.toList_some, take_lanes, take_snoc]
      split
      · next hlt =>
        have hlen : ((lane segment as).take Count.last).length + 1 < 2 ^ 64 := by
          rw [List.take_of_length_le hlt.le]
          exact Nat.add_lt_of_lt_sub hlt
        exact (SegmentedEventLog.step_append h hg hlen env msg).2
      · next hge =>
        have ht : (SegmentedEventLog.tailOf s segment).val = Count.last := by
          rw [(h segment).tail, List.length_take_of_le (Nat.le_of_not_lt hge)]
        rw [segmented_append_full hg (add?_one_of_last ht), Function.update_eq_self_iff.mpr rfl]
        exact h
    · rw [SegmentedEventLog.step_append_outOfRange (UInt32.not_lt.mp hg)]
      simpa [appended, hg] using h
  | _ =>
    rw [hread rfl]
    simpa [appended] using h

theorem segmented_holds_any (cs : List (Invocation Address (SegmentedEventLog.Call Msg))) :
    SegmentedEventLog.Holds (final SegmentedEventLog.step ∅ cs)
      fun g => (messages cs g).take Count.last := by
  induction cs using List.reverseRecOn with
  | nil => exact SegmentedEventLog.holds_empty
  | append_singleton cs i ih =>
    unfold messages
    rw [Run.final_snoc, Run.filterMap_snoc]
    exact segmented_holds_step ih i

-- ---------------------------------------------------------------------------
-- Every run
-- ---------------------------------------------------------------------------

theorem getElem?_of_prefix_take {α : Type} {l m : List α} (h : l <+: m) {k i : Nat} {a : α}
    (ha : (l.take k)[i]? = some a) : (m.take k)[i]? = some a := by
  obtain ⟨rest, hrest⟩ := h.take k
  obtain ⟨hi, -⟩ := List.getElem?_eq_some_iff.mp ha
  rw [← hrest, List.getElem?_append_left hi, ha]

theorem messages_mono {pre cs : List (Invocation Address (SegmentedEventLog.Call Msg))}
    (h : pre <+: cs) (g : UInt32) : messages pre g <+: messages cs g := by
  obtain ⟨as, has⟩ := h.filterMap appended
  unfold messages
  rw [← has, Interleave.lane_append]
  exact List.prefix_append ..

def lengthOf (cs : List (Invocation Address (SegmentedEventLog.Call Msg))) : Int :=
  ((Host.upTo SEGMENTS).map fun g => ((min (messages cs g).length Count.last : Nat) : Int)).sum

structure SegmentsKeep (cs : List (Invocation Address (SegmentedEventLog.Call Msg))) : Prop where
  segmentLen : ∀ (env : Env Address) g, g < SEGMENTS → ∃ v : U64,
    SegmentedEventLog.step (final SegmentedEventLog.step ∅ cs) ⟨env, .segmentLen g⟩ =
      (.ok (.number v), final SegmentedEventLog.step ∅ cs) ∧
    v.val = min (messages cs g).length Count.last
  /-- The aggregate traps exactly where it does not fit, and the segments go on. -/
  totalLen : ∀ env : Env Address, (lengthOf cs < 2 ^ 64 ∧ ∃ v : U64, v.val = lengthOf cs ∧
      SegmentedEventLog.step (final SegmentedEventLog.step ∅ cs) ⟨env, .totalLen⟩ =
        (.ok (.number v), final SegmentedEventLog.step ∅ cs)) ∨
    (2 ^ 64 ≤ lengthOf cs ∧
      SegmentedEventLog.step (final SegmentedEventLog.step ∅ cs) ⟨env, .totalLen⟩ =
        (.error .overflow, final SegmentedEventLog.step ∅ cs))
  get : ∀ (env : Env Address) g (index : U64),
    SegmentedEventLog.step (final SegmentedEventLog.step ∅ cs) ⟨env, .get g index⟩ =
      (.ok (.entry ((messages cs g).take Count.last)[index.val.toNat]?),
        final SegmentedEventLog.step ∅ cs)
  full : ∀ (env : Env Address) g msg, g < SEGMENTS → Count.last ≤ (messages cs g).length →
    SegmentedEventLog.step (final SegmentedEventLog.step ∅ cs) ⟨env, .append g msg⟩ =
      (.error .overflow, final SegmentedEventLog.step ∅ cs)
  stable : ∀ pre, pre <+: cs → ∀ (env : Env Address) g (index : U64) msg,
    (SegmentedEventLog.step (final SegmentedEventLog.step ∅ pre) ⟨env, .get g index⟩).1 =
      .ok (.entry (some msg)) →
    (SegmentedEventLog.step (final SegmentedEventLog.step ∅ cs) ⟨env, .get g index⟩).1 =
      .ok (.entry (some msg))

structure TailKeeps (cs : List (Invocation Address (NaiveEventLog.Call Msg))) : Prop where
  entryCount : ∀ env : Env Address, ∃ v : U64,
    NaiveEventLog.step (final NaiveEventLog.step ∅ cs) ⟨env, .entryCount⟩ =
      (.ok (.number v), final NaiveEventLog.step ∅ cs) ∧
    v.val = min (cs.filterMap NaiveEventLog.appended).length Count.last
  get : ∀ (env : Env Address) (index : U64),
    NaiveEventLog.step (final NaiveEventLog.step ∅ cs) ⟨env, .get index⟩ =
      (.ok (.entry ((cs.filterMap NaiveEventLog.appended).take Count.last)[index.val.toNat]?),
        final NaiveEventLog.step ∅ cs)
  full : ∀ (env : Env Address) msg,
    Count.last ≤ (cs.filterMap NaiveEventLog.appended).length →
    NaiveEventLog.step (final NaiveEventLog.step ∅ cs) ⟨env, .append msg⟩ =
      (.error .overflow, final NaiveEventLog.step ∅ cs)
  stable : ∀ pre, pre <+: cs → ∀ (env : Env Address) (index : U64) msg,
    (NaiveEventLog.step (final NaiveEventLog.step ∅ pre) ⟨env, .get index⟩).1 =
      .ok (.entry (some msg)) →
    (NaiveEventLog.step (final NaiveEventLog.step ∅ cs) ⟨env, .get index⟩).1 =
      .ok (.entry (some msg))

theorem segmented_get (cs : List (Invocation Address (SegmentedEventLog.Call Msg)))
    (env : Env Address) (g : UInt32) (index : U64) :
    SegmentedEventLog.step (final SegmentedEventLog.step ∅ cs) ⟨env, .get g index⟩ =
      (.ok (.entry ((messages cs g).take Count.last)[index.val.toNat]?),
        final SegmentedEventLog.step ∅ cs) := by
  rw [SegmentedEventLog.step_get, (segmented_holds_any cs g).entry index]

theorem naive_get (cs : List (Invocation Address (NaiveEventLog.Call Msg)))
    (env : Env Address) (index : U64) :
    NaiveEventLog.step (final NaiveEventLog.step ∅ cs) ⟨env, .get index⟩ =
      (.ok (.entry ((cs.filterMap NaiveEventLog.appended).take Count.last)[index.val.toNat]?),
        final NaiveEventLog.step ∅ cs) := by
  rw [NaiveEventLog.step_get, (naive_holds_any cs).entry index]

theorem totalLen_cases (s : SegmentedEventLog.Ledger Msg) (env : Env Address) {n : Int}
    (hn : ((Host.upTo SEGMENTS).map fun g => (SegmentedEventLog.tailOf s g).val).sum = n) :
    (n < 2 ^ 64 ∧ ∃ v : U64, v.val = n ∧
      SegmentedEventLog.step s ⟨env, .totalLen⟩ = (.ok (.number v), s)) ∨
    (2 ^ 64 ≤ n ∧ SegmentedEventLog.step s ⟨env, .totalLen⟩ = (.error .overflow, s)) := by
  have hread (g : UInt32) : (Host.getOr (SegmentedEventLog.DataKey.segmentTail g) 0 :
      SegmentedEventLog.Program Msg U64).run s = .ok (SegmentedEventLog.tailOf s g, s) := rfl
  obtain ⟨v, s', hr, hi⟩ | ⟨f, hr, hi⟩ :=
    Host.invoke_map_cases SegmentedEventLog.totalLen SegmentedEventLog.Reply.number s
  · obtain ⟨hv, rfl⟩ := (Host.sum_ok hread).mp hr
    rw [hn, Ranged.U64.val_zero, Int.zero_add] at hv
    have hle := v.le_hi
    exact .inl ⟨by omega, v, hv, hi⟩
  · obtain ⟨hf, hsum⟩ := Host.sum_fault hread hr
    rw [hn, Ranged.U64.val_zero, Int.zero_add] at hsum
    exact .inr ⟨by omega, hf ▸ hi⟩

theorem segments_keep (cs : List (Invocation Address (SegmentedEventLog.Call Msg))) :
    SegmentsKeep cs where
  segmentLen env g hg := by
    refine ⟨_, SegmentedEventLog.step_segmentLen hg env, ?_⟩
    rw [(segmented_holds_any cs g).tail, List.length_take, Nat.min_comm]
  totalLen env := by
    refine totalLen_cases _ env (congrArg List.sum (List.map_congr_left fun g _ => ?_))
    rw [(segmented_holds_any cs g).tail, List.length_take, Nat.min_comm]
  get := segmented_get cs
  full env g msg hg hl := by
    refine segmented_append_full hg (add?_one_of_last ?_) env msg
    rw [(segmented_holds_any cs g).tail, List.length_take_of_le hl]
  stable pre hp env g index msg h := by
    rw [segmented_get] at h ⊢
    injection h with h
    injection h with h
    rw [getElem?_of_prefix_take (messages_mono hp g) h]

theorem tail_keeps (cs : List (Invocation Address (NaiveEventLog.Call Msg))) : TailKeeps cs where
  entryCount env := by
    refine ⟨_, NaiveEventLog.step_entryCount env, ?_⟩
    rw [(naive_holds_any cs).tail, List.length_take, Nat.min_comm]
  get := naive_get cs
  full env msg hl := by
    refine naive_append_full (add?_one_of_last ?_) env msg
    rw [(naive_holds_any cs).tail, List.length_take_of_le hl]
  stable pre hp env index msg h := by
    rw [naive_get] at h ⊢
    injection h with h
    injection h with h
    rw [getElem?_of_prefix_take (hp.filterMap NaiveEventLog.appended) h]

theorem logs_append_only (cs : List (Invocation Address (SegmentedEventLog.Call Msg)))
    (ds : List (Invocation Address (NaiveEventLog.Call Msg))) : SegmentsKeep cs ∧ TailKeeps ds :=
  ⟨segments_keep cs, tail_keeps ds⟩

end EventLog
