import Slipstream.EventLog.Naive
import Slipstream.EventLog.Segmented

/-!
# The segmented log against the naive one

The appends a segmented run accepts, fed to the naive log in the same order.
Each segment is the list of its own messages; the naive log is the list of
all of them, and `Interleave.place` is where a segment's entry stands in it.
-/

namespace EventLog

open Host (Env Invocation)
open Interleave (lane place)
open Run (final)
open SegmentedEventLog (SEGMENTS appended)

variable {Address Msg : Type}

/-- The appends a segmented run accepts, as calls of the naive log. -/
def merged (cs : List (Invocation Address (SegmentedEventLog.Call Msg))) :
    List (Invocation Address (NaiveEventLog.Call Msg)) :=
  cs.filterMap fun i => (appended i).map fun a => ⟨i.env, .append a.2⟩

def messages (cs : List (Invocation Address (SegmentedEventLog.Call Msg))) (segment : UInt32) :
    List Msg := lane segment (cs.filterMap appended)

/-- Where the entry `index` of a segment stands among all accepted appends. -/
def position (cs : List (Invocation Address (SegmentedEventLog.Call Msg))) (segment : UInt32)
    (index : Nat) : Nat := place segment (cs.filterMap appended) index

variable {cs pre : List (Invocation Address (SegmentedEventLog.Call Msg))}

theorem appended_lt {i : Invocation Address (SegmentedEventLog.Call Msg)} {a : UInt32 × Msg}
    (h : appended i = some a) : a.1 < SEGMENTS := by
  unfold appended at h
  split at h
  · split at h
    · next hg => cases h; exact hg
    · cases h
  · cases h

theorem appended_append (env : Env Address) {segment : UInt32} (hg : segment < SEGMENTS)
    (msg : Msg) : appended ⟨env, .append segment msg⟩ = some (segment, msg) := by
  simp [appended, hg]

theorem appended_around (pre post : List (Invocation Address (SegmentedEventLog.Call Msg)))
    {i : Invocation Address (SegmentedEventLog.Call Msg)} {a : UInt32 × Msg}
    (h : appended i = some a) : (pre ++ [i] ++ post).filterMap appended =
      pre.filterMap appended ++ a :: post.filterMap appended := by
  rw [List.filterMap_append, Run.filterMap_snoc, h, Option.toList, List.append_assoc,
    List.singleton_append]

theorem merged_appended : (merged cs).filterMap NaiveEventLog.appended =
    (cs.filterMap appended).map Prod.snd := by
  rw [merged, List.filterMap_filterMap, List.map_filterMap]
  congr
  funext i
  cases appended i <;> rfl

theorem mem_appended_lt {a : UInt32 × Msg} (h : a ∈ cs.filterMap appended) : a.1 < SEGMENTS := by
  obtain ⟨i, -, hi⟩ := List.mem_filterMap.mp h
  exact appended_lt hi

theorem segment_lt {segment : UInt32} {index : Nat} (h : index < (messages cs segment).length) :
    segment < SEGMENTS :=
  mem_appended_lt (List.mem_of_getElem? (Interleave.item_at_place h))

theorem positions_eq : Interleave.positions (cs.filterMap appended) =
    {p | p.1 < SEGMENTS ∧ p.2 < (messages cs p.1).length} := by
  ext p
  exact ⟨fun hp => ⟨segment_lt hp, hp⟩, fun hp => hp.2⟩

-- ---------------------------------------------------------------------------
-- Every run
-- ---------------------------------------------------------------------------

structure MergedAfter (cs : List (Invocation Address (SegmentedEventLog.Call Msg))) : Prop where
  rejected : ∀ pre (env : Env Address) segment msg, pre ++ [⟨env, .append segment msg⟩] <+: cs →
    SEGMENTS ≤ segment →
      SegmentedEventLog.step (final SegmentedEventLog.step ∅ pre) ⟨env, .append segment msg⟩ =
        (.error (.error .segmentOutOfRange), final SegmentedEventLog.step ∅ pre)
  accepted : ∀ pre (env : Env Address) segment msg, pre ++ [⟨env, .append segment msg⟩] <+: cs →
    segment < SEGMENTS → ∃ i j : U64,
      (SegmentedEventLog.step (final SegmentedEventLog.step ∅ pre)
        ⟨env, .append segment msg⟩).1 = .ok (.number i) ∧
      (NaiveEventLog.step (final NaiveEventLog.step ∅ (merged pre))
        ⟨env, .append msg⟩).1 = .ok (.number j) ∧
      i.val = (messages pre segment).length ∧ j.val = position cs segment i.val.toNat
  segmentLen : ∀ (env : Env Address) segment, segment < SEGMENTS → ∃ v : U64,
    SegmentedEventLog.step (final SegmentedEventLog.step ∅ cs) ⟨env, .segmentLen segment⟩ =
      (.ok (.number v), final SegmentedEventLog.step ∅ cs) ∧
    v.val = (messages cs segment).length
  get : ∀ (env : Env Address) segment (index : U64),
    SegmentedEventLog.step (final SegmentedEventLog.step ∅ cs) ⟨env, .get segment index⟩ =
      (.ok (.entry (messages cs segment)[index.val.toNat]?), final SegmentedEventLog.step ∅ cs)
  total : ∀ env : Env Address, ∃ v : U64,
    SegmentedEventLog.step (final SegmentedEventLog.step ∅ cs) ⟨env, .totalLen⟩ =
      (.ok (.number v), final SegmentedEventLog.step ∅ cs) ∧
    NaiveEventLog.step (final NaiveEventLog.step ∅ (merged cs)) ⟨env, .entryCount⟩ =
      (.ok (.number v), final NaiveEventLog.step ∅ (merged cs)) ∧
    v.val = (cs.filterMap appended).length
  bijection : Set.BijOn (fun p : UInt32 × Nat => position cs p.1 p.2)
    {p | p.1 < SEGMENTS ∧ p.2 < (messages cs p.1).length} (Set.Iio (cs.filterMap appended).length)
  increasing : ∀ segment, StrictMonoOn (position cs segment)
    (Set.Iio (messages cs segment).length)
  sameMessage : ∀ (env : Env Address) segment (i j : U64), i.val < (messages cs segment).length →
    j.val = position cs segment i.val.toNat →
      ∃ msg, (SegmentedEventLog.step (final SegmentedEventLog.step ∅ cs)
          ⟨env, .get segment i⟩).1 = .ok (.entry (some msg)) ∧
        (NaiveEventLog.step (final NaiveEventLog.step ∅ (merged cs)) ⟨env, .get j⟩).1 =
          .ok (.entry (some msg))

theorem naive_holds (cs : List (Invocation Address (SegmentedEventLog.Call Msg)))
    (hl : (cs.filterMap appended).length < 2 ^ 64) :
    NaiveEventLog.Holds (final NaiveEventLog.step ∅ (merged cs))
      ((cs.filterMap appended).map Prod.snd) := by
  rw [← merged_appended]
  exact NaiveEventLog.holds_run (merged cs) (by simpa [merged_appended] using hl)

/-- The replies to an accepted append: its place in its segment's list and in
the list of all. -/
theorem accepted_replies (hl : (cs.filterMap appended).length < 2 ^ 64) {env : Env Address}
    {segment : UInt32} {msg : Msg} (hp : pre ++ [⟨env, .append segment msg⟩] <+: cs)
    (hg : segment < SEGMENTS) : ∃ i j : U64,
      (SegmentedEventLog.step (final SegmentedEventLog.step ∅ pre)
        ⟨env, .append segment msg⟩).1 = .ok (.number i) ∧
      (NaiveEventLog.step (final NaiveEventLog.step ∅ (merged pre))
        ⟨env, .append msg⟩).1 = .ok (.number j) ∧
      i.val = (messages pre segment).length ∧ j.val = position cs segment i.val.toNat := by
  obtain ⟨post, rfl⟩ := hp
  have happ := appended_around pre post (appended_append env hg msg)
  rw [happ, List.length_append, List.length_cons] at hl
  have hlane := Interleave.length_lane_le (k := segment) (pre.filterMap appended)
  have hs := SegmentedEventLog.holds_run pre (by omega)
  have hn := naive_holds pre (by omega)
  have hi := (hs segment).tail
  have hj := hn.tail
  refine ⟨_, _, (SegmentedEventLog.step_append hs hg (by omega) env msg).1,
    (NaiveEventLog.step_append hn (by rw [List.length_map]; omega) env msg).1, hi, ?_⟩
  rw [hj, hi, position, happ, Int.toNat_natCast, Interleave.place_length_lane, List.length_map]

theorem same_message (hl : (cs.filterMap appended).length < 2 ^ 64) {segment : UInt32}
    {i j : U64} (hi : i.val < (messages cs segment).length)
    (hj : j.val = position cs segment i.val.toNat) (env : Env Address) :
    ∃ msg, (SegmentedEventLog.step (final SegmentedEventLog.step ∅ cs)
        ⟨env, .get segment i⟩).1 = .ok (.entry (some msg)) ∧
      (NaiveEventLog.step (final NaiveEventLog.step ∅ (merged cs)) ⟨env, .get j⟩).1 =
        .ok (.entry (some msg)) := by
  have h0 := i.lo_le
  have hi' : i.val.toNat < (messages cs segment).length := by omega
  have hs := (SegmentedEventLog.holds_run cs hl segment).entry i
  have hn := (naive_holds cs hl).entry j
  rw [hj, Int.toNat_natCast, List.getElem?_map, position, Interleave.item_at_place hi'] at hn
  refine ⟨(messages cs segment)[i.val.toNat], ?_, ?_⟩
  · rw [SegmentedEventLog.step_get, hs, ← List.getElem?_eq_getElem hi']
    rfl
  · rw [NaiveEventLog.step_get, hn]
    rfl

theorem merged_run (cs : List (Invocation Address (SegmentedEventLog.Call Msg)))
    (hl : (cs.filterMap appended).length < 2 ^ 64) : MergedAfter cs where
  rejected pre env segment msg _ hg := SegmentedEventLog.step_append_outOfRange hg env msg
  accepted pre env segment msg hp hg := accepted_replies hl hp hg
  segmentLen env segment hg :=
    ⟨_, SegmentedEventLog.step_segmentLen hg env, (SegmentedEventLog.holds_run cs hl segment).tail⟩
  get env segment index := by
    rw [SegmentedEventLog.step_get, (SegmentedEventLog.holds_run cs hl segment).entry index]
    rfl
  total env := by
    have hv := (naive_holds cs hl).tail
    rw [List.length_map] at hv
    exact ⟨_, SegmentedEventLog.step_totalLen (SegmentedEventLog.holds_run cs hl)
      (fun _ => mem_appended_lt) hv env, NaiveEventLog.step_entryCount env, hv⟩
  bijection := by
    rw [← positions_eq]
    exact Interleave.place_bijOn _
  increasing segment := Interleave.place_strictMonoOn segment _
  sameMessage env segment i j hi hj := same_message hl hi hj env

/-- After every step of every run with fewer than `2 ^ 64` accepted appends. -/
theorem segments_merge (cs : List (Invocation Address (SegmentedEventLog.Call Msg)))
    (hl : (cs.filterMap appended).length < 2 ^ 64) : ∀ pre, pre <+: cs → MergedAfter pre := by
  intro pre hp
  have hlen := (hp.filterMap appended).length_le
  exact merged_run pre (by omega)

theorem segments_merge_interleaved :
    let cs : List (Invocation Nat (SegmentedEventLog.Call Nat)) := [⟨⟨∅⟩, .append 2 10⟩,
      ⟨⟨∅⟩, .append 0 11⟩, ⟨⟨∅⟩, .append 9 12⟩, ⟨⟨∅⟩, .get 2 0⟩, ⟨⟨∅⟩, .append 2 13⟩]
    ∀ pre, pre <+: cs → MergedAfter pre := segments_merge _ (by decide)

end EventLog
