import Slipstream.Base.Interleave
import Slipstream.Base.Tape
import Slipstream.Host.Footprint
import Slipstream.Host.Loop
import Mathlib.Algebra.BigOperators.Ring.Finset

/-!
# An event log in segments

`SegmentedEventLog` keeps one list per segment, each behind its own tail.
-/

namespace SegmentedEventLog

open Host (Env Fault Footprint Invocation checked getOr upTo)
open Interleave (lane)
open Run (final)

variable {Address Msg : Type}

def SEGMENTS : UInt32 := 8

inductive DataKey
  | segmentTail (segment : UInt32)
  | entry (segment : UInt32) (index : U64)
  deriving DecidableEq

abbrev Value (Msg : Type) : DataKey → Type
  | .segmentTail _ => U64
  | .entry _ _ => Msg

abbrev Ledger (Msg : Type) := Host.Store (Value Msg)

inductive Error
  | segmentOutOfRange
  deriving DecidableEq, Repr

abbrev Program (Msg α : Type) := Host.Prog (Value Msg) Error α

def append (segment : UInt32) (msg : Msg) : Program Msg U64 :=
  if segment ≥ SEGMENTS then Host.fail (.error .segmentOutOfRange)
  else do
    let tail : U64 ← getOr (DataKey.segmentTail segment) 0
    Host.set (DataKey.entry segment tail) msg
    let next ← checked (tail.add? 1)
    Host.set (DataKey.segmentTail segment) next
    return tail

def segmentLen (segment : UInt32) : Program Msg U64 :=
  if segment ≥ SEGMENTS then Host.fail (.error .segmentOutOfRange)
  else getOr (DataKey.segmentTail segment) 0

def totalLen : Program Msg U64 := (upTo SEGMENTS).foldlM (fun sum segment => do
  let tail : U64 ← getOr (DataKey.segmentTail segment) 0
  checked (sum.add? tail)) 0

def get (segment : UInt32) (index : U64) : Program Msg (Option Msg) :=
  Host.get (DataKey.entry segment index)

def segments : Program Msg UInt32 := return SEGMENTS

inductive Call (Msg : Type)
  | append (segment : UInt32) (msg : Msg)
  | segmentLen (segment : UInt32)
  | totalLen
  | get (segment : UInt32) (index : U64)
  | segments

inductive Reply (Msg : Type)
  | number (value : U64)
  | entry (msg : Option Msg)
  | segments (value : UInt32)
  deriving DecidableEq, Repr

def dispatch (_ : Env Address) : Call Msg → Program Msg (Reply Msg)
  | .append segment msg => do return .number (← append segment msg)
  | .segmentLen segment => do return .number (← segmentLen segment)
  | .totalLen => do return .number (← totalLen)
  | .get segment index => do return .entry (← get segment index)
  | .segments => do return .segments (← segments)

abbrev step (s : Ledger Msg) (i : Invocation Address (Call Msg)) :
    Except (Fault Error) (Reply Msg) × Ledger Msg := Host.step dispatch s i

-- ---------------------------------------------------------------------------
-- Footprints
-- ---------------------------------------------------------------------------

def keysOf (segment : UInt32) : Set DataKey :=
  {k | k = .segmentTail segment ∨ ∃ index, k = .entry segment index}

theorem segmentTail_mem_keysOf (segment : UInt32) : .segmentTail segment ∈ keysOf segment :=
  .inl rfl

theorem entry_mem_keysOf (segment : UInt32) (index : U64) :
    .entry segment index ∈ keysOf segment := .inr ⟨index, rfl⟩

theorem eq_of_mem_keysOf {g h : UInt32} {k : DataKey} (hg : k ∈ keysOf g) (hh : k ∈ keysOf h) :
    g = h := by
  obtain rfl | ⟨index, rfl⟩ := hg
  · obtain he | ⟨_, he⟩ := hh
    · exact DataKey.segmentTail.inj he
    · cases he
  · obtain he | ⟨_, he⟩ := hh
    · cases he
    · exact (DataKey.entry.inj he).1

/-- An append is documented to write `SegmentTail(segment)` and the entry at that
tail. The tail is known only at run time, so an append covers every entry of its
segment. -/
def footprint : Call Msg → Footprint DataKey
  | .append segment _ => { reads := ∅, writes := keysOf segment }
  | .segmentLen segment => { reads := {.segmentTail segment}, writes := ∅ }
  | .totalLen => { reads := {k | ∃ i < SEGMENTS, k = .segmentTail i}, writes := ∅ }
  | .get segment index => { reads := {.entry segment index}, writes := ∅ }
  | .segments => { reads := ∅, writes := ∅ }

theorem covers (env : Env Address) (c : Call Msg) : (footprint c).Covers (dispatch env c) := by
  cases c with
  | append segment msg =>
    refine Host.covers_bind ?_ fun _ => Host.covers_pure _
    unfold append
    split
    · exact Host.covers_fail _
    · have htail := segmentTail_mem_keysOf segment
      refine Host.covers_bind (Host.covers_getOr (.inr htail) _) fun tail => ?_
      refine Host.covers_bind (Host.covers_set (entry_mem_keysOf segment tail) _) fun _ => ?_
      refine Host.covers_bind (Host.covers_checked _) fun _ => ?_
      exact Host.covers_bind (Host.covers_set htail _) fun _ => Host.covers_pure _
  | segmentLen segment =>
    refine Host.covers_bind ?_ fun _ => Host.covers_pure _
    unfold segmentLen
    split
    · exact Host.covers_fail _
    · exact Host.covers_getOr (.inl rfl) _
  | totalLen =>
    refine Host.covers_bind (Host.covers_foldlM ?_ _) fun _ => Host.covers_pure _
    intro segment hsegment sum
    refine Host.covers_bind (Host.covers_getOr (.inl ?_) _) fun _ => Host.covers_checked _
    exact ⟨segment, Host.mem_upTo.mp hsegment, rfl⟩
  | get segment index =>
    exact Host.covers_bind (Host.covers_get (.inl rfl)) fun _ => Host.covers_pure _
  | segments => exact Host.covers_bind (Host.covers_pure _) fun _ => Host.covers_pure _

theorem eq_of_conflict {g h : UInt32} {msg msg' : Msg}
    (hc : (footprint (.append g msg)).Conflict (footprint (.append h msg'))) : g = h := by
  obtain ⟨k, hk, hk'⟩ | ⟨k, hk, hk'⟩ := hc
  · exact eq_of_mem_keysOf hk (hk'.resolve_left id)
  · exact eq_of_mem_keysOf (hk'.resolve_left id) hk

-- ---------------------------------------------------------------------------
-- The ledger as one list per segment
-- ---------------------------------------------------------------------------

def tailOf (s : Ledger Msg) (segment : UInt32) : U64 := Host.valueAt s (.segmentTail segment) 0

def entryOf (s : Ledger Msg) (segment : UInt32) (index : U64) : Option Msg :=
  s.lookup (.entry segment index)

/-- Each segment holds exactly its messages, in order. -/
def Holds (s : Ledger Msg) (l : UInt32 → List Msg) : Prop :=
  ∀ segment, Tape.Holds (tailOf s segment) (entryOf s segment) (l segment)

variable {s s' : Ledger Msg} {l : UInt32 → List Msg}

theorem holds_empty : Holds (∅ : Ledger Msg) fun _ => [] := by
  intro segment
  rw [tailOf, Host.valueAt_empty]
  exact Tape.holds_nil fun i => by simp [entryOf]

theorem append_ok {segment : UInt32} {msg : Msg} {r : U64} :
    (append segment msg).run s = .ok (r, s') ↔ segment < SEGMENTS ∧ r = tailOf s segment ∧
      ∃ next : U64, next.val = r.val + 1 ∧
        s' = (s.insert (.entry segment r) msg).insert (.segmentTail segment) next := by
  unfold append
  split
  · next h => simp [UInt32.not_lt.mpr h]
  · next h =>
    simp only [UInt32.not_le.mp h, true_and, Host.bind_ok, Host.getOr_ok, Host.checked_ok,
      Host.set_ok, Ranged.add?_eq_some, Host.run_pure]
    constructor
    · rintro ⟨_, _, ⟨rfl, rfl⟩, _, _, rfl, next, _, ⟨hn, rfl⟩, _, _, rfl, hr⟩
      cases hr
      exact ⟨rfl, next, hn, rfl⟩
    · rintro ⟨rfl, next, hn, rfl⟩
      exact ⟨_, s, ⟨rfl, rfl⟩, (), _, rfl, next, _, ⟨hn, rfl⟩, (), _, rfl, rfl⟩

theorem Holds.append (h : Holds s l) {segment : UInt32} {next : U64}
    (hn : next.val = (tailOf s segment).val + 1) (msg : Msg) :
    Holds ((s.insert (.entry segment (tailOf s segment)) msg).insert (.segmentTail segment) next)
      (Function.update l segment (l segment ++ [msg])) := by
  intro g
  by_cases hg : g = segment
  · subst hg
    have ht : tailOf ((s.insert (.entry g (tailOf s g)) msg).insert (.segmentTail g) next) g =
        next := by simp [tailOf]
    have he : entryOf ((s.insert (.entry g (tailOf s g)) msg).insert (.segmentTail g) next) g =
        Function.update (entryOf s g) (tailOf s g) (some msg) := by
      refine Eq.trans ?_ (Host.lookup_insert_update
        (fun _ _ he => (DataKey.entry.inj he).2) s _ msg)
      funext i
      exact Finmap.lookup_insert_of_ne _ DataKey.noConfusion
    rw [ht, he, Function.update_self]
    exact (h g).append hn msg
  · have ht (m : Msg) (i : U64) : tailOf ((s.insert (.entry segment i) m).insert
        (.segmentTail segment) next) g = tailOf s g := by
      simp [tailOf, Host.valueAt_insert_of_ne, hg]
    have he (m : Msg) (i : U64) : entryOf ((s.insert (.entry segment i) m).insert
        (.segmentTail segment) next) g = entryOf s g := by
      funext j
      simp [entryOf, Finmap.lookup_insert_of_ne, hg]
    rw [ht, he, Function.update_of_ne hg]
    exact h g

theorem step_append_outOfRange {segment : UInt32} (hg : SEGMENTS ≤ segment) (env : Env Address)
    (msg : Msg) :
    step s ⟨env, .append segment msg⟩ = (.error (.error .segmentOutOfRange), s) := by
  apply Host.invoke_of_error
  simp [dispatch, append, hg]

/-- While its list is short of `2 ^ 64` entries, an append returns the length
of its segment's list and appends to it. -/
theorem step_append (h : Holds s l) {segment : UInt32} (hg : segment < SEGMENTS)
    (hl : (l segment).length + 1 < 2 ^ 64) (env : Env Address) (msg : Msg) :
    (step s ⟨env, .append segment msg⟩).1 = .ok (.number (tailOf s segment)) ∧
      Holds (step s ⟨env, .append segment msg⟩).2
        (Function.update l segment (l segment ++ [msg])) := by
  have ht := (h segment).tail
  obtain ⟨next, hn⟩ :=
    Ranged.exists_succ.mpr (by omega : (tailOf s segment).val + 1 ≤ 2 ^ 64 - 1)
  have hd : (dispatch env (.append segment msg)).run s =
      .ok (.number (tailOf s segment), _) :=
    Host.bind_ok.mpr ⟨tailOf s segment, _, append_ok.mpr ⟨hg, rfl, next, hn, rfl⟩, rfl⟩
  rw [step, Host.step, Host.invoke_of_ok hd]
  exact ⟨rfl, h.append hn msg⟩

theorem entry_mem_writes_append {segment : UInt32} (hg : segment < SEGMENTS) (s : Ledger Msg)
    (env : Env Address) (msg : Msg) :
    .entry segment (tailOf s segment) ∈ (dispatch env (.append segment msg)).writes s := by
  simp [dispatch, append, UInt32.not_le.mpr hg, tailOf]

def appended (i : Invocation Address (Call Msg)) : Option (UInt32 × Msg) :=
  match i.call with
  | .append segment msg => if segment < SEGMENTS then some (segment, msg) else none
  | _ => none

theorem lane_snoc (as : List (UInt32 × Msg)) (segment : UInt32) (msg : Msg) :
    (fun g => lane g (as ++ [(segment, msg)])) =
      Function.update (fun g => lane g as) segment (lane segment as ++ [msg]) := by
  funext g
  rw [Interleave.lane_append]
  by_cases hg : segment = g
  · subst hg
    rw [Interleave.lane_cons_self, Function.update_self, Interleave.lane_nil]
  · rw [Interleave.lane_cons_of_ne hg, Function.update_of_ne (Ne.symm hg), Interleave.lane_nil,
      List.append_nil]

theorem holds_step {as : List (UInt32 × Msg)} (h : Holds s fun g => lane g as)
    (i : Invocation Address (Call Msg)) (hl : (as ++ (appended i).toList).length < 2 ^ 64) :
    Holds (step s i).2 fun g => lane g (as ++ (appended i).toList) := by
  obtain ⟨env, call⟩ := i
  have hread (hw : (footprint call).writes = ∅) : (step s ⟨env, call⟩).2 = s :=
    Host.invoke_readOnly (covers env call) hw
  cases call with
  | append segment msg =>
    by_cases hg : segment < SEGMENTS
    · simp only [appended, hg, if_true, Option.toList, List.length_append,
        List.length_singleton] at hl ⊢
      have hlane := Interleave.length_lane_le (k := segment) as
      rw [lane_snoc]
      exact (step_append h hg (by omega) env msg).2
    · rw [step_append_outOfRange (UInt32.not_lt.mp hg)]
      simpa [appended, hg] using h
  | _ =>
    rw [hread rfl]
    simpa [appended] using h

theorem holds_run (cs : List (Invocation Address (Call Msg)))
    (hl : (cs.filterMap appended).length < 2 ^ 64) :
    Holds (final step ∅ cs) fun g => lane g (cs.filterMap appended) := by
  refine Run.prefix_induct (B := fun cs => (cs.filterMap appended).length < 2 ^ 64)
    (P := fun cs => Holds (final step ∅ cs) fun g => lane g (cs.filterMap appended))
    (fun cs i => Run.length_filterMap_lt_of_snoc) holds_empty (fun cs i hb h => ?_) cs hl
  rw [Run.filterMap_snoc] at hb ⊢
  rw [Run.final_snoc]
  exact holds_step h i hb

-- ---------------------------------------------------------------------------
-- What the readers answer
-- ---------------------------------------------------------------------------

theorem step_segmentLen {segment : UInt32} (hg : segment < SEGMENTS) (env : Env Address) :
    step s ⟨env, .segmentLen segment⟩ = (.ok (.number (tailOf s segment)), s) := by
  apply Host.invoke_of_ok
  simp [dispatch, segmentLen, UInt32.not_le.mpr hg, tailOf]

theorem step_get (env : Env Address) (segment : UInt32) (index : U64) :
    step s ⟨env, .get segment index⟩ = (.ok (.entry (entryOf s segment index)), s) := rfl

theorem step_totalLen {as : List (UInt32 × Msg)} (h : Holds s fun g => lane g as)
    (has : ∀ x ∈ as, x.1 < SEGMENTS) {v : U64} (hv : v.val = as.length) (env : Env Address) :
    step s ⟨env, .totalLen⟩ = (.ok (.number v), s) := by
  have ht (g) : (tailOf s g).val = (lane g as).length := (h g).tail
  have hread (g) : (getOr (DataKey.segmentTail g) 0 : Program Msg U64).run s =
      .ok (tailOf s g, s) := rfl
  have hsum : ((upTo SEGMENTS).map fun g => (tailOf s g).val).sum = as.length := by
    rw [← Interleave.sum_length_lane (Host.nodup_upTo SEGMENTS)
      fun x hx => Host.mem_upTo.mpr (has x hx)]
    simp only [ht]
    rw [Nat.cast_list_sum, List.map_map]
    rfl
  have hrun : totalLen.run s = .ok (v, s) :=
    (Host.sum_ok hread).mpr ⟨by rw [hsum, hv]; simp, rfl⟩
  exact Host.invoke_of_ok (Host.bind_ok.mpr ⟨v, s, hrun, rfl⟩)

end SegmentedEventLog
