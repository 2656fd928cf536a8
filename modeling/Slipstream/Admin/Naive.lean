import Slipstream.Base.Ranged
import Slipstream.Host.Footprint

/-!
# Settings under one key each

`NaiveAdmin` writes a vector of settings one key at a time, and removes none.
What a run of `set_config` calls leaves is told by the whole history: each
setting is the one of the last vector that was long enough to hold it.
-/

namespace NaiveAdmin

open Host (Env Fault Footprint Invocation getOr)
open Run (final)

variable {Address : Type}

inductive DataKey
  | setting (index : UInt32)
  deriving DecidableEq

abbrev Value : DataKey → Type
  | .setting _ => I128

abbrev Ledger := Host.Store Value

abbrev Program (α : Type) := Host.Prog Value Empty α

/-- A vector of the SDK; its length is a `u32`. -/
structure SdkVec (α : Type) where
  toList : List α
  length_lt : toList.length < 2 ^ 32

def SdkVec.length {α : Type} (values : SdkVec α) : Nat := values.toList.length

/-- One pass of the loop of `set_config`. -/
def writeSetting (x : I128 × Nat) : Program Unit :=
  Host.set (.setting (UInt32.ofNat x.2)) x.1

def setConfig (values : SdkVec I128) : Program Unit := values.toList.zipIdx.forM writeSetting

def getSetting (index : UInt32) : Program I128 := getOr (.setting index) 0

inductive Call
  | setConfig (values : SdkVec I128)
  | getSetting (index : UInt32)

inductive Reply
  | unit
  | setting (value : I128)
  deriving DecidableEq, Repr

def dispatch (_ : Env Address) : Call → Program Reply
  | .setConfig values => do
    setConfig values
    return .unit
  | .getSetting index => do return .setting (← getSetting index)

abbrev step (s : Ledger) (i : Invocation Address Call) : Except (Fault Empty) Reply × Ledger :=
  Host.step dispatch s i

-- ---------------------------------------------------------------------------
-- Footprints
-- ---------------------------------------------------------------------------

def footprint : Call → Footprint DataKey
  | .setConfig values =>
    { reads := ∅, writes := {k | ∃ i : UInt32, i.toNat < values.length ∧ k = .setting i} }
  | .getSetting index => { reads := {.setting index}, writes := ∅ }

theorem toNat_index {values : SdkVec I128} {x : I128 × Nat} (hx : x ∈ values.toList.zipIdx) :
    (UInt32.ofNat x.2).toNat = x.2 ∧ x.2 < values.length := by
  have hlt : x.2 < values.length := by
    obtain ⟨-, hlt, -⟩ := List.mem_zipIdx hx
    rwa [Nat.zero_add] at hlt
  exact ⟨UInt32.toNat_ofNat_of_lt' (Nat.lt_trans hlt values.length_lt), hlt⟩

theorem covers (env : Env Address) (c : Call) : (footprint c).Covers (dispatch env c) := by
  cases c with
  | setConfig values =>
    refine Host.covers_bind (Host.covers_forM fun x hx => Host.covers_set ?_ _) fun _ =>
      Host.covers_pure _
    obtain ⟨hi, hlt⟩ := toNat_index hx
    exact ⟨UInt32.ofNat x.2, by rwa [hi], rfl⟩
  | getSetting index =>
    exact Host.covers_bind (Host.covers_getOr (.inl rfl) _) fun _ => Host.covers_pure _

-- ---------------------------------------------------------------------------
-- One call
-- ---------------------------------------------------------------------------

variable {s : Ledger}

theorem lookup_insert (s : Ledger) (i j : UInt32) (v : I128) :
    (s.insert (.setting j) v).lookup (.setting i) =
      if i = j then some v else s.lookup (.setting i) := by
  split
  · next h => rw [h, Finmap.lookup_insert]
  · next h => exact Finmap.lookup_insert_of_ne _ fun he => h (DataKey.setting.inj he)

/-- The loop from index `k` on: an index it reaches reads as its value, any
other as before. -/
theorem run_writes {l : List I128} {k : Nat} (hk : k + l.length ≤ 2 ^ 32) (s : Ledger) :
    ∃ s', ((l.zipIdx k).forM writeSetting).run s = .ok ((), s') ∧
      ∀ i : UInt32, s'.lookup (.setting i) =
        if k ≤ i.toNat then l[i.toNat - k]?.or (s.lookup (.setting i))
        else s.lookup (.setting i) := by
  induction l generalizing k s with
  | nil => exact ⟨s, rfl, fun i => by simp⟩
  | cons v l ih =>
    have hlen : k + 1 + l.length ≤ 2 ^ 32 := by
      rw [List.length_cons] at hk
      omega
    obtain ⟨s', hr, hs'⟩ := ih hlen (s.insert (.setting (UInt32.ofNat k)) v)
    refine ⟨s', ?_, fun i => ?_⟩
    · simpa [writeSetting] using hr
    · have hik : i = UInt32.ofNat k ↔ i.toNat = k := by
        rw [← UInt32.toNat_inj, UInt32.toNat_ofNat_of_lt' (by simp [UInt32.size]; omega)]
      rw [hs' i, lookup_insert]
      rcases Nat.lt_trichotomy i.toNat k with hlt | heq | hgt
      · have hnext : ¬ k + 1 ≤ i.toNat := by omega
        rw [if_neg hnext, if_neg (Nat.not_le.mpr hlt), if_neg fun h => hlt.ne (hik.mp h)]
      · have hnext : ¬ k + 1 ≤ i.toNat := by omega
        rw [if_neg hnext, if_pos heq.ge, if_pos (hik.mpr heq), heq, Nat.sub_self]
        rfl
      · obtain ⟨d, hd⟩ : ∃ d, i.toNat = k + 1 + d := ⟨i.toNat - (k + 1), by omega⟩
        rw [if_pos (Nat.succ_le_of_lt hgt), if_pos hgt.le, if_neg fun h => hgt.ne' (hik.mp h)]
        have hnext : i.toNat - (k + 1) = d := by omega
        have hhere : i.toNat - k = d + 1 := by omega
        rw [hnext, hhere, List.getElem?_cons_succ]

theorem step_setConfig (env : Env Address) (values : SdkVec I128) (s : Ledger) :
    ∃ s', step s ⟨env, .setConfig values⟩ = (.ok .unit, s') ∧
      ∀ i : UInt32, s'.lookup (.setting i) =
        values.toList[i.toNat]?.or (s.lookup (.setting i)) := by
  have hlen : 0 + values.toList.length ≤ 2 ^ 32 := by
    rw [Nat.zero_add]
    exact values.length_lt.le
  obtain ⟨s', hr, hs'⟩ := run_writes hlen s
  refine ⟨s', Host.invoke_of_ok (Host.bind_ok.mpr ⟨(), s', hr, rfl⟩), fun i => ?_⟩
  rw [hs' i, if_pos (Nat.zero_le _)]
  rfl

theorem step_getSetting (env : Env Address) (index : UInt32) (s : Ledger) :
    step s ⟨env, .getSetting index⟩ =
      (.ok (.setting ((s.lookup (.setting index)).getD 0)), s) := rfl

-- ---------------------------------------------------------------------------
-- Every run
-- ---------------------------------------------------------------------------

def given (i : Invocation Address Call) : Option (SdkVec I128) :=
  match i.call with
  | .setConfig values => some values
  | .getSetting _ => none

def longest (vs : List (SdkVec I128)) : Nat := vs.foldl (fun m v => max m v.length) 0

/-- The element at an index of the last vector that is longer than it. -/
def latest (vs : List (SdkVec I128)) (i : Nat) : Option I128 :=
  (vs.reverse.find? fun v => i < v.length).bind fun v => v.toList[i]?

variable {vs : List (SdkVec I128)} {v : SdkVec I128} {i : Nat}

theorem longest_snoc : longest (vs ++ [v]) = max (longest vs) v.length := by
  simp [longest]

theorem latest_snoc : latest (vs ++ [v]) i = v.toList[i]?.or (latest vs i) := by
  unfold latest
  rw [List.reverse_append, List.reverse_singleton, List.singleton_append, List.find?_cons]
  by_cases h : i < v.length
  · have hi : v.toList[i]? = some (v.toList[i]) := List.getElem?_eq_getElem h
    simp [h, hi]
  · have hi : v.toList[i]? = none := List.getElem?_eq_none (Nat.le_of_not_lt h)
    simp [h, hi]

theorem latest_isSome : (latest vs i).isSome ↔ i < longest vs := by
  induction vs using List.reverseRecOn with
  | nil => simp [latest, longest]
  | append_singleton vs v ih =>
    rw [latest_snoc, longest_snoc, Option.isSome_or, Bool.or_eq_true, ih, isSome_getElem?,
      lt_max_iff, or_comm]
    rfl

theorem lookup_run (cs : List (Invocation Address Call)) (i : UInt32) :
    (final step ∅ cs).lookup (.setting i) = latest (cs.filterMap given) i.toNat := by
  induction cs using List.reverseRecOn with
  | nil => exact Finmap.lookup_empty _
  | append_singleton cs c ih =>
    obtain ⟨env, call⟩ := c
    rw [Run.final_snoc, Run.filterMap_snoc]
    cases call with
    | setConfig values =>
      obtain ⟨s', hi, hs'⟩ := step_setConfig env values (final step ∅ cs)
      rw [hi]
      exact (hs' i).trans (by rw [ih]; exact latest_snoc.symm)
    | getSetting index =>
      rw [step_getSetting]
      simpa [given] using ih

/-- What a run leaves: the keys of the longest vector, and in each the element
of the last vector that reached it. -/
structure Configured (cs : List (Invocation Address Call)) : Prop where
  keys : {k | k ∈ final step ∅ cs} =
    (fun i : UInt32 => DataKey.setting i) '' {i | i.toNat < longest (cs.filterMap given)}
  getSetting : ∀ (env : Env Address) (index : UInt32),
    step (final step ∅ cs) ⟨env, .getSetting index⟩ =
      (.ok (.setting ((latest (cs.filterMap given) index.toNat).getD 0)), final step ∅ cs)

theorem settings_configured (cs : List (Invocation Address Call)) : Configured cs where
  keys := by
    ext ⟨i⟩
    have hmem : DataKey.setting i ∈ final step ∅ cs ↔
        ((final step ∅ cs).lookup (.setting i)).isSome := Finmap.lookup_isSome.symm
    rw [Set.mem_ofPred_eq, hmem, lookup_run, latest_isSome]
    constructor
    · exact fun h => ⟨i, h, rfl⟩
    · rintro ⟨j, hj, he⟩
      cases he
      exact hj
  getSetting env index := by rw [step_getSetting, lookup_run]

end NaiveAdmin
