import Slipstream.Host.Footprint
import Slipstream.Host.Loop

/-!
# A counter spread over shards

`ShardedCounter` keeps one counter per shard: `increment` touches one shard,
`total` reads them all and adds them up.
-/

namespace ShardedCounter

open Host (Env Fault Footprint Invocation checked getOr upTo)

variable {Address : Type}

def SHARDS : UInt32 := 8

inductive DataKey
  | shard (index : UInt32)
  deriving DecidableEq

abbrev Value : DataKey → Type
  | .shard _ => U64

abbrev Ledger := Host.Store Value

inductive Error
  | shardOutOfRange
  deriving DecidableEq, Repr

abbrev Program (α : Type) := Host.Prog Value Error α

def increment (shard : UInt32) : Program U64 :=
  if shard ≥ SHARDS then Host.fail (.error .shardOutOfRange)
  else do
    let value : U64 ← getOr (.shard shard) 0
    let value ← checked (value.add? 1)
    Host.set (.shard shard) value
    return value

def shardTotal (shard : UInt32) : Program U64 :=
  if shard ≥ SHARDS then Host.fail (.error .shardOutOfRange)
  else getOr (.shard shard) 0

def total : Program U64 := (upTo SHARDS).foldlM (fun sum shard => do
  let value : U64 ← getOr (.shard shard) 0
  checked (sum.add? value)) 0

def shards : Program UInt32 := return SHARDS

inductive Call
  | increment (shard : UInt32)
  | shardTotal (shard : UInt32)
  | total
  | shards

inductive Reply
  | count (value : U64)
  | shards (value : UInt32)
  deriving DecidableEq, Repr

def dispatch (_ : Env Address) : Call → Program Reply
  | .increment shard => do return .count (← increment shard)
  | .shardTotal shard => do return .count (← shardTotal shard)
  | .total => do return .count (← total)
  | .shards => do return .shards (← shards)

abbrev step (s : Ledger) (i : Invocation Address Call) : Except (Fault Error) Reply × Ledger :=
  Host.step dispatch s i

-- ---------------------------------------------------------------------------
-- Footprints
-- ---------------------------------------------------------------------------

def footprint : Call → Footprint DataKey
  | .increment shard => { reads := ∅, writes := {.shard shard} }
  | .shardTotal shard => { reads := {.shard shard}, writes := ∅ }
  | .total => { reads := {k | ∃ i < SHARDS, k = .shard i}, writes := ∅ }
  | .shards => { reads := ∅, writes := ∅ }

theorem covers (env : Env Address) (c : Call) : (footprint c).Covers (dispatch env c) := by
  cases c with
  | increment shard =>
    refine Host.covers_bind ?_ fun _ => Host.covers_pure _
    unfold increment
    split
    · exact Host.covers_fail _
    · refine Host.covers_bind (Host.covers_getOr (.inr rfl) _) fun _ => ?_
      refine Host.covers_bind (Host.covers_checked _) fun _ => ?_
      exact Host.covers_bind (Host.covers_set rfl _) fun _ => Host.covers_pure _
  | shardTotal shard =>
    refine Host.covers_bind ?_ fun _ => Host.covers_pure _
    unfold shardTotal
    split
    · exact Host.covers_fail _
    · exact Host.covers_getOr (.inl rfl) _
  | total =>
    refine Host.covers_bind (Host.covers_foldlM ?_ _) fun _ => Host.covers_pure _
    intro shard hshard sum
    refine Host.covers_bind (Host.covers_getOr (.inl ?_) _) fun _ => Host.covers_checked _
    exact ⟨shard, Host.mem_upTo.mp hshard, rfl⟩
  | shards => exact Host.covers_bind (Host.covers_pure _) fun _ => Host.covers_pure _

-- ---------------------------------------------------------------------------
-- One call
-- ---------------------------------------------------------------------------

def countOf (s : Ledger) (shard : UInt32) : U64 := Host.valueAt s (.shard shard) 0

variable {s s' : Ledger} {shard : UInt32}

theorem countOf_empty (shard : UInt32) : countOf ∅ shard = 0 := Host.valueAt_empty ..

theorem countOf_insert (v : U64) :
    countOf (s.insert (.shard shard) v) = Function.update (countOf s) shard v :=
  Host.valueAt_insert_update (fun _ _ => DataKey.shard.inj) s shard v fun _ => 0

theorem increment_ok {v : U64} :
    (increment shard).run s = .ok (v, s') ↔ shard < SHARDS ∧
      v.val = (countOf s shard).val + 1 ∧ s' = s.insert (.shard shard) v := by
  unfold increment
  split
  · next h => simp [UInt32.not_lt.mpr h]
  · next h =>
    simp only [UInt32.not_le.mp h, true_and, Host.bind_ok, Host.getOr_ok, Host.checked_ok,
      Host.set_ok, Ranged.add?_eq_some, Host.run_pure]
    constructor
    · rintro ⟨_, _, ⟨rfl, rfl⟩, w, _, ⟨hw, rfl⟩, _, _, rfl, hr⟩
      cases hr
      exact ⟨hw, rfl⟩
    · rintro ⟨hv, rfl⟩
      exact ⟨_, s, ⟨rfl, rfl⟩, v, s, ⟨hv, rfl⟩, (), _, rfl, rfl⟩

theorem step_increment_outOfRange (h : SHARDS ≤ shard) (env : Env Address) :
    step s ⟨env, .increment shard⟩ = (.error (.error .shardOutOfRange), s) := by
  apply Host.invoke_of_error
  simp [dispatch, increment, h]

theorem step_increment (hg : shard < SHARDS) (h : (countOf s shard).val + 1 ≤ 2 ^ 64 - 1)
    (env : Env Address) :
    ∃ v : U64, v.val = (countOf s shard).val + 1 ∧
      step s ⟨env, .increment shard⟩ = (.ok (.count v), s.insert (.shard shard) v) := by
  obtain ⟨v, hv⟩ := Ranged.exists_succ.mpr h
  have hd : (dispatch env (.increment shard)).run s = .ok (.count v, _) :=
    Host.bind_ok.mpr ⟨v, _, increment_ok.mpr ⟨hg, hv, rfl⟩, rfl⟩
  exact ⟨v, hv, Host.invoke_of_ok hd⟩

theorem step_shardTotal (hg : shard < SHARDS) (env : Env Address) :
    step s ⟨env, .shardTotal shard⟩ = (.ok (.count (countOf s shard)), s) := by
  apply Host.invoke_of_ok
  simp [dispatch, shardTotal, UInt32.not_le.mpr hg, countOf]

def HasRoom (s : Ledger) (shard : UInt32) : Prop := (countOf s shard).val + 1 ≤ 2 ^ 64 - 1

instance (s : Ledger) : DecidablePred (HasRoom s) := fun _ => Int.decLe ..

theorem hasRoom_empty (shard : UInt32) : HasRoom ∅ shard := by
  rw [HasRoom, countOf_empty]
  decide

theorem touched_increment (hg : shard < SHARDS) (s : Ledger) (env : Env Address) :
    (dispatch env (.increment shard)).reads s = {.shard shard} ∧
      (dispatch env (.increment shard)).writes s =
        if HasRoom s shard then {.shard shard} else ∅ := by
  have hv : Host.valueAt s (.shard shard) 0 = countOf s shard := rfl
  obtain ⟨hr, v, ha⟩ | ⟨hr, ha⟩ := Ranged.U64.add?_one (countOf s shard)
  · have hr : HasRoom s shard := hr
    simp [dispatch, increment, UInt32.not_le.mpr hg, hv, ha, hr]
  · have hr : ¬ HasRoom s shard := Int.not_le.mpr hr
    simp [dispatch, increment, UInt32.not_le.mpr hg, hv, ha, hr]

/-- The exact sum of all shards. -/
def sumOf (s : Ledger) : Int := ((upTo SHARDS).map fun g => (countOf s g).val).sum

theorem read_shard (g : UInt32) :
    (getOr (DataKey.shard g) 0 : Program U64).run s = .ok (countOf s g, s) := rfl

/-- `total` returns the exact sum of the shards, or traps when it does not fit. -/
theorem step_total (s : Ledger) (env : Env Address) :
    (sumOf s < 2 ^ 64 ∧ ∃ v : U64, v.val = sumOf s ∧
      step s ⟨env, .total⟩ = (.ok (.count v), s)) ∨
    (2 ^ 64 ≤ sumOf s ∧ step s ⟨env, .total⟩ = (.error .overflow, s)) := by
  obtain ⟨v, s', hr, hi⟩ | ⟨f, hr, hi⟩ := Host.invoke_map_cases total Reply.count s
  · obtain ⟨hv, rfl⟩ := (Host.sum_ok read_shard).mp hr
    have hv : v.val = sumOf s' := by simpa [sumOf] using hv
    have hle := v.le_hi
    exact .inl ⟨by omega, v, hv, hi⟩
  · obtain ⟨hf, hsum⟩ := Host.sum_fault read_shard hr
    have hsum : 2 ^ 64 - 1 < sumOf s := by simpa [sumOf] using hsum
    exact .inr ⟨by omega, hf ▸ hi⟩

end ShardedCounter
