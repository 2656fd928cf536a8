import Slipstream.Base.Count
import Slipstream.Counter.Totals

/-!
# Counters that fill up

The counters on runs of any length, from any ledgers. A full shard refuses
further increments and the others go on, so the shards count each for itself;
the single counter stops for everybody.
-/

namespace Counter

open Host (Env Invocation upTo)
open Run (final)
open ShardedCounter (SHARDS countOf)

variable {Address : Type}

def ofShard (g : UInt32) (i : Invocation Address ShardedCounter.Call) : Option Unit :=
  if inRange i = some g then some () else none

def shardAnswer (g : UInt32) : Invocation Address ShardedCounter.Call ×
    Except (Host.Fault ShardedCounter.Error) ShardedCounter.Reply → Option U64
  | (⟨_, .increment shard⟩, .ok (.count v)) => if shard = g then some v else none
  | _ => none

def ofCounter (i : Invocation Address NaiveCounter.Call) : Option Unit :=
  match i.call with
  | .increment => some ()
  | .total => none

def counterAnswer : Invocation Address NaiveCounter.Call × Except (Host.Fault Empty) U64 →
    Option U64
  | (⟨_, .increment⟩, .ok v) => some v
  | _ => none

-- ---------------------------------------------------------------------------
-- One call
-- ---------------------------------------------------------------------------

variable {g : UInt32}

/-- An increment of a shard, with room or without. -/
theorem step_shard (hg : g < SHARDS) (s : ShardedCounter.Ledger) (env : Env Address) :
    (∃ v : U64, (countOf s g).add? 1 = some v ∧ ShardedCounter.step s ⟨env, .increment g⟩ =
      (.ok (.count v), s.insert (.shard g) v)) ∨
    ((countOf s g).add? 1 = none ∧
      ShardedCounter.step s ⟨env, .increment g⟩ = (.error .overflow, s)) := by
  have hv : Host.valueAt s (.shard g) 0 = countOf s g := rfl
  cases ha : (countOf s g).add? 1 with
  | some v =>
    refine .inl ⟨v, rfl, Host.invoke_of_ok ?_⟩
    simp [ShardedCounter.dispatch, ShardedCounter.increment, UInt32.not_le.mpr hg, hv, ha]
  | none =>
    refine .inr ⟨rfl, Host.invoke_of_error ?_⟩
    simp [ShardedCounter.dispatch, ShardedCounter.increment, UInt32.not_le.mpr hg, hv, ha]

theorem step_counter (s : NaiveCounter.Ledger) (env : Env Address) :
    (∃ v : U64, (NaiveCounter.countOf s).add? 1 = some v ∧
      NaiveCounter.step s ⟨env, .increment⟩ = (.ok v, s.insert .counter v)) ∨
    ((NaiveCounter.countOf s).add? 1 = none ∧
      NaiveCounter.step s ⟨env, .increment⟩ = (.error .overflow, s)) := by
  have hv : Host.valueAt s .counter 0 = NaiveCounter.countOf s := rfl
  cases ha : (NaiveCounter.countOf s).add? 1 with
  | some v =>
    refine .inl ⟨v, rfl, Host.invoke_of_ok ?_⟩
    simp [NaiveCounter.dispatch, NaiveCounter.increment, hv, ha]
  | none =>
    refine .inr ⟨rfl, Host.invoke_of_error ?_⟩
    simp [NaiveCounter.dispatch, NaiveCounter.increment, hv, ha]

theorem shard_component (g : UInt32) : Run.Component (@ShardedCounter.step Address) Count.tick
    (countOf · g) (fun _ => ofShard g) (shardAnswer g) where
  reached s i _ h := by
    obtain ⟨he, hg⟩ := eq_increment_of_inRange (Option.ite_none_right_eq_some.mp h).1
    rw [he]
    obtain ⟨v, ha, hs⟩ | ⟨ha, hs⟩ := step_shard hg s i.env
    · simp [hs, ha, Count.tick, shardAnswer, ShardedCounter.countOf_insert]
    · simp [hs, ha, Count.tick, shardAnswer]
  missed s i h := by
    have hi : inRange i ≠ some g := fun hi => by simp [ofShard, hi] at h
    cases ho : inRange i with
    | none =>
      refine ⟨?_, by rw [step_idle ho]⟩
      obtain ⟨env, shard | _ | _ | _⟩ := i
      · have hout : SHARDS ≤ shard := by
          by_contra hlt
          simp [inRange, UInt32.not_le.mp hlt] at ho
        rw [ShardedCounter.step_increment_outOfRange hout]
        rfl
      all_goals rfl
    | some a =>
      obtain ⟨he, ha⟩ := eq_increment_of_inRange ho
      have hag : a ≠ g := fun hag => hi (hag ▸ ho)
      rw [he]
      obtain ⟨v, -, hs⟩ | ⟨-, hs⟩ := step_shard ha s i.env
      · simp [hs, shardAnswer, hag, ShardedCounter.countOf_insert, Function.update_of_ne hag.symm]
      · simp [hs, shardAnswer]

theorem counter_component : Run.Component (@NaiveCounter.step Address) Count.tick
    NaiveCounter.countOf (fun _ => ofCounter) counterAnswer where
  reached s i _ h := by
    obtain ⟨env, _ | _⟩ := i
    · obtain ⟨v, ha, hs⟩ | ⟨ha, hs⟩ := step_counter s env
      · simp [hs, ha, Count.tick, counterAnswer, NaiveCounter.countOf_insert]
      · simp [hs, ha, Count.tick, counterAnswer]
    · cases h
  missed s i h := by
    obtain ⟨env, _ | _⟩ := i
    · cases h
    · exact ⟨rfl, rfl⟩

-- ---------------------------------------------------------------------------
-- Every run
-- ---------------------------------------------------------------------------

theorem length_ofShard (g : UInt32) (cs : List (Invocation Address ShardedCounter.Call)) :
    (cs.filterMap (ofShard g)).length = (accepted cs).count g := by
  induction cs with
  | nil => rfl
  | cons i cs ih =>
    unfold accepted at ih ⊢
    rw [List.filterMap_cons, List.filterMap_cons, ofShard]
    cases ho : inRange i with
    | none => simpa using ih
    | some a =>
      by_cases hag : a = g
      · simp [hag, ih]
      · simp [hag, ih]

structure ShardsFill (s : ShardedCounter.Ledger)
    (cs : List (Invocation Address ShardedCounter.Call)) : Prop where
  answers : ∀ g, (Run.handed ShardedCounter.step (shardAnswer g) s cs).map Ranged.val =
    Count.numbers (countOf s g).val.toNat ((accepted cs).count g)
  counts : ∀ g, (countOf (final ShardedCounter.step s cs) g).val =
    min ((countOf s g).val + (accepted cs).count g) Count.last
  total : ∀ env : Env Address,
    let sum := ((upTo SHARDS).map fun g =>
      min ((countOf s g).val + (accepted cs).count g) Count.last).sum
    (sum < 2 ^ 64 ∧ ∃ v : U64, v.val = sum ∧
      ShardedCounter.step (final ShardedCounter.step s cs) ⟨env, .total⟩ =
        (.ok (.count v), final ShardedCounter.step s cs)) ∨
    (2 ^ 64 ≤ sum ∧ ShardedCounter.step (final ShardedCounter.step s cs) ⟨env, .total⟩ =
      (.error .overflow, final ShardedCounter.step s cs))

structure CounterFills (t : NaiveCounter.Ledger)
    (cs : List (Invocation Address NaiveCounter.Call)) : Prop where
  answers : (Run.handed NaiveCounter.step counterAnswer t cs).map Ranged.val =
    Count.numbers (NaiveCounter.countOf t).val.toNat (cs.filterMap ofCounter).length
  total : ∀ env : Env Address, ∃ v : U64,
    NaiveCounter.step (final NaiveCounter.step t cs) ⟨env, .total⟩ =
      (.ok v, final NaiveCounter.step t cs) ∧
    v.val = min ((NaiveCounter.countOf t).val + (cs.filterMap ofCounter).length) Count.last

theorem shards_fill (s : ShardedCounter.Ledger)
    (cs : List (Invocation Address ShardedCounter.Call)) : ShardsFill s cs := by
  have hrun (g : UInt32) := Count.run_component (shard_component g) s cs
  simp only [length_ofShard] at hrun
  refine ⟨fun g => (hrun g).1, fun g => (hrun g).2, fun env => ?_⟩
  have hsum : ShardedCounter.sumOf (final ShardedCounter.step s cs) = ((upTo SHARDS).map fun g =>
      min ((countOf s g).val + (accepted cs).count g) Count.last).sum :=
    congrArg List.sum (List.map_congr_left fun g _ => (hrun g).2)
  rw [← hsum]
  exact ShardedCounter.step_total _ env

theorem counter_fills (t : NaiveCounter.Ledger)
    (cs : List (Invocation Address NaiveCounter.Call)) : CounterFills t cs := by
  obtain ⟨ha, hc⟩ := Count.run_component counter_component t cs
  exact ⟨ha, fun env => ⟨_, NaiveCounter.step_total env, hc⟩⟩

theorem counters_fill (s : ShardedCounter.Ledger) (t : NaiveCounter.Ledger)
    (cs : List (Invocation Address ShardedCounter.Call))
    (ds : List (Invocation Address NaiveCounter.Call)) : ShardsFill s cs ∧ CounterFills t ds :=
  ⟨shards_fill s cs, counter_fills t ds⟩

end Counter
