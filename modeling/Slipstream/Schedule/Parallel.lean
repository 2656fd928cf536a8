import Slipstream.Admin.Batched
import Slipstream.Admin.Naive
import Slipstream.Balance.Naive
import Slipstream.Balance.PerUser
import Slipstream.Counter.Naive
import Slipstream.Counter.Sharded
import Slipstream.EventLog.Naive
import Slipstream.EventLog.Segmented
import Slipstream.Fee.Lazy
import Slipstream.Fee.Naive
import Slipstream.Host.Parallel
import Slipstream.Nonce.Naive
import Slipstream.Nonce.PerUser
import Slipstream.Schedule.Stages

/-!
# Running a batch in parallel stages

Both variants of every pattern stay inside the footprints they document, so
whatever stages keep the documented conflicts apart, the batch does in
parallel what it does one call after the other.
-/

namespace Schedule

open Host (Env FitsIn Footprint Invocation RunsInStages fitsIn_largest runsInStages_of_covers)
open Stages (largest)

variable {Address Msg : Type} [DecidableEq Address]

theorem naive_parallel :
    RunsInStages (@NaiveCounter.dispatch Address) NaiveCounter.footprint ∧
      RunsInStages (@NaiveBalance.dispatch Address _) NaiveBalance.footprint ∧
      RunsInStages (@NaiveFee.dispatch Address _) NaiveFee.footprint ∧
      RunsInStages (@NaiveNonce.dispatch Address) NaiveNonce.footprint ∧
      RunsInStages (@NaiveAdmin.dispatch Address) NaiveAdmin.footprint ∧
      RunsInStages (@NaiveEventLog.dispatch Address Msg) NaiveEventLog.footprint :=
  ⟨runsInStages_of_covers NaiveCounter.covers, runsInStages_of_covers NaiveBalance.covers,
    runsInStages_of_covers NaiveFee.covers, runsInStages_of_covers NaiveNonce.covers,
    runsInStages_of_covers NaiveAdmin.covers, runsInStages_of_covers NaiveEventLog.covers⟩

/-- The optimized variants; the nonces at any one ledger. -/
theorem optimized_parallel (ttl : Host.Lifetime) (seq : Nat) :
    RunsInStages (@ShardedCounter.dispatch Address) ShardedCounter.footprint ∧
      RunsInStages (@PerUserBalance.dispatch Address _) PerUserBalance.footprint ∧
      RunsInStages (@LazyFee.dispatch Address _) LazyFee.footprint ∧
      RunsInStages (fun env c => (@PerUserNonce.dispatch Address _ env c).timed ttl seq)
        PerUserNonce.footprint ∧
      RunsInStages (@BatchedAdmin.dispatch Address) BatchedAdmin.footprint ∧
      RunsInStages (@SegmentedEventLog.dispatch Address Msg) SegmentedEventLog.footprint :=
  ⟨runsInStages_of_covers ShardedCounter.covers, runsInStages_of_covers PerUserBalance.covers,
    runsInStages_of_covers LazyFee.covers,
    runsInStages_of_covers fun env c => Host.covers_timed (PerUserNonce.covers env c),
    runsInStages_of_covers BatchedAdmin.covers, runsInStages_of_covers SegmentedEventLog.covers⟩

-- ---------------------------------------------------------------------------
-- Writers in turn
-- ---------------------------------------------------------------------------

section
variable {n : Nat}

def deposits (env : Fin n → Env Address) (receiver : Fin n → Address) (amount : Fin n → I128)
    (i : Fin n) : Invocation Address (Balance.Call Address) :=
  ⟨env i, .deposit (receiver i) (amount i)⟩

def operations (env : Fin n → Env Address) (who : Fin n → Address) (i : Fin n) :
    Invocation Address (LazyFee.Call Address) := ⟨env i, .operate (who i)⟩

def nonces (env : Fin n → Env Address) (who : Fin n → Address) (i : Fin n) :
    Invocation Address (PerUserNonce.Call Address) := ⟨env i, .next (who i)⟩

theorem eq_of_writers {κ K : Type} (keys : κ → Set K) {f g : Footprint K} {a b : κ}
    (hf : f = { reads := ∅, writes := keys a }) (hg : g = { reads := ∅, writes := keys b })
    (hkeys : ∀ a b k, k ∈ keys a → k ∈ keys b → a = b) (h : f.Conflict g) : a = b := by
  subst hf hg
  obtain ⟨k, hk, hk'⟩ | ⟨k, hk, hk'⟩ := h
  · exact hkeys a b k hk (hk'.elim (absurd · (Set.notMem_empty k)) id)
  · exact hkeys a b k (hk'.elim (absurd · (Set.notMem_empty k)) id) hk

-- The keys a writer is documented to write tell its shard, segment or account.

theorem shard_of_keys (a b : UInt32) (k : ShardedCounter.DataKey)
    (ha : k ∈ ({.shard a} : Set ShardedCounter.DataKey))
    (hb : k ∈ ({.shard b} : Set ShardedCounter.DataKey)) : a = b :=
  ShardedCounter.DataKey.shard.inj (ha.symm.trans hb)

omit [DecidableEq Address] in
theorem receiver_of_keys (a b : Address) (k : PerUserBalance.DataKey Address)
    (ha : k ∈ ({.balance a} : Set (PerUserBalance.DataKey Address)))
    (hb : k ∈ ({.balance b} : Set (PerUserBalance.DataKey Address))) : a = b :=
  PerUserBalance.DataKey.balance.inj (ha.symm.trans hb)

omit [DecidableEq Address] in
theorem nonce_of_keys (a b : Address) (k : PerUserNonce.DataKey Address)
    (ha : k ∈ ({.nonce a} : Set (PerUserNonce.DataKey Address)))
    (hb : k ∈ ({.nonce b} : Set (PerUserNonce.DataKey Address))) : a = b :=
  PerUserNonce.DataKey.nonce.inj (ha.symm.trans hb)

omit [DecidableEq Address] in
theorem operator_of_keys (a b : Address) (k : LazyFee.DataKey Address)
    (ha : k ∈ ({.opCount a, .accruedFee a} : Set (LazyFee.DataKey Address)))
    (hb : k ∈ ({.opCount b, .accruedFee b} : Set (LazyFee.DataKey Address))) : a = b := by
  obtain rfl | rfl := ha
  · obtain hb | hb := hb
    · exact LazyFee.DataKey.opCount.inj hb
    · cases hb
  · obtain hb | hb := hb
    · cases hb
    · exact LazyFee.DataKey.accruedFee.inj hb

omit [DecidableEq Address] in
theorem increments_fit (env : Fin n → Env Address) (shard : Fin n → UInt32) :
    FitsIn ShardedCounter.dispatch (increments env shard) (max 1 (largest shard)) :=
  fitsIn_largest ShardedCounter.covers shard fun _ _ => eq_of_writers _ rfl rfl shard_of_keys

omit [DecidableEq Address] in
theorem appends_fit (env : Fin n → Env Address) (segment : Fin n → UInt32) (msg : Fin n → Msg) :
    FitsIn SegmentedEventLog.dispatch (appends env segment msg) (max 1 (largest segment)) :=
  fitsIn_largest SegmentedEventLog.covers segment fun _ _ =>
    eq_of_writers _ rfl rfl fun _ _ _ => SegmentedEventLog.eq_of_mem_keysOf

theorem deposits_fit (env : Fin n → Env Address) (receiver : Fin n → Address)
    (amount : Fin n → I128) :
    FitsIn PerUserBalance.dispatch (deposits env receiver amount) (max 1 (largest receiver)) :=
  fitsIn_largest PerUserBalance.covers receiver fun _ _ =>
    eq_of_writers _ rfl rfl receiver_of_keys

theorem operations_fit (env : Fin n → Env Address) (who : Fin n → Address) :
    FitsIn LazyFee.dispatch (operations env who) (max 1 (largest who)) :=
  fitsIn_largest LazyFee.covers who fun _ _ => eq_of_writers _ rfl rfl operator_of_keys

theorem nonces_fit (ttl : Host.Lifetime) (seq : Nat) (env : Fin n → Env Address)
    (who : Fin n → Address) :
    FitsIn (fun env c => (PerUserNonce.dispatch env c).timed ttl seq) (nonces env who)
      (max 1 (largest who)) :=
  fitsIn_largest (fun env c => Host.covers_timed (PerUserNonce.covers env c)) who fun _ _ =>
    eq_of_writers _ rfl rfl nonce_of_keys

/-- A batch of one kind of writer fits in as many stages as the busiest shard,
segment or account has calls; dealt over the eight indices in turn, in an eighth
of its calls. -/
theorem writers_fit (ttl : Host.Lifetime) (seq : Nat) (env : Fin n → Env Address)
    (msg : Fin n → Msg) (amount : Fin n → I128) :
    (∀ shard : Fin n → UInt32,
      FitsIn ShardedCounter.dispatch (increments env shard) (max 1 (largest shard)) ∧
        FitsIn SegmentedEventLog.dispatch (appends env shard msg) (max 1 (largest shard))) ∧
    (∀ who : Fin n → Address,
      FitsIn PerUserBalance.dispatch (deposits env who amount) (max 1 (largest who)) ∧
        FitsIn LazyFee.dispatch (operations env who) (max 1 (largest who)) ∧
        FitsIn (fun env c => (PerUserNonce.dispatch env c).timed ttl seq) (nonces env who)
          (max 1 (largest who))) ∧
    FitsIn ShardedCounter.dispatch (increments env roundRobin) (max 1 (n ⌈/⌉ 8)) ∧
    FitsIn SegmentedEventLog.dispatch (appends env roundRobin msg) (max 1 (n ⌈/⌉ 8)) := by
  refine ⟨fun shard => ⟨increments_fit env shard, appends_fit env shard msg⟩, fun who => ?_, ?_⟩
  · exact ⟨deposits_fit env who amount, operations_fit env who, nonces_fit ttl seq env who⟩
  · rw [← largest_roundRobin]
    exact ⟨increments_fit env roundRobin, appends_fit env roundRobin msg⟩

end

end Schedule
