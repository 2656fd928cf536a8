import Slipstream.Host.Queue
import Slipstream.Schedule.Parallel
import Slipstream.Schedule.Reordering

/-!
# The stages of any batch

A batch may hold any calls of a contract, readers too. Each waits at some keys
for the calls documented to write them, and the longest queue at such a key is
the least number of stages that keep the documented conflicts apart.
-/

namespace Schedule

open Host (Bottleneck Env Footprint Invocation Queues longestQueue upTo)
open Stages (Contend counts largest)

variable {Address Msg : Type}

/-- For every batch, the longest queue is the least number of stages. -/
def NeedsQueues (Address : Type) {Call K : Type} (footprint : Call → Footprint K)
    (waitsFor : Call → Finset K) : Prop :=
  ∀ (n : Nat) (batch : Fin n → Invocation Address Call),
    IsLeast (counts fun i j => Conflict footprint (batch i) (batch j))
      (Finset.univ.sup (longestQueue (fun i => footprint (batch i).call) fun i =>
        waitsFor (batch i).call))

theorem needsQueues_of_bottleneck {Call K : Type} {footprint : Call → Footprint K}
    {waitsFor : Call → Finset K} {rank : Call → Nat} (h : Bottleneck footprint waitsFor rank) :
    NeedsQueues Address footprint waitsFor :=
  fun _ batch => h.isLeast fun i => (batch i).call

theorem conflict_iff {K : Type} {f g : Footprint K} : f.Conflict g ↔
    (∃ k ∈ f.writes, k ∈ g.reads ∨ k ∈ g.writes) ∨ ∃ k ∈ g.writes, k ∈ f.reads ∨ k ∈ f.writes :=
  Iff.rfl

-- ---------------------------------------------------------------------------
-- Contracts whose calls touch one key each
-- ---------------------------------------------------------------------------

/-- Every call is documented to write its key, or to read it. -/
def OneKey {Call K : Type} (footprint : Call → Footprint K) (key : Call → K)
    (writes : Call → Bool) : Prop :=
  ∀ c, footprint c = if writes c then { reads := ∅, writes := {key c} }
    else { reads := {key c}, writes := ∅ }

theorem OneKey.bottleneck {Call K : Type} {footprint : Call → Footprint K} {key : Call → K}
    {writes : Call → Bool} (h : OneKey footprint key writes) :
    Bottleneck footprint (fun c => {key c}) fun c => if writes c then 0 else 1 where
  touched c k hk := by
    obtain rfl := Finset.mem_singleton.mp hk
    rw [h c]
    cases writes c <;> simp
  waits c d hr hc := by
    have hkeys : key c = key d ∧ writes d = true := by
      rw [h c, h d, conflict_iff] at hc
      cases hwc : writes c <;> cases hwd : writes d <;> simp [hwc, hwd] at hr hc
      · exact ⟨hc.symm, rfl⟩
      · exact ⟨hc.elim id Eq.symm, rfl⟩
    exact ⟨key c, Finset.mem_singleton_self _, by simp [h d, hkeys]⟩
  narrow c := .inl (Finset.card_singleton _).le

theorem counter_oneKey : OneKey NaiveCounter.footprint (fun _ => .counter) fun
    | .increment => true
    | .total => false := by
  rintro (_ | _) <;> rfl

theorem balance_oneKey : OneKey (@NaiveBalance.footprint Address) (fun _ => .balances) fun
    | .deposit _ _ | .transfer _ _ _ => true
    | .balance _ => false := by
  rintro (_ | _ | _) <;> rfl

theorem nonce_oneKey : OneKey NaiveNonce.footprint (fun _ => .nonce) fun
    | .next => true
    | .current => false := by
  rintro (_ | _) <;> rfl

theorem config_oneKey : OneKey BatchedAdmin.footprint (fun _ => .config) fun
    | .setConfig _ => true
    | .getConfig | .feeBps => false := by
  rintro (_ | _ | _) <;> rfl

def nonceKey : PerUserNonce.Call Address → PerUserNonce.DataKey Address
  | .next who | .current who => .nonce who

theorem perUserNonce_oneKey : OneKey PerUserNonce.footprint (@nonceKey Address) fun
    | .next _ => true
    | .current _ => false := by
  rintro (_ | _) <;> rfl

-- ---------------------------------------------------------------------------
-- Contracts whose calls touch several keys
-- ---------------------------------------------------------------------------

def naiveFeeKeys : NaiveFee.Call Address → Finset (NaiveFee.DataKey Address)
  | .operate _ | .feePool => {.feePool}
  | .opCount who => {.opCount who}

theorem naiveFee_bottleneck : Bottleneck (@NaiveFee.footprint Address) naiveFeeKeys fun
    | .operate _ => 0
    | .feePool | .opCount _ => 1 where
  touched c k hk := by
    cases c <;> simp_all [NaiveFee.footprint, naiveFeeKeys]
  waits c d hr hc := by
    cases c <;> cases d <;> simp_all [NaiveFee.footprint, naiveFeeKeys, conflict_iff, eq_comm]
  narrow c := .inl (by cases c <;> simp [naiveFeeKeys])

/-- An operation waits for the operations and sweeps of its account, a sweep for
all sweeps. -/
def lazyFeeKeys : LazyFee.Call Address → Finset (LazyFee.DataKey Address)
  | .operate who | .accrued who => {.accruedFee who}
  | .sweep _ | .feePool => {.feePool}
  | .opCount who => {.opCount who}

theorem lazyFee_bottleneck : Bottleneck (@LazyFee.footprint Address) lazyFeeKeys fun
    | .sweep _ => 0
    | .operate _ => 1
    | .feePool | .accrued _ | .opCount _ => 2 where
  touched c k hk := by
    cases c <;> simp_all [LazyFee.footprint, lazyFeeKeys]
  waits c d hr hc := by
    cases c <;> cases d <;> simp_all [LazyFee.footprint, lazyFeeKeys, conflict_iff, eq_comm]
  narrow c := .inl (by cases c <;> simp [lazyFeeKeys])

/-- The first setting, which every vector but the empty one writes. -/
def settingKeys : NaiveAdmin.Call → Finset NaiveAdmin.DataKey
  | .setConfig values => if values.length = 0 then ∅ else {.setting 0}
  | .getSetting index => {.setting index}

theorem setting_mem_writes {values : NaiveAdmin.SdkVec I128} {k : NaiveAdmin.DataKey} :
    k ∈ (NaiveAdmin.footprint (.setConfig values)).writes ↔
      ∃ i : UInt32, i.toNat < values.length ∧ k = .setting i := Iff.rfl

theorem first_mem_writes {values : NaiveAdmin.SdkVec I128} (h : values.length ≠ 0) :
    .setting 0 ∈ (NaiveAdmin.footprint (.setConfig values)).writes :=
  setting_mem_writes.mpr ⟨0, Nat.pos_of_ne_zero h, rfl⟩

theorem length_ne_zero_of_writes {values : NaiveAdmin.SdkVec I128} {k : NaiveAdmin.DataKey}
    (h : k ∈ (NaiveAdmin.footprint (.setConfig values)).writes) : values.length ≠ 0 := by
  obtain ⟨i, hi, -⟩ := setting_mem_writes.mp h
  exact Nat.ne_zero_of_lt hi

theorem lengths_ne_zero_of_conflict {values values' : NaiveAdmin.SdkVec I128}
    (h : (NaiveAdmin.footprint (.setConfig values)).Conflict
      (NaiveAdmin.footprint (.setConfig values'))) : values.length ≠ 0 ∧ values'.length ≠ 0 := by
  obtain ⟨k, hk, hk'⟩ | ⟨k, hk, hk'⟩ := h
  · exact ⟨length_ne_zero_of_writes hk,
      length_ne_zero_of_writes (hk'.resolve_left (Set.notMem_empty k))⟩
  · exact ⟨length_ne_zero_of_writes (hk'.resolve_left (Set.notMem_empty k)),
      length_ne_zero_of_writes hk⟩

theorem setting_bottleneck : Bottleneck NaiveAdmin.footprint settingKeys fun
    | .setConfig _ => 0
    | .getSetting _ => 1 where
  touched c k hk := by
    cases c with
    | setConfig values =>
      by_cases h : values.length = 0
      · simp [settingKeys, h] at hk
      · simp only [settingKeys, if_neg h, Finset.mem_singleton] at hk
        exact .inr (hk ▸ first_mem_writes h)
    | getSetting index => exact .inl (by simpa [settingKeys, NaiveAdmin.footprint] using hk)
  waits c d hr hc := by
    cases d with
    | getSetting index =>
      cases c with
      | setConfig values => simp at hr
      | getSetting index' => simp [conflict_iff, NaiveAdmin.footprint] at hc
    | setConfig values' =>
      cases c with
      | setConfig values =>
        -- two vectors with an element each write the first setting
        obtain ⟨hv, hv'⟩ := lengths_ne_zero_of_conflict hc
        exact ⟨.setting 0, by simp [settingKeys, hv], first_mem_writes hv'⟩
      | getSetting index =>
        obtain ⟨k, hk, -⟩ | ⟨k, hk, hk'⟩ := hc
        · exact absurd hk (Set.notMem_empty k)
        · obtain rfl : k = .setting index := hk'.resolve_right (Set.notMem_empty k)
          exact ⟨_, Finset.mem_singleton_self _, hk⟩
  narrow c := by
    refine .inl ?_
    cases c with
    | setConfig values =>
      by_cases h : values.length = 0 <;> simp [settingKeys, h]
    | getSetting index => exact (Finset.card_singleton _).le

def naiveLogKeys : NaiveEventLog.Call Msg → Finset NaiveEventLog.DataKey
  | .append _ | .entryCount => {.tail}
  | .get index => {.entry index}

theorem naiveLog_bottleneck : Bottleneck (@NaiveEventLog.footprint Msg) naiveLogKeys fun
    | .append _ => 0
    | .entryCount | .get _ => 1 where
  touched c k hk := by
    cases c <;> simp_all [NaiveEventLog.footprint, naiveLogKeys]
  waits c d hr hc := by
    cases c <;> cases d <;>
      simp_all [NaiveEventLog.footprint, naiveLogKeys, conflict_iff, eq_comm]
  narrow c := .inl (by cases c <;> simp [naiveLogKeys])

def shardKeys : ShardedCounter.Call → Finset ShardedCounter.DataKey
  | .increment shard | .shardTotal shard => {.shard shard}
  | .total => (upTo ShardedCounter.SHARDS).toFinset.image .shard
  | .shards => ∅

theorem shard_bottleneck : Bottleneck ShardedCounter.footprint shardKeys fun
    | .increment _ => 0
    | .shardTotal _ | .total | .shards => 1 where
  touched c k hk := by
    cases c <;> simp_all [ShardedCounter.footprint, shardKeys, Host.mem_upTo, eq_comm]
  waits c d hr hc := by
    cases c <;> cases d <;>
      simp_all [ShardedCounter.footprint, shardKeys, conflict_iff, Host.mem_upTo, eq_comm]
  narrow c := by
    cases c with
    | total =>
      refine .inr fun d hr hc => ?_
      cases d <;>
        simp_all [ShardedCounter.footprint, shardKeys, conflict_iff, Host.mem_upTo, eq_comm]
    | _ => exact .inl (by simp [shardKeys])

/-- The total length waits at every tail. -/
def segmentKeys : SegmentedEventLog.Call Msg → Finset SegmentedEventLog.DataKey
  | .append segment _ | .segmentLen segment => {.segmentTail segment}
  | .totalLen => (upTo SegmentedEventLog.SEGMENTS).toFinset.image .segmentTail
  | .get segment index => {.entry segment index}
  | .segments => ∅

theorem segment_bottleneck : Bottleneck (@SegmentedEventLog.footprint Msg) segmentKeys fun
    | .append _ _ => 0
    | .segmentLen _ | .totalLen | .get _ _ | .segments => 1 where
  touched c k hk := by
    cases c <;> simp_all [SegmentedEventLog.footprint, SegmentedEventLog.keysOf, segmentKeys,
      Host.mem_upTo, eq_comm]
  waits c d hr hc := by
    cases c <;> cases d <;> simp_all [SegmentedEventLog.footprint, SegmentedEventLog.keysOf,
      segmentKeys, conflict_iff, Host.mem_upTo, eq_comm]
  narrow c := by
    cases c with
    | totalLen =>
      refine .inr fun d hr hc => ?_
      cases d <;> simp_all [SegmentedEventLog.footprint, SegmentedEventLog.keysOf,
        segmentKeys, conflict_iff, Host.mem_upTo, eq_comm]
    | _ => exact .inl (by simp [segmentKeys])

def balanceKeys [DecidableEq Address] :
    Balance.Call Address → Finset (PerUserBalance.DataKey Address)
  | .deposit who _ | .balance who => {.balance who}
  | .transfer sender receiver _ => {.balance sender, .balance receiver}

theorem balance_waits [DecidableEq Address] :
    Queues (@PerUserBalance.footprint Address) balanceKeys fun
      | .deposit _ _ | .transfer _ _ _ => 0
      | .balance _ => 1 where
  touched c k hk := by
    cases c <;> simp_all [PerUserBalance.footprint, balanceKeys]
  waits c d hr hc := by
    cases c <;> cases d <;>
      simp_all [PerUserBalance.footprint, balanceKeys, conflict_iff, eq_comm]
    -- two transfers, which share one of four pairs of accounts
    tauto

-- ---------------------------------------------------------------------------
-- Every batch
-- ---------------------------------------------------------------------------

theorem naive_queues :
    NeedsQueues Address NaiveCounter.footprint (fun _ => {.counter}) ∧
      NeedsQueues Address (@NaiveBalance.footprint Address) (fun _ => {.balances}) ∧
      NeedsQueues Address (@NaiveFee.footprint Address) naiveFeeKeys ∧
      NeedsQueues Address NaiveNonce.footprint (fun _ => {.nonce}) ∧
      NeedsQueues Address NaiveAdmin.footprint settingKeys ∧
      NeedsQueues Address (@NaiveEventLog.footprint Msg) naiveLogKeys :=
  ⟨needsQueues_of_bottleneck counter_oneKey.bottleneck,
    needsQueues_of_bottleneck balance_oneKey.bottleneck,
    needsQueues_of_bottleneck naiveFee_bottleneck,
    needsQueues_of_bottleneck nonce_oneKey.bottleneck,
    needsQueues_of_bottleneck setting_bottleneck, needsQueues_of_bottleneck naiveLog_bottleneck⟩

theorem optimized_queues :
    NeedsQueues Address ShardedCounter.footprint shardKeys ∧
      NeedsQueues Address (@LazyFee.footprint Address) lazyFeeKeys ∧
      NeedsQueues Address PerUserNonce.footprint (fun c => {@nonceKey Address c}) ∧
      NeedsQueues Address BatchedAdmin.footprint (fun _ => {.config}) ∧
      NeedsQueues Address (@SegmentedEventLog.footprint Msg) segmentKeys :=
  ⟨needsQueues_of_bottleneck shard_bottleneck, needsQueues_of_bottleneck lazyFee_bottleneck,
    needsQueues_of_bottleneck perUserNonce_oneKey.bottleneck,
    needsQueues_of_bottleneck config_oneKey.bottleneck,
    needsQueues_of_bottleneck segment_bottleneck⟩

/-- Two transfers may share either account, and the queues of both decide. -/
theorem balance_queues [DecidableEq Address] (n : Nat)
    (batch : Fin n → Invocation Address (Balance.Call Address)) :
    let longest := Finset.univ.sup (longestQueue (fun i => PerUserBalance.footprint (batch i).call)
      fun i => balanceKeys (batch i).call)
    ∃ k, IsLeast (counts fun i j => Conflict PerUserBalance.footprint (batch i) (batch j)) k ∧
      longest ≤ k ∧ k ≤ 2 * (longest - 1) + 1 :=
  balance_waits.isLeast_between (w := 2) (fun c => by
    cases c with
    | transfer sender receiver _ => exact Finset.card_le_two
    | _ => exact (Finset.card_singleton _).le.trans one_le_two) fun i => (batch i).call

-- ---------------------------------------------------------------------------
-- Writers only
-- ---------------------------------------------------------------------------

section
variable {n : Nat}

def naiveOperations (env : Fin n → Env Address) (who : Fin n → Address) (i : Fin n) :
    Invocation Address (NaiveFee.Call Address) := ⟨env i, .operate (who i)⟩

def naiveNonces (env : Fin n → Env Address) (i : Fin n) : Invocation Address NaiveNonce.Call :=
  ⟨env i, .next⟩

theorem least_of_writers {κ K Call : Type} [DecidableEq κ] {footprint : Call → Footprint K}
    (keys : κ → Set K) (hne : ∀ a, (keys a).Nonempty)
    (hkeys : ∀ a b k, k ∈ keys a → k ∈ keys b → a = b) {batch : Fin n → Invocation Address Call}
    {label : Fin n → κ}
    (h : ∀ i, footprint (batch i).call = { reads := ∅, writes := keys (label i) }) :
    IsLeast (counts fun i j => Conflict footprint (batch i) (batch j)) (largest label) := by
  have hcontend : Contend (fun i j => Conflict footprint (batch i) (batch j)) label
      fun _ => True := by
    intro i j _
    rw [and_true]
    constructor
    · exact eq_of_writers keys (h i) (h j) hkeys
    · intro hl
      obtain ⟨k, hk⟩ := hne (label i)
      unfold Conflict
      rw [h i, h j, ← hl]
      exact .inl ⟨k, hk, .inr hk⟩
  exact (hcontend.clustered fun _ => trivial).least

/-- Writers of the same keys need a stage each. -/
theorem least_of_shared {K Call : Type} {footprint : Call → Footprint K} {keys : Set K}
    (hne : keys.Nonempty) {batch : Fin n → Invocation Address Call}
    (h : ∀ i, (keys ⊆ (footprint (batch i).call).writes)) :
    IsLeast (counts fun i j => Conflict footprint (batch i) (batch j)) n := by
  have hcontend : Contend (fun i j => Conflict footprint (batch i) (batch j)) (fun _ => ())
      fun _ => True := by
    intro i j _
    obtain ⟨k, hk⟩ := hne
    exact iff_of_true (.inl ⟨k, h i hk, .inr (h j hk)⟩) ⟨rfl, trivial⟩
  have hl := (hcontend.clustered fun _ => trivial).least
  rwa [Stages.largest_const, Fintype.card_fin] at hl

/-- One shared key makes a stage of every writer; one key per account, of every
writer of the busiest account. -/
theorem writers_least [DecidableEq Address] (env : Fin n → Env Address) (who : Fin n → Address)
    (amount : Fin n → I128) :
    (IsLeast (counts fun i j => Conflict NaiveBalance.footprint (deposits env who amount i)
        (deposits env who amount j)) n ∧
      IsLeast (counts fun i j => Conflict PerUserBalance.footprint (deposits env who amount i)
        (deposits env who amount j)) (largest who)) ∧
    (IsLeast (counts fun i j => Conflict NaiveFee.footprint (naiveOperations env who i)
        (naiveOperations env who j)) n ∧
      IsLeast (counts fun i j => Conflict LazyFee.footprint (operations env who i)
        (operations env who j)) (largest who)) ∧
    (IsLeast (counts fun i j => Conflict NaiveNonce.footprint (naiveNonces env i)
        (naiveNonces env j)) n ∧
      IsLeast (counts fun i j => Conflict PerUserNonce.footprint (nonces env who i)
        (nonces env who j)) (largest who)) := by
  refine ⟨⟨?_, ?_⟩, ⟨?_, ?_⟩, ?_, ?_⟩
  · exact least_of_shared (Set.singleton_nonempty .balances) fun _ => subset_rfl
  · exact least_of_writers _ (fun _ => Set.singleton_nonempty _) receiver_of_keys fun _ => rfl
  · exact least_of_shared (Set.singleton_nonempty .feePool) fun _ k hk => .inl hk
  · exact least_of_writers _ (fun _ => Set.insert_nonempty ..) operator_of_keys fun _ => rfl
  · exact least_of_shared (Set.singleton_nonempty .nonce) fun _ => subset_rfl
  · exact least_of_writers _ (fun _ => Set.singleton_nonempty _) nonce_of_keys fun _ => rfl

end

end Schedule
