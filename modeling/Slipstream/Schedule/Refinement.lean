import Slipstream.Balance.Equivalence
import Slipstream.Counter.Totals
import Slipstream.EventLog.Merge
import Slipstream.Fee.Reconcile
import Slipstream.Schedule.Parallel
import Slipstream.Schedule.Reordering

/-!
# The optimized corpus in parallel, the naive corpus in sequence

A batch in stages runs as its calls do in the order of the stages. So where an
optimized contract keeps what its naive sibling keeps, call by call, it does so
in parallel. The nonces and the configuration are not among them: there the two
variants differ by design.
-/

namespace Schedule

open Host (Env Footprint Invocation Store runsInStages_of_covers staged)
open Run (final)
open Stages (groups)

variable {Address Msg : Type}

/-- A batch in stages that keep the documented conflicts apart, and an order of
its calls that goes by the stages. -/
structure Staged {Call K : Type} (footprint : Call → Footprint K) (Address : Type) where
  size : Nat
  call : Fin size → Invocation Address Call
  assigned : Fin size → Nat
  apart : ∀ i j, i ≠ j → Conflict footprint (call i) (call j) → assigned i ≠ assigned j
  order : List (Fin size)
  perm : order.Perm (List.finRange size)
  byStage : order.Pairwise fun i j => assigned i ≤ assigned j

namespace Staged

variable {Call K α E : Type} {V : K → Type} [DecidableEq K] {footprint : Call → Footprint K}

def calls (b : Staged footprint Address) : List (Invocation Address Call) := b.order.map b.call

/-- Every call with its answer, and the ledger that the stages leave. -/
def inParallel (b : Staged footprint Address) (dispatch : Env Address → Call → Host.Prog V E α)
    (s : Store V) : List (Fin b.size × Except (Host.Fault E) α) × Store V :=
  staged dispatch b.call s (groups b.assigned)

theorem inParallel_eq {dispatch : Env Address → Call → Host.Prog V E α}
    (hdoc : ∀ env c, (footprint c).Covers (dispatch env c)) (b : Staged footprint Address)
    (s : Store V) :
    (b.inParallel dispatch s).1.Perm (Run.answers (Host.step dispatch) b.call s b.order) ∧
      (b.inParallel dispatch s).2 = final (Host.step dispatch) s b.calls :=
  (runsInStages_of_covers hdoc).serial s b.size b.call b.assigned b.apart b.order b.perm b.byStage

end Staged

-- ---------------------------------------------------------------------------
-- Balances
-- ---------------------------------------------------------------------------

variable [DecidableEq Address]

/-- A batch on ledgers with the same balances: every call gets the answer that it
gets in sequence, and the balances stay the same. -/
structure BalancesInParallel (b : Staged (@PerUserBalance.footprint Address) Address)
    (s : NaiveBalance.Ledger Address) (t : PerUserBalance.Ledger Address) : Prop where
  answers : (b.inParallel PerUserBalance.dispatch t).1.Perm
    (Run.answers NaiveBalance.step b.call s b.order)
  related : Balance.Related (final NaiveBalance.step s b.calls)
    (b.inParallel PerUserBalance.dispatch t).2

theorem balances_in_parallel (b : Staged (@PerUserBalance.footprint Address) Address)
    {s : NaiveBalance.Ledger Address} {t : PerUserBalance.Ledger Address}
    (h : Balance.Related s t) : BalancesInParallel b s t := by
  obtain ⟨ha, hf⟩ := b.inParallel_eq PerUserBalance.covers t
  obtain ⟨hout, hrel⟩ := Balance.simulates_related.run h b.calls
  constructor
  · unfold Staged.calls at hout
    unfold Run.answers at ha ⊢
    rw [hout]
    exact ha
  · rw [hf]
    exact hrel

-- ---------------------------------------------------------------------------
-- Fees
-- ---------------------------------------------------------------------------

structure FeesInParallel (b : Staged (@LazyFee.footprint Address) Address) : Prop where
  opCount : ∀ who, LazyFee.opCountOf (b.inParallel LazyFee.dispatch ∅).2 who =
    NaiveFee.opCountOf (final NaiveFee.step ∅ (Fee.operates b.calls)) who
  total : (LazyFee.feePoolOf (b.inParallel LazyFee.dispatch ∅).2).val +
      Total.sum (LazyFee.accruedOf (b.inParallel LazyFee.dispatch ∅).2) =
    (NaiveFee.feePoolOf (final NaiveFee.step ∅ (Fee.operates b.calls))).val

theorem fees_in_parallel (b : Staged (@LazyFee.footprint Address) Address)
    (hb : LazyFee.feePerOp.val * (Fee.operates b.calls).length < 2 ^ 127) : FeesInParallel b := by
  obtain ⟨-, hf⟩ := b.inParallel_eq LazyFee.covers (∅ : LazyFee.Ledger Address)
  obtain ⟨h, -⟩ := Fee.reconciled_run b.calls hb
  constructor
  · rw [hf]
    exact h.opCount
  · rw [hf]
    exact h.total

-- ---------------------------------------------------------------------------
-- Counters
-- ---------------------------------------------------------------------------

omit [DecidableEq Address]

structure CountsInParallel (b : Staged ShardedCounter.footprint Address) : Prop where
  shardTotal : ∀ (env : Env Address) g, g < ShardedCounter.SHARDS → ∃ v : U64,
    (ShardedCounter.step (b.inParallel ShardedCounter.dispatch ∅).2 ⟨env, .shardTotal g⟩).1 =
      .ok (.count v) ∧ v.val = (Counter.accepted b.calls).count g
  total : ∀ env : Env Address, ∃ v : U64,
    (ShardedCounter.step (b.inParallel ShardedCounter.dispatch ∅).2 ⟨env, .total⟩).1 =
      .ok (.count v) ∧
    (NaiveCounter.step (final NaiveCounter.step ∅ (Counter.merged b.calls)) ⟨env, .total⟩).1 =
      .ok v

theorem counts_in_parallel (b : Staged ShardedCounter.footprint Address)
    (hl : (Counter.accepted b.calls).length < 2 ^ 64) : CountsInParallel b := by
  obtain ⟨-, hf⟩ := b.inParallel_eq ShardedCounter.covers (∅ : ShardedCounter.Ledger)
  have h := Counter.totals_run hl
  constructor
  · intro env g hg
    obtain ⟨v, hv, hcount⟩ := h.shardTotal env g hg
    rw [hf]
    exact ⟨v, congrArg Prod.fst hv, hcount⟩
  · intro env
    obtain ⟨v, hs, ht, -⟩ := h.total env
    rw [hf]
    exact ⟨v, congrArg Prod.fst hs, congrArg Prod.fst ht⟩

-- ---------------------------------------------------------------------------
-- Event logs
-- ---------------------------------------------------------------------------

structure LogsInParallel (b : Staged (@SegmentedEventLog.footprint Msg) Address) : Prop where
  total : ∀ env : Env Address, ∃ v : U64,
    (SegmentedEventLog.step (b.inParallel SegmentedEventLog.dispatch ∅).2 ⟨env, .totalLen⟩).1 =
      .ok (.number v) ∧
    (NaiveEventLog.step (final NaiveEventLog.step ∅ (EventLog.merged b.calls))
      ⟨env, .entryCount⟩).1 = .ok (.number v)
  get : ∀ (env : Env Address) segment (index : U64),
    (SegmentedEventLog.step (b.inParallel SegmentedEventLog.dispatch ∅).2
        ⟨env, .get segment index⟩).1 =
      .ok (.entry (EventLog.messages b.calls segment)[index.val.toNat]?)
  sameMessage : ∀ (env : Env Address) segment (i j : U64),
    i.val < (EventLog.messages b.calls segment).length →
      j.val = EventLog.position b.calls segment i.val.toNat → ∃ msg,
        (SegmentedEventLog.step (b.inParallel SegmentedEventLog.dispatch ∅).2
          ⟨env, .get segment i⟩).1 = .ok (.entry (some msg)) ∧
        (NaiveEventLog.step (final NaiveEventLog.step ∅ (EventLog.merged b.calls))
          ⟨env, .get j⟩).1 = .ok (.entry (some msg))

theorem logs_in_parallel (b : Staged (@SegmentedEventLog.footprint Msg) Address)
    (hl : (b.calls.filterMap SegmentedEventLog.appended).length < 2 ^ 64) : LogsInParallel b := by
  obtain ⟨-, hf⟩ := b.inParallel_eq SegmentedEventLog.covers (∅ : SegmentedEventLog.Ledger Msg)
  have h := EventLog.merged_run b.calls hl
  constructor
  · intro env
    obtain ⟨v, hs, ht, -⟩ := h.total env
    rw [hf]
    exact ⟨v, congrArg Prod.fst hs, congrArg Prod.fst ht⟩
  · intro env segment index
    rw [hf]
    exact congrArg Prod.fst (h.get env segment index)
  · rw [hf]
    exact h.sameMessage

theorem parallel_refines [DecidableEq Address] :
    (∀ (b : Staged (@PerUserBalance.footprint Address) Address) (s : NaiveBalance.Ledger Address)
        (t : PerUserBalance.Ledger Address), Balance.Related s t → BalancesInParallel b s t) ∧
    (∀ b : Staged (@LazyFee.footprint Address) Address,
      LazyFee.feePerOp.val * (Fee.operates b.calls).length < 2 ^ 127 → FeesInParallel b) ∧
    (∀ b : Staged ShardedCounter.footprint Address,
      (Counter.accepted b.calls).length < 2 ^ 64 → CountsInParallel b) ∧
    ∀ b : Staged (@SegmentedEventLog.footprint Msg) Address,
      (b.calls.filterMap SegmentedEventLog.appended).length < 2 ^ 64 → LogsInParallel b :=
  ⟨fun b _ _ => balances_in_parallel b, fees_in_parallel, counts_in_parallel, logs_in_parallel⟩

def Staged.pair {Call K : Type} {footprint : Call → Footprint K}
    (i j : Invocation Address Call) (h : ¬ Conflict footprint i j) : Staged footprint Address where
  size := 2
  call k := if k = 0 then i else j
  assigned _ := 0
  apart a b hab hc := by
    refine absurd hc ?_
    fin_cases a <;> fin_cases b
    · exact absurd rfl hab
    · exact h
    · exact fun hji => h hji.symm
    · exact absurd rfl hab
  order := [1, 0]
  perm := by decide
  byStage := by decide

theorem deposits_apart (amount : I128) : ¬ Conflict PerUserBalance.footprint
    (⟨⟨∅⟩, .deposit 1 amount⟩ : Invocation Nat (Balance.Call Nat)) ⟨⟨∅⟩, .deposit 2 amount⟩ :=
  fun h => absurd (eq_of_writers (fun who => {PerUserBalance.DataKey.balance who}) rfl rfl
    receiver_of_keys h) (by decide)

theorem operations_apart : ¬ Conflict LazyFee.footprint
    (⟨⟨{1}⟩, .operate 1⟩ : Invocation Nat (LazyFee.Call Nat)) ⟨⟨{2}⟩, .operate 2⟩ :=
  fun h => absurd (eq_of_writers
    (fun who => {LazyFee.DataKey.opCount who, LazyFee.DataKey.accruedFee who}) rfl rfl
    operator_of_keys h) (by decide)

theorem increments_apart : ¬ Conflict ShardedCounter.footprint
    (⟨⟨∅⟩, .increment 1⟩ : Invocation Nat ShardedCounter.Call) ⟨⟨∅⟩, .increment 2⟩ :=
  fun h => absurd (eq_of_writers (fun shard => {ShardedCounter.DataKey.shard shard}) rfl rfl
    shard_of_keys h) (by decide)

theorem appends_apart : ¬ Conflict SegmentedEventLog.footprint
    (⟨⟨∅⟩, .append 1 10⟩ : Invocation Nat (SegmentedEventLog.Call Nat)) ⟨⟨∅⟩, .append 2 20⟩ :=
  fun h => absurd (SegmentedEventLog.eq_of_conflict h) (by decide)

theorem parallel_refines_two :
    BalancesInParallel (.pair _ _ (deposits_apart ⟨40, by decide, by decide⟩)) ∅ ∅ ∧
      FeesInParallel (.pair _ _ operations_apart) ∧
        CountsInParallel (.pair _ _ increments_apart) ∧
          LogsInParallel (.pair _ _ appends_apart) := by
  obtain ⟨hb, hf, hc, hl⟩ := @parallel_refines Nat Nat _
  exact ⟨hb _ ∅ ∅ Balance.related_empty, hf _ (by decide), hc _ (by decide), hl _ (by decide)⟩

end Schedule
