import Slipstream.Balance.PerUser
import Slipstream.Counter.Sharded
import Slipstream.EventLog.Segmented
import Slipstream.Fee.Lazy

/-!
# Reordering the calls of the optimized contracts

Each contract stays inside the footprints it documents, on every ledger and
on every path, the trapping ones included; so any batch of its calls may be
reordered along the documented conflicts.
-/

namespace Schedule

open Host (Invocation)

variable {Address Msg : Type} [DecidableEq Address]

/-- Two calls conflict when one is documented to write what the other is
documented to read or write. -/
def Conflict {Call K : Type} (footprint : Call → Host.Footprint K)
    (i j : Invocation Address Call) : Prop :=
  (footprint i.call).Conflict (footprint j.call)

/-- For every ledger, every batch and every order that respects the conflicts. -/
theorem optimized_reorderable :
    Run.Reorderable (@ShardedCounter.step Address) (Conflict ShardedCounter.footprint) ∧
      Run.Reorderable PerUserBalance.step (@Conflict Address _ _ PerUserBalance.footprint) ∧
      Run.Reorderable LazyFee.step (@Conflict Address _ _ LazyFee.footprint) ∧
      Run.Reorderable (@SegmentedEventLog.step Address Msg)
        (Conflict SegmentedEventLog.footprint) :=
  ⟨Host.step_reorderable ShardedCounter.covers, Host.step_reorderable PerUserBalance.covers,
    Host.step_reorderable LazyFee.covers, Host.step_reorderable SegmentedEventLog.covers⟩

end Schedule
