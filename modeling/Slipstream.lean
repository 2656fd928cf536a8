import Slipstream.Base.Ranged
import Slipstream.Base.Run
import Slipstream.Base.Reorder
import Slipstream.Base.Total
import Slipstream.Base.Component
import Slipstream.Base.Count
import Slipstream.Base.Lease
import Slipstream.Base.Interleave
import Slipstream.Base.Tape
import Slipstream.Base.Search
import Slipstream.Base.Stages
import Slipstream.Base.Cliques
import Slipstream.Base.Layout
import Slipstream.Host.Prog
import Slipstream.Host.Footprint
import Slipstream.Host.Loop
import Slipstream.Host.Parallel
import Slipstream.Host.Queue
import Slipstream.Host.Temporary
import Slipstream.Host.Timed
import Slipstream.Counter.Naive
import Slipstream.Counter.Sharded
import Slipstream.Counter.Totals
import Slipstream.Counter.Saturation
import Slipstream.Admin.Naive
import Slipstream.Admin.Batched
import Slipstream.Admin.Width
import Slipstream.EventLog.Naive
import Slipstream.EventLog.Segmented
import Slipstream.EventLog.Merge
import Slipstream.EventLog.AppendOnly
import Slipstream.Balance.Bank
import Slipstream.Balance.BankLaws
import Slipstream.Balance.Naive
import Slipstream.Balance.PerUser
import Slipstream.Balance.Equivalence
import Slipstream.Balance.Conservation
import Slipstream.Balance.NegativeAmounts
import Slipstream.Balance.Transfers
import Slipstream.Fee.Naive
import Slipstream.Fee.Lazy
import Slipstream.Fee.Reconcile
import Slipstream.Fee.SweepOrder
import Slipstream.Fee.Limits
import Slipstream.Nonce.Naive
import Slipstream.Nonce.PerUser
import Slipstream.Nonce.Replay
import Slipstream.Nonce.Epochs
import Slipstream.Schedule.Reordering
import Slipstream.Schedule.Stages
import Slipstream.Schedule.Parallel
import Slipstream.Schedule.Queues
import Slipstream.Schedule.Refinement
import Slipstream.Harness.BenchMd
import Slipstream.Harness.BenchBlock
import Slipstream.Harness.BenchIdempotent
import Slipstream.Harness.BenchRuns
import Slipstream.Harness.Table
import Slipstream.Harness.TableShape
import Slipstream.Harness.Commands
import Slipstream.Harness.ExitStatus
import Slipstream.Harness.Discover
import Slipstream.Harness.Disk
import Slipstream.Harness.Main
import Slipstream.Harness.ExitCodes
import Slipstream.Harness.Session
import Slipstream.Harness.Corpus
import Slipstream.Harness.Relaunch
import Slipstream.Harness.Summary
