import Slipstream.Base.Ranged
import Slipstream.Host.Footprint

/-!
# The configuration under one key

`BatchedAdmin` keeps the whole configuration as one value, and replaces it as
one.
-/

namespace BatchedAdmin

open Host (Env Fault Footprint Invocation)

variable {Address : Type}

structure Config where
  feeBps : UInt32
  maxAmount : I128
  paused : Bool
  adminCount : UInt32
  minAmount : I128
  feeRecipientSet : Bool
  deriving DecidableEq, Repr

def Config.default : Config where
  feeBps := 0
  maxAmount := 0
  paused := false
  adminCount := 0
  minAmount := 0
  feeRecipientSet := false

inductive DataKey
  | config
  deriving DecidableEq

abbrev Value : DataKey → Type
  | .config => Config

abbrev Ledger := Host.Store Value

abbrev Program (α : Type) := Host.Prog Value Empty α

def setConfig (config : Config) : Program Unit := Host.set .config config

def getConfig : Program Config := Host.getOr .config Config.default

def feeBps : Program UInt32 := do return (← getConfig).feeBps

inductive Call
  | setConfig (config : Config)
  | getConfig
  | feeBps

inductive Reply
  | unit
  | config (value : Config)
  | feeBps (value : UInt32)
  deriving DecidableEq, Repr

def dispatch (_ : Env Address) : Call → Program Reply
  | .setConfig config => do
    setConfig config
    return .unit
  | .getConfig => do return .config (← getConfig)
  | .feeBps => do return .feeBps (← feeBps)

abbrev step (s : Ledger) (i : Invocation Address Call) : Except (Fault Empty) Reply × Ledger :=
  Host.step dispatch s i

-- ---------------------------------------------------------------------------
-- Footprints
-- ---------------------------------------------------------------------------

def footprint : Call → Footprint DataKey
  | .setConfig _ => { reads := ∅, writes := {.config} }
  | .getConfig | .feeBps => { reads := {.config}, writes := ∅ }

theorem covers_getConfig {f : Footprint DataKey} (hk : .config ∈ f.reads ∪ f.writes) :
    f.Covers getConfig := Host.covers_getOr hk _

theorem covers (env : Env Address) (c : Call) : (footprint c).Covers (dispatch env c) := by
  cases c with
  | setConfig config =>
    exact Host.covers_bind (Host.covers_set rfl _) fun _ => Host.covers_pure _
  | getConfig => exact Host.covers_bind (covers_getConfig (.inl rfl)) fun _ => Host.covers_pure _
  | feeBps =>
    refine Host.covers_bind ?_ fun _ => Host.covers_pure _
    exact Host.covers_bind (covers_getConfig (.inl rfl)) fun _ => Host.covers_pure _

end BatchedAdmin
