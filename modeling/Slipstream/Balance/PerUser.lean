import Slipstream.Balance.Bank
import Slipstream.Host.Footprint

/-!
# One ledger key per account

`PerUserBalance` keeps each balance under a key of its own; an absent key is
a balance of zero. `refines_bank`: read key by key, it is the bank.
-/

namespace PerUserBalance

open Host (Env Fault Footprint Invocation checked requireAuth)
open Balance (Call Reply Accounts)

variable {Address : Type} [DecidableEq Address]

inductive DataKey (Address : Type)
  | balance (who : Address)
  deriving DecidableEq

abbrev Value : DataKey Address → Type
  | .balance _ => I128

abbrev Ledger (Address : Type) := Host.Store (@Value Address)

abbrev Program (Address α : Type) := Host.Prog (@Value Address) Empty α

def read (who : Address) : Program Address I128 := Host.getOr (DataKey.balance who) 0

def write (who : Address) (amount : I128) : Program Address Unit :=
  Host.set (DataKey.balance who) amount

def deposit (receiver : Address) (amount : I128) : Program Address I128 := do
  let newBalance ← checked ((← read receiver).add? amount)
  write receiver newBalance
  return newBalance

def transfer (env : Env Address) (sender receiver : Address) (amount : I128) :
    Program Address Unit := do
  requireAuth env sender
  let senderBalance ← read sender
  Host.assert (amount ≤ senderBalance) "insufficient balance"
  write sender (← checked (senderBalance.sub? amount))
  let receiverBalance ← checked ((← read receiver).add? amount)
  write receiver receiverBalance

def balance (who : Address) : Program Address I128 := read who

def dispatch (env : Env Address) : Call Address → Program Address Reply
  | .deposit receiver amount => do return .amount (← deposit receiver amount)
  | .transfer sender receiver amount => do
    transfer env sender receiver amount
    return .unit
  | .balance who => do return .amount (← balance who)

abbrev step (s : Ledger Address) (i : Invocation Address (Call Address)) :
    Except (Fault Empty) Reply × Ledger Address := Host.step dispatch s i

-- ---------------------------------------------------------------------------
-- Footprints
-- ---------------------------------------------------------------------------

def footprint : Call Address → Footprint (DataKey Address)
  | .deposit receiver _ => { reads := ∅, writes := {.balance receiver} }
  | .transfer sender receiver _ => { reads := ∅, writes := {.balance sender, .balance receiver} }
  | .balance who => { reads := {.balance who}, writes := ∅ }

theorem covers_read {f : Footprint (DataKey Address)} {who : Address}
    (hk : .balance who ∈ f.reads ∪ f.writes) : f.Covers (read who) := Host.covers_getOr hk _

theorem covers_write {f : Footprint (DataKey Address)} {who : Address}
    (hk : .balance who ∈ f.writes) (amount : I128) : f.Covers (write who amount) :=
  Host.covers_set hk _

theorem covers (env : Env Address) (c : Call Address) :
    (footprint c).Covers (dispatch env c) := by
  cases c with
  | deposit receiver amount =>
    have hr : .balance receiver ∈ (footprint (.deposit receiver amount)).writes := rfl
    refine Host.covers_bind ?_ fun _ => Host.covers_pure _
    refine Host.covers_bind (covers_read (.inr hr)) fun _ => ?_
    refine Host.covers_bind (Host.covers_checked _) fun _ => ?_
    exact Host.covers_bind (covers_write hr _) fun _ => Host.covers_pure _
  | transfer sender receiver amount =>
    have hs : .balance sender ∈ (footprint (.transfer sender receiver amount)).writes := .inl rfl
    have hr : .balance receiver ∈ (footprint (.transfer sender receiver amount)).writes :=
      .inr rfl
    refine Host.covers_bind ?_ fun _ => Host.covers_pure _
    refine Host.covers_bind (Host.covers_requireAuth env sender) fun _ => ?_
    refine Host.covers_bind (covers_read (.inr hs)) fun _ => ?_
    refine Host.covers_bind (Host.covers_assert _ _) fun _ => ?_
    refine Host.covers_bind (Host.covers_checked _) fun _ => ?_
    refine Host.covers_bind (covers_write hs _) fun _ => ?_
    refine Host.covers_bind (covers_read (.inr hr)) fun _ => ?_
    exact Host.covers_bind (Host.covers_checked _) fun _ => covers_write hr _
  | balance who =>
    exact Host.covers_bind (covers_read (.inl rfl)) fun _ => Host.covers_pure _

-- ---------------------------------------------------------------------------
-- Refinement
-- ---------------------------------------------------------------------------

def balanceOf (s : Ledger Address) : Accounts Address := fun who =>
  Host.valueAt s (.balance who) 0

variable (s : Ledger Address) (who : Address)

@[simp] theorem run_read : (read who).run s = .ok (balanceOf s who, s) := rfl

@[simp] theorem run_write (amount : I128) :
    (write who amount).run s = .ok ((), s.insert (.balance who) amount) := rfl

@[simp] theorem balanceOf_empty : balanceOf (∅ : Ledger Address) = Balance.noAccounts := by
  funext who
  simp [balanceOf, Balance.noAccounts]

@[simp] theorem balanceOf_insert (amount : I128) :
    balanceOf (s.insert (.balance who) amount) = Function.update (balanceOf s) who amount :=
  Host.valueAt_insert_update (fun _ _ => DataKey.balance.inj) s who amount fun _ => 0

@[simp] theorem run_balance : (balance who).run s = .ok (balanceOf s who, s) := rfl

theorem holds_balanceOf : Balance.Holds balanceOf (@read Address) write where
  read := run_read
  write s who amount := ⟨_, run_write s who amount, balanceOf_insert s who amount⟩

theorem refines_bank :
    Run.Simulates (fun (s : Ledger Address) b => balanceOf s = b) step Balance.step :=
  Balance.refines_of_runs holds_balanceOf (fun _ _ _ => rfl) fun _ _ _ _ _ => rfl

end PerUserBalance
