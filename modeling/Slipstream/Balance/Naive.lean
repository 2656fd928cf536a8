import Slipstream.Balance.Bank
import Slipstream.Host.Footprint

/-!
# All balances in one map

`NaiveBalance` keeps every balance in one map under one ledger key: each call
loads the map, changes its copy and stores it back. `refines_bank`: read
account by account, it is the bank too.
-/

namespace NaiveBalance

open Host (Env Fault Footprint Invocation checked requireAuth)
open Balance (Call Reply Accounts)

variable {Address : Type}

inductive DataKey
  | balances
  deriving DecidableEq

abbrev BalanceMap (Address : Type) := Finmap fun _ : Address => I128

abbrev Value (Address : Type) : DataKey → Type
  | .balances => BalanceMap Address

abbrev Ledger (Address : Type) := Host.Store (Value Address)

abbrev Program (Address α : Type) := Host.Prog (Value Address) Empty α

def load : Program Address (BalanceMap Address) := Host.getOr DataKey.balances ∅

def store (balances : BalanceMap Address) : Program Address Unit :=
  Host.set DataKey.balances balances

def balances (s : Ledger Address) : BalanceMap Address := Host.valueAt s .balances ∅

@[simp] theorem run_load (s : Ledger Address) : load.run s = .ok (balances s, s) := rfl

@[simp] theorem run_store (s : Ledger Address) (m : BalanceMap Address) :
    (store m).run s = .ok ((), s.insert .balances m) := rfl

variable [DecidableEq Address]

/-- `balances.get(who).unwrap_or(0)`. -/
def amountIn (balances : BalanceMap Address) (who : Address) : I128 :=
  (balances.lookup who).getD 0

def deposit (receiver : Address) (amount : I128) : Program Address I128 := do
  let balances ← load
  let newBalance ← checked ((amountIn balances receiver).add? amount)
  store (balances.insert receiver newBalance)
  return newBalance

/-- Nothing is stored until both updates of the copy are made. -/
def transfer (env : Env Address) (sender receiver : Address) (amount : I128) :
    Program Address Unit := do
  requireAuth env sender
  let balances ← load
  let senderBalance := amountIn balances sender
  Host.assert (amount ≤ senderBalance) "insufficient balance"
  let balances := balances.insert sender (← checked (senderBalance.sub? amount))
  let receiverBalance ← checked ((amountIn balances receiver).add? amount)
  store (balances.insert receiver receiverBalance)

def balance (who : Address) : Program Address I128 := do
  return amountIn (← load) who

def dispatch (env : Env Address) : Call Address → Program Address Reply
  | .deposit receiver amount => do return .amount (← deposit receiver amount)
  | .transfer sender receiver amount => do
    transfer env sender receiver amount
    return .unit
  | .balance who => do return .amount (← balance who)

abbrev step (s : Ledger Address) (i : Invocation Address (Call Address)) :
    Except (Fault Empty) Reply × Ledger Address := Host.step dispatch s i

def balanceOf (s : Ledger Address) : Accounts Address := amountIn (balances s)

-- ---------------------------------------------------------------------------
-- Footprints
-- ---------------------------------------------------------------------------

def footprint : Call Address → Footprint DataKey
  | .deposit _ _ | .transfer _ _ _ => { reads := ∅, writes := {.balances} }
  | .balance _ => { reads := {.balances}, writes := ∅ }

omit [DecidableEq Address] in
theorem covers_load {f : Footprint DataKey} (hk : .balances ∈ f.reads ∪ f.writes) :
    f.Covers (load : Program Address _) := Host.covers_getOr hk _

omit [DecidableEq Address] in
theorem covers_store {f : Footprint DataKey} (hk : .balances ∈ f.writes)
    (balances : BalanceMap Address) : f.Covers (store balances) := Host.covers_set hk _

theorem covers (env : Env Address) (c : Call Address) :
    (footprint c).Covers (dispatch env c) := by
  cases c with
  | deposit receiver amount =>
    have hb : .balances ∈ (footprint (.deposit receiver amount)).writes := rfl
    refine Host.covers_bind ?_ fun _ => Host.covers_pure _
    refine Host.covers_bind (covers_load (.inr hb)) fun _ => ?_
    refine Host.covers_bind (Host.covers_checked _) fun _ => ?_
    exact Host.covers_bind (covers_store hb _) fun _ => Host.covers_pure _
  | transfer sender receiver amount =>
    have hb : .balances ∈ (footprint (.transfer sender receiver amount)).writes := rfl
    refine Host.covers_bind ?_ fun _ => Host.covers_pure _
    refine Host.covers_bind (Host.covers_requireAuth env sender) fun _ => ?_
    refine Host.covers_bind (covers_load (.inr hb)) fun _ => ?_
    refine Host.covers_bind (Host.covers_assert _ _) fun _ => ?_
    refine Host.covers_bind (Host.covers_checked _) fun _ => ?_
    exact Host.covers_bind (Host.covers_checked _) fun _ => covers_store hb _
  | balance who =>
    refine Host.covers_bind ?_ fun _ => Host.covers_pure _
    exact Host.covers_bind (covers_load (.inl rfl)) fun _ => Host.covers_pure _

-- ---------------------------------------------------------------------------
-- Refinement
-- ---------------------------------------------------------------------------

variable (s : Ledger Address) (who : Address)

@[simp] theorem balanceOf_empty : balanceOf (∅ : Ledger Address) = Balance.noAccounts := by
  funext who
  simp [balanceOf, balances, amountIn, Balance.noAccounts]

omit [DecidableEq Address] in
@[simp] theorem balances_store (m : BalanceMap Address) :
    balances (s.insert .balances m) = m := by
  simp [balances]

theorem run_amountIn : (balance who).run s = .ok (amountIn (balances s) who, s) := rfl

@[simp] theorem balanceOf_store (m : BalanceMap Address) :
    balanceOf (s.insert .balances m) = amountIn m := by
  simp [balanceOf]

@[simp] theorem amountIn_balances : amountIn (balances s) = balanceOf s := rfl

@[simp] theorem amountIn_insert (m : BalanceMap Address) (amount : I128) :
    amountIn (m.insert who amount) = Function.update (amountIn m) who amount := by
  funext a
  by_cases h : a = who
  · subst h
    simp [amountIn]
  · simp [amountIn, Function.update_of_ne h, Finmap.lookup_insert_of_ne _ h]

@[simp] theorem run_balance : (balance who).run s = .ok (balanceOf s who, s) := rfl

def write (who : Address) (amount : I128) : Program Address Unit := do
  store ((← load).insert who amount)

theorem run_write (amount : I128) :
    (write who amount).run s = .ok ((), s.insert .balances ((balances s).insert who amount)) := rfl

theorem holds_balanceOf : Balance.Holds balanceOf (@balance Address _) write where
  read := run_balance
  write s who amount := ⟨_, run_write s who amount, by simp⟩

theorem run_deposit (amount : I128) :
    (deposit who amount).run s = (Balance.depositVia balance write who amount).run s := by
  simp only [deposit, Balance.depositVia, Host.run_ok_bind (run_load _),
    Host.run_ok_bind (run_amountIn _ _), Host.run_checked_bind,
    Host.run_ok_bind (run_write _ _ _), Host.run_ok_bind (run_store _ _)]

/-- Storing the map once is storing it after each update. -/
theorem run_transfer (env : Env Address) (sender receiver : Address) (amount : I128) :
    (transfer env sender receiver amount).run s =
      (Balance.transferVia balance write env sender receiver amount).run s := by
  simp only [transfer, Balance.transferVia, Host.run_requireAuth_bind,
    Host.run_ok_bind (run_load _), Host.run_ok_bind (run_amountIn _ _), Host.run_assert_bind,
    Host.run_checked_bind, Host.run_ok_bind (run_write _ _ _), run_write, run_store,
    balances_store, Finmap.insert_insert]

theorem refines_bank :
    Run.Simulates (fun (s : Ledger Address) b => balanceOf s = b) step Balance.step :=
  Balance.refines_of_runs holds_balanceOf run_deposit run_transfer

end NaiveBalance
