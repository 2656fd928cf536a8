import Slipstream.Base.Ranged
import Slipstream.Host.Prog
import Mathlib.Logic.Function.Basic

/-!
# The bank

What the balance ledgers are for: accounts, each with an amount, that
deposits add to and transfers move between. The state is a function from
addresses to amounts; how a contract lays it out in ledger keys is the
contract's business.
-/

namespace Balance

open Host (Env Fault Invocation checked requireAuth settle)

variable {Address : Type}

/-- The entry points both balance contracts share. -/
inductive Call (Address : Type)
  | deposit (receiver : Address) (amount : I128)
  | transfer (sender receiver : Address) (amount : I128)
  | balance (who : Address)

inductive Reply
  | amount (value : I128)
  | unit
  deriving DecidableEq, Repr

abbrev Accounts (Address : Type) := Address → I128

def noAccounts : Accounts Address := fun _ => 0

variable [DecidableEq Address]

def credit (b : Accounts Address) (receiver : Address) (amount : I128) :
    Except (Fault Empty) (I128 × Accounts Address) :=
  match (b receiver).add? amount with
  | some v => .ok (v, Function.update b receiver v)
  | none => .error .overflow

def debit (b : Accounts Address) (sender : Address) (amount : I128) :
    Except (Fault Empty) (Accounts Address) :=
  if amount ≤ b sender then
    match (b sender).sub? amount with
    | some v => .ok (Function.update b sender v)
    | none => .error .overflow
  else .error (.assertion "insufficient balance")

/-- A transfer debits first: the credit sees the debited accounts. -/
def spec (env : Env Address) :
    Call Address → Accounts Address → Except (Fault Empty) (Reply × Accounts Address)
  | .deposit receiver amount, b => do
    let (v, b') ← credit b receiver amount
    return (.amount v, b')
  | .transfer sender receiver amount, b =>
    if sender ∈ env.auth then do
      let b' ← debit b sender amount
      let (_, b'') ← credit b' receiver amount
      return (.unit, b'')
    else .error .unauthorised
  | .balance who, b => .ok (.amount (b who), b)

def step (b : Accounts Address) (i : Invocation Address (Call Address)) :
    Except (Fault Empty) Reply × Accounts Address :=
  settle (spec i.env i.call b) b

-- ---------------------------------------------------------------------------
-- Contracts that refine the bank
-- ---------------------------------------------------------------------------

section
variable {K : Type} [DecidableEq K] {V : K → Type} {view : Host.Store V → Accounts Address}
  {read : Address → Host.Prog V Empty I128} {write : Address → I128 → Host.Prog V Empty Unit}

/-- Amounts that a contract reads and writes account by account. -/
structure Holds (view : Host.Store V → Accounts Address)
    (read : Address → Host.Prog V Empty I128) (write : Address → I128 → Host.Prog V Empty Unit) :
    Prop where
  read : ∀ s who, (read who).run s = .ok (view s who, s)
  write : ∀ s who v, ∃ s', (write who v).run s = .ok ((), s') ∧
    view s' = Function.update (view s) who v

variable (read write) in
def depositVia (receiver : Address) (amount : I128) : Host.Prog V Empty I128 := do
  let newBalance ← checked ((← read receiver).add? amount)
  write receiver newBalance
  return newBalance

variable (read write) in
def transferVia (env : Env Address) (sender receiver : Address) (amount : I128) :
    Host.Prog V Empty Unit := do
  requireAuth env sender
  let senderBalance ← read sender
  Host.assert (amount ≤ senderBalance) "insufficient balance"
  write sender (← checked (senderBalance.sub? amount))
  let receiverBalance ← checked ((← read receiver).add? amount)
  write receiver receiverBalance

theorem run_depositVia (h : Holds view read write) (s : Host.Store V) (who : Address)
    (amount : I128) : ((depositVia read write who amount).run s).map (Prod.map id view) =
      credit (view s) who amount := by
  unfold depositVia credit
  cases ha : (view s who).add? amount with
  | none => simp [h.read, ha]
  | some v =>
    obtain ⟨s', hs, hv⟩ := h.write s who v
    simp [h.read, ha, hs, hv]

theorem run_transferVia (h : Holds view read write) (s : Host.Store V) (env : Env Address)
    (sender receiver : Address) (amount : I128) :
    ((transferVia read write env sender receiver amount).run s).map
        (Prod.map (fun _ => Reply.unit) view) =
      spec env (.transfer sender receiver amount) (view s) := by
  unfold transferVia spec debit credit
  by_cases ha : sender ∈ env.auth
  · by_cases hle : amount ≤ view s sender
    · cases hw : (view s sender).sub? amount with
      | none => simp [h.read, ha, hle, hw]
      | some w =>
        obtain ⟨s', hs, hd⟩ := h.write s sender w
        cases hv : (Function.update (view s) sender w receiver).add? amount with
        | none => simp [h.read, ha, hle, hw, hs, hd, hv]
        | some v =>
          obtain ⟨s'', hs', hc⟩ := h.write s' receiver v
          simp [h.read, ha, hle, hw, hs, hd, hv, hs', hc]
    · simp [h.read, ha, hle]
  · simp [ha]

theorem refines_of_runs {deposit : Address → I128 → Host.Prog V Empty I128}
    {transfer : Env Address → Address → Address → I128 → Host.Prog V Empty Unit}
    (h : Holds view read write)
    (hd : ∀ s who amount,
      (deposit who amount).run s = (depositVia read write who amount).run s)
    (ht : ∀ s env sender receiver amount, (transfer env sender receiver amount).run s =
      (transferVia read write env sender receiver amount).run s) :
    Run.Simulates (fun (s : Host.Store V) b => view s = b) (Host.step fun env c => match c with
      | .deposit receiver amount => do return .amount (← deposit receiver amount)
      | .transfer sender receiver amount => do
        transfer env sender receiver amount
        return .unit
      | .balance who => do return .amount (← read who)) step := by
  refine Host.step_simulates fun env c s => ?_
  cases c with
  | deposit receiver amount =>
    simp only [spec, ← run_depositVia h, ← hd]
    cases h : (deposit receiver amount).run s <;> simp [h]
  | transfer sender receiver amount =>
    rw [← run_transferVia h, ← ht]
    cases h : (transfer env sender receiver amount).run s <;> simp [h, Prod.map]
  | balance who => simp [h.read, spec]

end

/-- `view` is what `balance` answers. -/
def Answers {S : Type} (view : S → Accounts Address)
    (ledger : S → Invocation Address (Call Address) → Except (Fault Empty) Reply × S) (s : S) :
    Prop :=
  ∀ env who, (ledger s ⟨env, .balance who⟩).1 = .ok (.amount (view s who))

theorem answers_of_refines {S : Type} {view : S → Accounts Address}
    {ledger : S → Invocation Address (Call Address) → Except (Fault Empty) Reply × S}
    (hr : Run.Simulates (fun s b => view s = b) ledger step) (s : S) : Answers view ledger s :=
  fun _ _ => (hr s _ _ rfl).1

-- ---------------------------------------------------------------------------
-- What a successful call does
-- ---------------------------------------------------------------------------

variable {b b' : Accounts Address} {receiver sender : Address} {amount v : I128} {env : Env Address}
  {r : Reply}

theorem credit_ok :
    credit b receiver amount = .ok (v, b') ↔
      v.val = (b receiver).val + amount.val ∧ b' = Function.update b receiver v := by
  rw [← Ranged.add?_eq_some]
  unfold credit
  cases h : (b receiver).add? amount with
  | none => simp
  | some w =>
    constructor
    · intro he
      cases he
      exact ⟨rfl, rfl⟩
    · rintro ⟨hv, rfl⟩
      cases hv
      rfl

theorem debit_ok :
    debit b sender amount = .ok b' ↔
      amount ≤ b sender ∧ ∃ w : I128, w.val = (b sender).val - amount.val ∧
        b' = Function.update b sender w := by
  simp only [← Ranged.sub?_eq_some]
  unfold debit
  split
  next hle =>
    cases h : (b sender).sub? amount with
    | none => simp
    | some w =>
      constructor
      · intro he
        cases he
        exact ⟨hle, w, rfl, rfl⟩
      · rintro ⟨_, u, hu, rfl⟩
        cases hu
        rfl
  next hle => exact ⟨fun he => (nomatch he), fun ⟨h, _⟩ => absurd h hle⟩

theorem spec_deposit_ok :
    spec env (.deposit receiver amount) b = .ok (r, b') ↔
      ∃ v : I128, v.val = (b receiver).val + amount.val ∧ r = .amount v ∧
        b' = Function.update b receiver v := by
  constructor
  · intro he
    obtain ⟨⟨v, c⟩, hc, hr⟩ := Host.bind_eq_ok.mp he
    obtain ⟨hv, rfl⟩ := credit_ok.mp hc
    cases hr
    exact ⟨v, hv, rfl, rfl⟩
  · rintro ⟨v, hv, rfl, rfl⟩
    exact Host.bind_eq_ok.mpr ⟨(v, _), credit_ok.mpr ⟨hv, rfl⟩, rfl⟩

/-- The two endpoints may be one account: its credit is then computed from
the debited amount, and puts it back. -/
theorem spec_transfer_ok :
    spec env (.transfer sender receiver amount) b = .ok (r, b') ↔
      sender ∈ env.auth ∧ amount ≤ b sender ∧
        ∃ w v : I128, w.val = (b sender).val - amount.val ∧
          v.val = (Function.update b sender w receiver).val + amount.val ∧ r = .unit ∧
          b' = Function.update (Function.update b sender w) receiver v := by
  simp only [spec]
  split
  next ha =>
    simp only [ha, true_and]
    constructor
    · intro he
      obtain ⟨c, hd, he⟩ := Host.bind_eq_ok.mp he
      obtain ⟨⟨v, c'⟩, hc, hr⟩ := Host.bind_eq_ok.mp he
      obtain ⟨hle, w, hw, rfl⟩ := debit_ok.mp hd
      obtain ⟨hv, rfl⟩ := credit_ok.mp hc
      cases hr
      exact ⟨hle, w, v, hw, hv, rfl, rfl⟩
    · rintro ⟨hle, w, v, hw, hv, rfl, rfl⟩
      have hc := credit_ok.mpr ⟨hv, rfl⟩
      exact Host.bind_eq_ok.mpr ⟨_, debit_ok.mpr ⟨hle, w, hw, rfl⟩,
        Host.bind_eq_ok.mpr ⟨_, hc, rfl⟩⟩
  next ha => exact ⟨fun he => (nomatch he), fun h => absurd h.1 ha⟩

end Balance
