import Slipstream.Balance.BankLaws
import Slipstream.Balance.Naive
import Slipstream.Balance.PerUser

/-!
# Which transfers go through

An authorised transfer of an amount that its sender holds debits the sender
without overflow; it fails just when the receiver has no room for it. Nothing
keeps the supply within an `i128`, since a deposit is checked against the one
account it credits.
-/

namespace Balance

open Host (Env Fault Invocation)
open Run (final)

variable {Address S : Type}

/-- The receiver has room for the amount, or is the sender. -/
def Receivable (b : Accounts Address) (sender receiver : Address) (amount : I128) : Prop :=
  sender = receiver ∨ (b receiver).val + amount.val < 2 ^ 127

variable [DecidableEq Address] {b : Accounts Address} {sender receiver : Address} {amount : I128}
  {env : Env Address}

-- ---------------------------------------------------------------------------
-- At the bank
-- ---------------------------------------------------------------------------

theorem debit_succeeds (h0 : 0 ≤ amount.val) (hle : amount ≤ b sender) :
    ∃ w : I128, w.val = (b sender).val - amount.val ∧
      debit b sender amount = .ok (Function.update b sender w) := by
  rw [Ranged.le_def] at hle
  have hhi := (b sender).le_hi
  obtain ⟨w, hw⟩ : ∃ w : I128, w.val = (b sender).val - amount.val :=
    Ranged.exists_val.mpr ⟨by omega, by omega⟩
  exact ⟨w, hw, debit_ok.mpr ⟨hle, w, hw, rfl⟩⟩

/-- Authorised and covered, a transfer is the credit of the debited accounts. -/
theorem spec_transfer_covered (ha : sender ∈ env.auth) (h0 : 0 ≤ amount.val)
    (hle : amount ≤ b sender) (receiver : Address) :
    ∃ w : I128, w.val = (b sender).val - amount.val ∧
      spec env (.transfer sender receiver amount) b =
        (credit (Function.update b sender w) receiver amount).map
          (Prod.map (fun _ => .unit) id) := by
  obtain ⟨w, hw, hd⟩ := debit_succeeds h0 hle
  refine ⟨w, hw, ?_⟩
  simp only [spec, if_pos ha, hd, Host.ok_bind]
  cases credit (Function.update b sender w) receiver amount <;> rfl

theorem step_transfer_receivable (ha : sender ∈ env.auth) (h0 : 0 ≤ amount.val)
    (hle : amount ≤ b sender) (hr : Receivable b sender receiver amount) :
    (step b ⟨env, .transfer sender receiver amount⟩).1 = .ok .unit := by
  obtain ⟨w, hw, hs⟩ := spec_transfer_covered ha h0 hle receiver
  have hlo := (Function.update b sender w receiver).lo_le
  obtain ⟨v, hv⟩ : ∃ v : I128,
      v.val = (Function.update b sender w receiver).val + amount.val := by
    refine Ranged.exists_val.mpr ⟨by omega, ?_⟩
    by_cases he : receiver = sender
    · subst he
      have hhi := (b receiver).le_hi
      rw [Function.update_self]
      omega
    · have hroom := hr.resolve_left (Ne.symm he)
      rw [Function.update_of_ne he]
      omega
  rw [credit_ok.mpr ⟨hv, rfl⟩] at hs
  rw [step_of_ok hs]

theorem step_transfer_full (ha : sender ∈ env.auth) (h0 : 0 ≤ amount.val)
    (hle : amount ≤ b sender) (hr : ¬ Receivable b sender receiver amount) :
    step b ⟨env, .transfer sender receiver amount⟩ = (.error .overflow, b) := by
  obtain ⟨w, -, hs⟩ := spec_transfer_covered ha h0 hle receiver
  obtain ⟨hne, hroom⟩ := not_or.mp hr
  have hover : (b receiver).add? amount = none := Ranged.add?_eq_none.mpr (.inr (by omega))
  simp only [credit, Function.update_of_ne (Ne.symm hne), hover] at hs
  rw [step, hs]
  rfl

theorem step_transfer_uncovered (ha : sender ∈ env.auth) (hlt : b sender < amount) :
    step b ⟨env, .transfer sender receiver amount⟩ =
      (.error (.assertion "insufficient balance"), b) := by
  have hle : ¬ amount ≤ b sender := by
    rw [Ranged.lt_def] at hlt
    rw [Ranged.le_def]
    omega
  simp only [step, spec, if_pos ha, debit, if_neg hle]
  rfl

-- ---------------------------------------------------------------------------
-- Ledgers that refine the bank
-- ---------------------------------------------------------------------------

/-- What becomes of an authorised transfer that is not negative, on every
ledger a run leads to. -/
structure TransfersSettled (view : S → Accounts Address)
    (ledger : S → Invocation Address (Call Address) → Except (Fault Empty) Reply × S)
    (init : S) : Prop where
  answers : ∀ cs, Answers view ledger (final ledger init cs)
  moved : ∀ cs (env : Env Address) sender receiver (amount : I128), sender ∈ env.auth →
    0 ≤ amount.val → amount ≤ view (final ledger init cs) sender →
      Receivable (view (final ledger init cs)) sender receiver amount →
        (ledger (final ledger init cs) ⟨env, .transfer sender receiver amount⟩).1 = .ok .unit
  full : ∀ cs (env : Env Address) sender receiver (amount : I128), sender ∈ env.auth →
    0 ≤ amount.val → amount ≤ view (final ledger init cs) sender →
      ¬ Receivable (view (final ledger init cs)) sender receiver amount →
        (ledger (final ledger init cs) ⟨env, .transfer sender receiver amount⟩).1 =
          .error .overflow
  uncovered : ∀ cs (env : Env Address) sender receiver (amount : I128), sender ∈ env.auth →
    view (final ledger init cs) sender < amount →
      (ledger (final ledger init cs) ⟨env, .transfer sender receiver amount⟩).1 =
        .error (.assertion "insufficient balance")

section
variable {view : S → Accounts Address}
  {ledger : S → Invocation Address (Call Address) → Except (Fault Empty) Reply × S}

theorem settled_of_refines (hr : Run.Simulates (fun s b => view s = b) ledger step) (init : S) :
    TransfersSettled view ledger init where
  answers _ := answers_of_refines hr _
  moved _ _ _ _ _ ha h0 hle hroom :=
    (hr _ _ _ rfl).1.trans (step_transfer_receivable ha h0 hle hroom)
  full _ _ _ _ _ ha h0 hle hroom :=
    (hr _ _ _ rfl).1.trans (congrArg Prod.fst (step_transfer_full ha h0 hle hroom))
  uncovered _ _ _ _ _ ha hlt :=
    (hr _ _ _ rfl).1.trans (congrArg Prod.fst (step_transfer_uncovered ha hlt))

end

theorem transfers_settled :
    TransfersSettled PerUserBalance.balanceOf PerUserBalance.step
        (∅ : PerUserBalance.Ledger Address) ∧
      TransfersSettled NaiveBalance.balanceOf NaiveBalance.step
        (∅ : NaiveBalance.Ledger Address) :=
  ⟨settled_of_refines PerUserBalance.refines_bank ∅, settled_of_refines NaiveBalance.refines_bank ∅⟩

/-- Account 1 holds the largest amount and account 2 holds 1, which it cannot
move to account 1. -/
theorem held_amount_stuck :
    let most : I128 := ⟨2 ^ 127 - 1, by decide, by decide⟩
    let one : I128 := ⟨1, by decide, by decide⟩
    let cs : List (Invocation Nat (Call Nat)) :=
      [⟨⟨∅⟩, .deposit 1 most⟩, ⟨⟨∅⟩, .deposit 2 one⟩]
    let moved : Invocation Nat (Call Nat) := ⟨⟨{2}⟩, .transfer 2 1 one⟩
    (one ≤ PerUserBalance.balanceOf (final PerUserBalance.step ∅ cs) 2 ∧
      (PerUserBalance.step (final PerUserBalance.step ∅ cs) moved).1 = .error .overflow) ∧
    (one ≤ NaiveBalance.balanceOf (final NaiveBalance.step ∅ cs) 2 ∧
      (NaiveBalance.step (final NaiveBalance.step ∅ cs) moved).1 = .error .overflow) := by
  decide

end Balance
