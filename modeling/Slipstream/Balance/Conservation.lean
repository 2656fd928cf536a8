import Slipstream.Base.Total
import Slipstream.Balance.BankLaws
import Slipstream.Balance.Naive
import Slipstream.Balance.PerUser

/-!
# Conservation of balances

`Conserved`: in every run of a ledger the exact sum of all balances is the
sum of what was deposited, and a transfer only moves its amount between its
two accounts. The bank conserves balances (`total_step`, then `total_run`);
both contracts do because they refine it.
-/

namespace Balance

open Host (Env Fault Invocation)
open Run (final tally)

variable {Address : Type}

/-- What an answered call added to the ledger: the amount of a deposit that
succeeded. -/
def depositOf (i : Invocation Address (Call Address)) (o : Except (Fault Empty) Reply) : Int :=
  match i.call, o with
  | .deposit _ amount, .ok _ => amount.val
  | _, _ => 0

variable {S : Type}

def deposited (step : S → Invocation Address (Call Address) → Except (Fault Empty) Reply × S)
    (s : S) (cs : List (Invocation Address (Call Address))) : Int :=
  tally step (fun _ i r => depositOf i r.1) s cs

structure Conserved (view : S → Accounts Address)
    (step : S → Invocation Address (Call Address) → Except (Fault Empty) Reply × S)
    (init : S) : Prop where
  answers : ∀ cs, Answers view step (final step init cs)
  finite : ∀ cs, Total.Finite (view (final step init cs))
  total : ∀ cs, Total.sum (view (final step init cs)) = deposited step init cs
  moves : ∀ cs env sender receiver amount r,
    (step (final step init cs) ⟨env, .transfer sender receiver amount⟩).1 = .ok r →
      Moves sender receiver amount (view (final step init cs))
        (view (step (final step init cs) ⟨env, .transfer sender receiver amount⟩).2)

-- ---------------------------------------------------------------------------
-- The bank conserves balances
-- ---------------------------------------------------------------------------

variable [DecidableEq Address] {b : Accounts Address}

theorem total_step (hb : Total.Finite b) (i : Invocation Address (Call Address)) :
    Total.Finite (step b i).2 ∧
      Total.sum (step b i).2 = Total.sum b + depositOf i (step b i).1 := by
  obtain ⟨env, call⟩ := i
  obtain ⟨f, hi⟩ | ⟨receiver, amount, v, rfl, hv, hi⟩ |
    ⟨sender, receiver, amount, b', rfl, hs, hi⟩ | ⟨who, rfl, hi⟩ := step_cases b ⟨env, call⟩
  · rw [hi]
    exact ⟨hb, by cases call <;> simp [depositOf]⟩
  · rw [hi]
    refine ⟨Total.finite_update hb _ _, ?_⟩
    rw [Total.sum_update hb]
    simp only [depositOf]
    omega
  · obtain ⟨-, -, w, v, hw, hv, -, rfl⟩ := spec_transfer_ok.mp hs
    rw [hi]
    refine ⟨Total.finite_update (Total.finite_update hb _ _) _ _, ?_⟩
    rw [Total.sum_update (Total.finite_update hb _ _), Total.sum_update hb]
    simp only [depositOf]
    omega
  · rw [hi]
    exact ⟨hb, by simp [depositOf]⟩

theorem total_run (hb : Total.Finite b) (cs : List (Invocation Address (Call Address))) :
    Total.Finite (final step b cs) ∧
      Total.sum (final step b cs) = Total.sum b + deposited step b cs := by
  induction cs generalizing b with
  | nil => exact ⟨hb, by simp [deposited]⟩
  | cons i cs ih =>
    obtain ⟨hf, ht⟩ := total_step hb i
    obtain ⟨hf', ht'⟩ := ih hf
    refine ⟨hf', ?_⟩
    simp only [Run.final_cons, ht', ht, deposited, Run.tally_cons]
    omega

-- ---------------------------------------------------------------------------
-- Ledgers that refine the bank
-- ---------------------------------------------------------------------------

section
variable {view : S → Accounts Address}
  {ledger : S → Invocation Address (Call Address) → Except (Fault Empty) Reply × S}

theorem conserved_of_refines (hr : Run.Simulates (fun s b => view s = b) ledger step) {init : S}
    (h0 : view init = noAccounts) : Conserved view ledger init where
  answers _ := answers_of_refines hr _
  finite cs := by
    rw [(hr.run h0 cs).2]
    exact (total_run (Total.finite_of_eq_zero fun _ => rfl) cs).1
  total cs := by
    rw [(hr.run h0 cs).2, (total_run (Total.finite_of_eq_zero fun _ => rfl) cs).2,
      Total.sum_of_eq_zero fun _ => rfl, Int.zero_add]
    exact (hr.tally depositOf h0 cs).symm
  moves cs env sender receiver amount r hok := by
    obtain ⟨ho, hn⟩ := hr (final ledger init cs) _ ⟨env, .transfer sender receiver amount⟩ rfl
    rw [hn]
    rw [ho] at hok
    obtain ⟨r', b', hs, hi⟩ | ⟨f, -, hi⟩ := Host.settle_cases
      (spec env (.transfer sender receiver amount) (view (final ledger init cs))) _
    · rw [step, hi]
      exact (transfer_ok hs).2.2.2
    · rw [step, hi] at hok
      cases hok

end

theorem ledgers_conserved :
    Conserved PerUserBalance.balanceOf PerUserBalance.step (∅ : PerUserBalance.Ledger Address) ∧
      Conserved NaiveBalance.balanceOf NaiveBalance.step (∅ : NaiveBalance.Ledger Address) :=
  ⟨conserved_of_refines PerUserBalance.refines_bank PerUserBalance.balanceOf_empty,
    conserved_of_refines NaiveBalance.refines_bank NaiveBalance.balanceOf_empty⟩

end Balance
