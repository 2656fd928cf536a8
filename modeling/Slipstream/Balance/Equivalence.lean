import Slipstream.Balance.Naive
import Slipstream.Balance.PerUser

/-!
# The two layouts are one ledger

Both contracts refine the bank, so on ledgers with the same balances they
answer every call alike, fault for fault, and keep the same balances.
-/

namespace Balance

open Host (Invocation)
open Run (final outputs)

variable {Address : Type} [DecidableEq Address]

/-- Every account has the same balance in both; absent entries are zero. -/
def Related (n : NaiveBalance.Ledger Address) (p : PerUserBalance.Ledger Address) : Prop :=
  ∀ who, NaiveBalance.balanceOf n who = PerUserBalance.balanceOf p who

theorem simulates_related :
    Run.Simulates (@Related Address _) NaiveBalance.step PerUserBalance.step := by
  intro n p i h
  obtain ⟨hno, hnn⟩ := NaiveBalance.refines_bank n _ i rfl
  obtain ⟨hpo, hpn⟩ := PerUserBalance.refines_bank p _ i rfl
  rw [funext h] at hno hnn
  exact ⟨hno.trans hpo.symm, congrFun (hnn.trans hpn.symm)⟩

theorem related_empty : Related (∅ : NaiveBalance.Ledger Address) ∅ := by
  intro who
  rw [NaiveBalance.balanceOf_empty, PerUserBalance.balanceOf_empty]

theorem naive_perUser_equivalent :
    (∀ (n : NaiveBalance.Ledger Address) (p : PerUserBalance.Ledger Address)
        (i : Invocation Address (Call Address)), Related n p →
      (NaiveBalance.step n i).1 = (PerUserBalance.step p i).1 ∧
        Related (NaiveBalance.step n i).2 (PerUserBalance.step p i).2) ∧
    ∀ cs : List (Invocation Address (Call Address)),
      outputs NaiveBalance.step ∅ cs = outputs PerUserBalance.step ∅ cs ∧
        Related (final NaiveBalance.step ∅ cs) (final PerUserBalance.step ∅ cs) :=
  ⟨simulates_related, simulates_related.run related_empty⟩

end Balance
