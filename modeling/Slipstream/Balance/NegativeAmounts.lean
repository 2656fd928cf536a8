import Slipstream.Balance.BankLaws
import Slipstream.Balance.Naive
import Slipstream.Balance.PerUser

/-!
# Negative amounts

Neither contract checks the sign of an amount. `authorised_debits_iff`: a
call debits an account that did not send and authorise it exactly when it is
`DebitsUnasked`. `never_overdrawn_iff`: a run leaves every balance
non-negative throughout exactly when none of its calls `Overdraws`. Both
exceptions are calls with a negative amount.
-/

namespace Balance

open Host (Env Fault Invocation)
open Run (final EachStep EachState)

variable {Address S : Type}

def Debited (view : S → Accounts Address)
    (step : S → Invocation Address (Call Address) → Except (Fault Empty) Reply × S) (s : S)
    (i : Invocation Address (Call Address)) (a : Address) : Prop :=
  (∃ r, (step s i).1 = .ok r) ∧ view (step s i).2 a < view s a

def Authorised (i : Invocation Address (Call Address)) (a : Address) : Prop :=
  a ∈ i.env.auth ∧ ∃ receiver amount, i.call = .transfer a receiver amount

def OnlyAuthorisedDebits (view : S → Accounts Address)
    (step : S → Invocation Address (Call Address) → Except (Fault Empty) Reply × S) (s : S)
    (i : Invocation Address (Call Address)) : Prop :=
  ∀ a, Debited view step s i a → Authorised i a

/-- A negative amount that gets past every check: a deposit of it that does
not overflow, or an authorised transfer of it between two accounts that does
not fail on the sender's balance or overflow at either end. -/
def DebitsUnasked (b : Accounts Address) (i : Invocation Address (Call Address)) : Prop :=
  match i.call with
  | .deposit receiver amount => amount.val < 0 ∧ -2 ^ 127 ≤ (b receiver).val + amount.val
  | .transfer sender receiver amount =>
    amount.val < 0 ∧ sender ≠ receiver ∧ sender ∈ i.env.auth ∧ amount ≤ b sender ∧
      (b sender).val - amount.val ≤ 2 ^ 127 - 1 ∧ -2 ^ 127 ≤ (b receiver).val + amount.val
  | .balance _ => False

/-- A negative amount larger than what the credited account holds: a deposit
of it, or an authorised transfer of it between two accounts whose sender does
not overflow. -/
def Overdraws (b : Accounts Address) (i : Invocation Address (Call Address)) : Prop :=
  match i.call with
  | .deposit receiver amount => (b receiver).val < -amount.val
  | .transfer sender receiver amount =>
    (b receiver).val < -amount.val ∧ sender ≠ receiver ∧ sender ∈ i.env.auth ∧
      (b sender).val - amount.val ≤ 2 ^ 127 - 1
  | .balance _ => False

def NonNegative (b : Accounts Address) : Prop := ∀ a, 0 ≤ (b a).val

variable [DecidableEq Address] {b b' : Accounts Address} {sender receiver : Address}
  {amount : I128} {i : Invocation Address (Call Address)}

-- ---------------------------------------------------------------------------
-- Unasked debits at the bank
-- ---------------------------------------------------------------------------

/-- A transfer can lower its sender, or with a negative amount its receiver. -/
theorem Moves.lowered (h : Moves sender receiver amount b b') {a : Address} (hlt : b' a < b a) :
    a = sender ∨ (a = receiver ∧ sender ≠ receiver ∧ amount.val < 0) := by
  by_cases hs : a = sender
  · exact .inl hs
  · by_cases hr : a = receiver
    · subst hr
      have hne : sender ≠ a := fun he => hs he.symm
      have hv := (h.moved hne).2
      rw [Ranged.lt_def, hv] at hlt
      exact .inr ⟨rfl, hne, by omega⟩
    · rw [Ranged.lt_def, h.frame a hs hr] at hlt
      omega

theorem unasked_of_debited (hd : ¬ OnlyAuthorisedDebits id step b i) : DebitsUnasked b i := by
  obtain ⟨env, call⟩ := i
  simp only [OnlyAuthorisedDebits, Debited, not_forall, id] at hd
  obtain ⟨a, ⟨⟨r, hok⟩, hlt⟩, hna⟩ := hd
  obtain ⟨f, hi⟩ | ⟨receiver, amount, v, rfl, hv, hi⟩ |
    ⟨sender, receiver, amount, b', rfl, hs, hi⟩ | ⟨who, rfl, hi⟩ := step_cases b ⟨env, call⟩
  · rw [hi] at hok
    cases hok
  · simp only [hi, Ranged.lt_def] at hlt
    by_cases ha : a = receiver
    · subst ha
      rw [Function.update_self] at hlt
      have := v.lo_le
      exact ⟨by omega, by omega⟩
    · rw [Function.update_of_ne ha] at hlt
      omega
  · obtain ⟨hauth, hle, -, hm⟩ := transfer_ok hs
    rw [hi] at hlt
    obtain rfl | ⟨rfl, hne, hneg⟩ := hm.lowered hlt
    · exact absurd ⟨hauth, receiver, amount, rfl⟩ hna
    · obtain ⟨_, _, ⟨_, hw⟩, hv, _⟩ := (transfer_succeeds hne).mp ⟨_, _, hs⟩
      exact ⟨hneg, hne, hauth, hle, hw, hv⟩
  · simp only [hi, Ranged.lt_def] at hlt
    omega

theorem debited_of_unasked (hd : DebitsUnasked b i) : ¬ OnlyAuthorisedDebits id step b i := by
  obtain ⟨env, call⟩ := i
  intro h
  cases call with
  | deposit receiver amount =>
    obtain ⟨hneg, hlo⟩ := hd
    have := (b receiver).le_hi
    obtain ⟨v, hv, hi⟩ := step_deposit env b receiver amount hlo (by omega)
    have hlt : Function.update b receiver v receiver < b receiver := by
      rw [Function.update_self, Ranged.lt_def]
      omega
    obtain ⟨-, _, _, hc⟩ := h receiver ⟨⟨.amount v, by rw [hi]⟩, by rw [hi]; exact hlt⟩
    cases hc
  | transfer sender receiver amount =>
    obtain ⟨hneg, hne, hauth, hle, hw, hv⟩ := hd
    have := (b sender).lo_le
    have := (b receiver).le_hi
    obtain ⟨r, b', hs⟩ := (transfer_succeeds hne).mpr
      ⟨hauth, hle, ⟨by omega, hw⟩, hv, by omega⟩
    have hi : step b ⟨env, .transfer sender receiver amount⟩ = _ := step_of_ok hs
    have hlt : b' receiver < b receiver := by
      rw [Ranged.lt_def, ((transfer_ok hs).2.2.2.moved hne).2]
      omega
    obtain ⟨-, _, _, hc⟩ := h receiver ⟨⟨r, by rw [hi]⟩, by rw [hi]; exact hlt⟩
    exact hne (Call.transfer.inj hc).1
  | balance who => exact hd

theorem bank_authorised_iff (b : Accounts Address) (i : Invocation Address (Call Address)) :
    OnlyAuthorisedDebits id step b i ↔ ¬ DebitsUnasked b i :=
  ⟨fun h hd => debited_of_unasked hd h, fun h => by_contra fun hn => h (unasked_of_debited hn)⟩

-- ---------------------------------------------------------------------------
-- Overdrawn accounts at the bank
-- ---------------------------------------------------------------------------

theorem nonNegative_step (hb : NonNegative b) (ho : ¬ Overdraws b i) :
    NonNegative (step b i).2 := by
  obtain ⟨env, call⟩ := i
  intro a
  have ha := hb a
  obtain ⟨f, hi⟩ | ⟨receiver, amount, v, rfl, hv, hi⟩ |
    ⟨sender, receiver, amount, b', rfl, hs, hi⟩ | ⟨who, rfl, hi⟩ := step_cases b ⟨env, call⟩
  · simpa only [hi] using ha
  · simp only [hi]
    by_cases h : a = receiver
    · subst h
      simp only [Overdraws, not_lt] at ho
      rw [Function.update_self]
      omega
    · simpa only [Function.update_of_ne h] using ha
  · obtain ⟨hauth, hle, -, hm⟩ := transfer_ok hs
    rw [Ranged.le_def] at hle
    simp only [hi]
    by_cases he : sender = receiver
    · rw [hm.self he]
      exact ha
    · obtain ⟨hms, hmr⟩ := hm.moved he
      obtain ⟨_, _, ⟨_, hw⟩, _⟩ := (transfer_succeeds he).mp ⟨_, _, hs⟩
      by_cases h : a = sender
      · subst h
        omega
      · by_cases h' : a = receiver
        · subst h'
          -- the sender did not overflow, so only a covered amount is left
          have hcov : ¬ (b a).val < -amount.val := fun hlt => ho ⟨hlt, he, hauth, hw⟩
          omega
        · rw [hm.frame a h h']
          exact ha
  · simpa only [hi] using ha

theorem overdrawn_step (hb : NonNegative b) (ho : Overdraws b i) :
    ¬ NonNegative (step b i).2 := by
  obtain ⟨env, call⟩ := i
  intro h
  cases call with
  | deposit receiver amount =>
    simp only [Overdraws] at ho
    have := hb receiver
    have := amount.lo_le
    obtain ⟨v, hv, hi⟩ := step_deposit env b receiver amount (by omega) (by omega)
    have hn := h receiver
    simp only [hi, Function.update_self] at hn
    omega
  | transfer sender receiver amount =>
    obtain ⟨hlt, hne, hauth, hw⟩ := ho
    have := hb receiver
    have := hb sender
    have := amount.lo_le
    obtain ⟨r, b', hs⟩ := (transfer_succeeds hne).mpr
      ⟨hauth, by rw [Ranged.le_def]; omega, ⟨by omega, hw⟩, by omega, by omega⟩
    have hn := h receiver
    rw [step_of_ok hs, ((transfer_ok hs).2.2.2.moved hne).2] at hn
    omega
  | balance who => exact ho

theorem bank_nonNegative_iff (b : Accounts Address) (i : Invocation Address (Call Address))
    (hb : NonNegative b) : NonNegative (step b i).2 ↔ ¬ Overdraws b i :=
  ⟨fun h ho => overdrawn_step hb ho h, nonNegative_step hb⟩

-- ---------------------------------------------------------------------------
-- Ledgers that refine the bank
-- ---------------------------------------------------------------------------

section
variable {view : S → Accounts Address}
  {ledger : S → Invocation Address (Call Address) → Except (Fault Empty) Reply × S}

theorem authorised_iff_of_refines (hr : Run.Simulates (fun s b => view s = b) ledger step)
    (s : S) (i : Invocation Address (Call Address)) :
    OnlyAuthorisedDebits view ledger s i ↔ ¬ DebitsUnasked (view s) i := by
  obtain ⟨ho, hn⟩ := hr s (view s) i rfl
  rw [← bank_authorised_iff]
  simp only [OnlyAuthorisedDebits, Debited, ho, hn, id]

theorem nonNegative_iff_of_refines (hr : Run.Simulates (fun s b => view s = b) ledger step)
    (s : S) (i : Invocation Address (Call Address)) (hs : NonNegative (view s)) :
    NonNegative (view (ledger s i).2) ↔ ¬ Overdraws (view s) i := by
  rw [(hr s (view s) i rfl).2]
  exact bank_nonNegative_iff (view s) i hs

/-- No account is overdrawn in a run exactly when none of its calls overdraws
one. -/
structure OverdrawnExactly (view : S → Accounts Address)
    (ledger : S → Invocation Address (Call Address) → Except (Fault Empty) Reply × S)
    (init : S) : Prop where
  answers : ∀ cs, Answers view ledger (final ledger init cs)
  throughout : ∀ cs, EachState ledger init cs (fun s => NonNegative (view s)) ↔
    EachStep ledger init cs fun s i => ¬ Overdraws (view s) i

theorem overdrawnExactly_of_refines (hr : Run.Simulates (fun s b => view s = b) ledger step)
    {init : S} (h0 : view init = noAccounts) : OverdrawnExactly view ledger init where
  answers _ := answers_of_refines hr _
  throughout cs := by
    refine Run.eachState_iff_eachStep (nonNegative_iff_of_refines hr) ?_ cs
    rw [h0]
    exact fun _ => le_refl 0

/-- On every ledger a run leads to, for every call; and so along every run. -/
structure DebitsExactly (view : S → Accounts Address)
    (ledger : S → Invocation Address (Call Address) → Except (Fault Empty) Reply × S)
    (init : S) : Prop where
  answers : ∀ cs, Answers view ledger (final ledger init cs)
  call : ∀ cs i, OnlyAuthorisedDebits view ledger (final ledger init cs) i ↔
    ¬ DebitsUnasked (view (final ledger init cs)) i
  run : ∀ cs, EachStep ledger init cs (OnlyAuthorisedDebits view ledger) ↔
    EachStep ledger init cs fun s i => ¬ DebitsUnasked (view s) i

theorem debitsExactly_of_refines (hr : Run.Simulates (fun s b => view s = b) ledger step)
    (init : S) : DebitsExactly view ledger init where
  answers _ := answers_of_refines hr _
  call cs := authorised_iff_of_refines hr (final ledger init cs)
  run _ := Run.eachStep_congr (authorised_iff_of_refines hr)

end

theorem authorised_debits_iff :
    DebitsExactly PerUserBalance.balanceOf PerUserBalance.step (∅ : PerUserBalance.Ledger Address) ∧
      DebitsExactly NaiveBalance.balanceOf NaiveBalance.step (∅ : NaiveBalance.Ledger Address) :=
  ⟨debitsExactly_of_refines PerUserBalance.refines_bank ∅,
    debitsExactly_of_refines NaiveBalance.refines_bank ∅⟩

/-- Account 1 holds 100. An unauthorised deposit of -40 takes 40 from it, and
so does a transfer of -40 to it that account 2 alone authorises. -/
theorem negative_amounts_debit :
    let funded : Invocation Nat (Call Nat) := ⟨⟨∅⟩, .deposit 1 ⟨100, by decide, by decide⟩⟩
    let taken : Invocation Nat (Call Nat) := ⟨⟨∅⟩, .deposit 1 ⟨-40, by decide, by decide⟩⟩
    let pulled : Invocation Nat (Call Nat) := ⟨⟨{2}⟩, .transfer 2 1 ⟨-40, by decide, by decide⟩⟩
    ∀ i, i = taken ∨ i = pulled →
      ¬ OnlyAuthorisedDebits PerUserBalance.balanceOf PerUserBalance.step
          (final PerUserBalance.step ∅ [funded]) i ∧
        ¬ OnlyAuthorisedDebits NaiveBalance.balanceOf NaiveBalance.step
          (final NaiveBalance.step ∅ [funded]) i := by
  rintro funded taken pulled i (rfl | rfl)
  · exact ⟨fun h => absurd (h 1 ⟨⟨_, rfl⟩, by decide⟩).1 (by decide),
      fun h => absurd (h 1 ⟨⟨_, rfl⟩, by decide⟩).1 (by decide)⟩
  · exact ⟨fun h => absurd (h 1 ⟨⟨_, rfl⟩, by decide⟩).1 (by decide),
      fun h => absurd (h 1 ⟨⟨_, rfl⟩, by decide⟩).1 (by decide)⟩

/-- Every run from an empty ledger, in both contracts. -/
theorem never_overdrawn_iff :
    OverdrawnExactly PerUserBalance.balanceOf PerUserBalance.step
        (∅ : PerUserBalance.Ledger Address) ∧
      OverdrawnExactly NaiveBalance.balanceOf NaiveBalance.step
        (∅ : NaiveBalance.Ledger Address) :=
  ⟨overdrawnExactly_of_refines PerUserBalance.refines_bank PerUserBalance.balanceOf_empty,
    overdrawnExactly_of_refines NaiveBalance.refines_bank NaiveBalance.balanceOf_empty⟩

/-- A deposit of -5 into an empty ledger overdraws the account. -/
theorem negative_deposit_overdraws :
    let taken : Invocation Nat (Call Nat) := ⟨⟨∅⟩, .deposit 1 ⟨-5, by decide, by decide⟩⟩
    ¬ NonNegative (PerUserBalance.balanceOf (final PerUserBalance.step ∅ [taken])) ∧
      ¬ NonNegative (NaiveBalance.balanceOf (final NaiveBalance.step ∅ [taken])) :=
  ⟨fun h => absurd (h 1) (by decide), fun h => absurd (h 1) (by decide)⟩

end Balance
