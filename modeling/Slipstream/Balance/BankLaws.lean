import Slipstream.Balance.Bank

/-!
# Laws of the bank

`step_cases` says all a call can do to the accounts: nothing, one deposit, or
one transfer. The properties of the ledgers split on it.
-/

namespace Balance

open Host (Env Fault Invocation)

variable {Address : Type} [DecidableEq Address] {b b' : Accounts Address}
  {sender receiver : Address} {amount : I128} {env : Env Address} {r : Reply}

structure Moves (sender receiver : Address) (amount : I128) (b b' : Accounts Address) : Prop where
  frame : ∀ a, a ≠ sender → a ≠ receiver → b' a = b a
  moved : sender ≠ receiver → (b' sender).val = (b sender).val - amount.val ∧
    (b' receiver).val = (b receiver).val + amount.val
  self : sender = receiver → b' = b

/-- From one account to itself the credit undoes the debit. -/
theorem moves_of_updates {w v : I128} (hw : w.val = (b sender).val - amount.val)
    (hv : v.val = (Function.update b sender w receiver).val + amount.val) :
    Moves sender receiver amount b
      (Function.update (Function.update b sender w) receiver v) where
  frame a hs hr := by rw [Function.update_of_ne hr, Function.update_of_ne hs]
  moved hne := by
    rw [Function.update_of_ne (Ne.symm hne)] at hv
    simp [Function.update_of_ne hne, hw, hv]
  self he := by
    subst he
    have hv : v = b sender := by
      apply Ranged.val_injective
      rw [hv, Function.update_self, hw]
      omega
    simp [hv]

theorem transfer_ok (h : spec env (.transfer sender receiver amount) b = .ok (r, b')) :
    sender ∈ env.auth ∧ amount ≤ b sender ∧ r = .unit ∧ Moves sender receiver amount b b' := by
  obtain ⟨ha, hle, w, v, hw, hv, rfl, rfl⟩ := spec_transfer_ok.mp h
  exact ⟨ha, hle, rfl, moves_of_updates hw hv⟩

/-- Exactly when a transfer between two accounts succeeds. -/
theorem transfer_succeeds (hne : sender ≠ receiver) :
    (∃ r b', spec env (.transfer sender receiver amount) b = .ok (r, b')) ↔
      sender ∈ env.auth ∧ amount ≤ b sender ∧
        (-2 ^ 127 ≤ (b sender).val - amount.val ∧ (b sender).val - amount.val ≤ 2 ^ 127 - 1) ∧
        -2 ^ 127 ≤ (b receiver).val + amount.val ∧
          (b receiver).val + amount.val ≤ 2 ^ 127 - 1 := by
  simp only [spec_transfer_ok, ← Ranged.exists_val, Function.update_of_ne (Ne.symm hne)]
  constructor
  · rintro ⟨_, _, ha, hle, w, v, hw, hv, _⟩
    exact ⟨ha, hle, ⟨w, hw⟩, v, hv⟩
  · rintro ⟨ha, hle, ⟨w, hw⟩, v, hv⟩
    exact ⟨_, _, ha, hle, w, v, hw, hv, rfl, rfl⟩

theorem step_cases (b : Accounts Address) (i : Invocation Address (Call Address)) :
    (∃ f, step b i = (.error f, b)) ∨
      (∃ receiver amount v, i.call = .deposit receiver amount ∧
        v.val = (b receiver).val + amount.val ∧
        step b i = (.ok (.amount v), Function.update b receiver v)) ∨
      (∃ sender receiver amount b', i.call = .transfer sender receiver amount ∧
        spec i.env i.call b = .ok (.unit, b') ∧ step b i = (.ok .unit, b')) ∨
      (∃ who, i.call = .balance who ∧ step b i = (.ok (.amount (b who)), b)) := by
  obtain ⟨env, call⟩ := i
  obtain ⟨r, b', hs, hi⟩ | ⟨f, -, hi⟩ := Host.settle_cases (spec env call b) b
  · right
    cases call with
    | deposit receiver amount =>
      obtain ⟨v, hv, rfl, rfl⟩ := spec_deposit_ok.mp hs
      exact .inl ⟨receiver, amount, v, rfl, hv, hi⟩
    | transfer sender receiver amount =>
      obtain ⟨-, -, rfl, -⟩ := transfer_ok hs
      exact .inr (.inl ⟨sender, receiver, amount, b', rfl, hs, hi⟩)
    | balance who =>
      cases hs
      exact .inr (.inr ⟨who, rfl, hi⟩)
  · exact .inl ⟨f, hi⟩

theorem step_of_ok {i : Invocation Address (Call Address)}
    (h : spec i.env i.call b = .ok (r, b')) : step b i = (.ok r, b') := by
  rw [step, h, Host.settle]

theorem step_deposit (env : Env Address) (b : Accounts Address) (receiver : Address)
    (amount : I128) (hl : -2 ^ 127 ≤ (b receiver).val + amount.val)
    (hh : (b receiver).val + amount.val ≤ 2 ^ 127 - 1) :
    ∃ v : I128, v.val = (b receiver).val + amount.val ∧
      step b ⟨env, .deposit receiver amount⟩ = (.ok (.amount v), Function.update b receiver v) := by
  obtain ⟨v, hv⟩ := Ranged.exists_val.mpr ⟨hl, hh⟩
  exact ⟨v, hv, step_of_ok (spec_deposit_ok.mpr ⟨v, hv, rfl, rfl⟩)⟩

end Balance
