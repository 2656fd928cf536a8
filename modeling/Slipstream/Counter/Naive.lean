import Slipstream.Base.Ranged
import Slipstream.Host.Footprint

/-!
# A counter under one key

`NaiveCounter` counts every call under one ledger key.
-/

namespace NaiveCounter

open Host (Env Fault Footprint Invocation checked getOr)

variable {Address : Type}

inductive DataKey
  | counter
  deriving DecidableEq

abbrev Value : DataKey → Type
  | .counter => U64

abbrev Ledger := Host.Store Value

abbrev Program (α : Type) := Host.Prog Value Empty α

def increment : Program U64 := do
  let value : U64 ← getOr .counter 0
  let value ← checked (value.add? 1)
  Host.set .counter value
  return value

def total : Program U64 := getOr .counter 0

inductive Call
  | increment
  | total

def dispatch (_ : Env Address) : Call → Program U64
  | .increment => increment
  | .total => total

abbrev step (s : Ledger) (i : Invocation Address Call) : Except (Fault Empty) U64 × Ledger :=
  Host.step dispatch s i

-- ---------------------------------------------------------------------------
-- Footprints
-- ---------------------------------------------------------------------------

def footprint : Call → Footprint DataKey
  | .increment => { reads := ∅, writes := {.counter} }
  | .total => { reads := {.counter}, writes := ∅ }

theorem covers (env : Env Address) (c : Call) : (footprint c).Covers (dispatch env c) := by
  cases c with
  | increment =>
    refine Host.covers_bind (Host.covers_getOr (.inr rfl) _) fun _ => ?_
    refine Host.covers_bind (Host.covers_checked _) fun _ => ?_
    exact Host.covers_bind (Host.covers_set rfl _) fun _ => Host.covers_pure _
  | total => exact Host.covers_getOr (.inl rfl) _

-- ---------------------------------------------------------------------------
-- One call
-- ---------------------------------------------------------------------------

def countOf (s : Ledger) : U64 := Host.valueAt s .counter 0

variable {s s' : Ledger}

theorem countOf_empty : countOf ∅ = 0 := Host.valueAt_empty ..

theorem countOf_insert (v : U64) : countOf (s.insert .counter v) = v :=
  Host.valueAt_insert_self ..

theorem step_total (env : Env Address) : step s ⟨env, .total⟩ = (.ok (countOf s), s) := rfl

theorem increment_ok {v : U64} :
    increment.run s = .ok (v, s') ↔ v.val = (countOf s).val + 1 ∧ s' = s.insert .counter v := by
  simp only [increment, Host.bind_ok, Host.getOr_ok, Host.checked_ok, Host.set_ok,
    Ranged.add?_eq_some, Host.run_pure]
  constructor
  · rintro ⟨_, _, ⟨rfl, rfl⟩, w, _, ⟨hw, rfl⟩, _, _, rfl, hr⟩
    cases hr
    exact ⟨hw, rfl⟩
  · rintro ⟨hv, rfl⟩
    exact ⟨_, s, ⟨rfl, rfl⟩, v, s, ⟨hv, rfl⟩, (), _, rfl, rfl⟩

theorem step_increment (h : (countOf s).val + 1 ≤ 2 ^ 64 - 1) (env : Env Address) :
    ∃ v : U64, v.val = (countOf s).val + 1 ∧
      step s ⟨env, .increment⟩ = (.ok v, s.insert .counter v) := by
  obtain ⟨v, hv⟩ := Ranged.exists_succ.mpr h
  exact ⟨v, hv, Host.invoke_of_ok (increment_ok.mpr ⟨hv, rfl⟩)⟩

def HasRoom (s : Ledger) : Prop := (countOf s).val + 1 ≤ 2 ^ 64 - 1

instance : DecidablePred HasRoom := fun _ => Int.decLe ..

/-- The keys an increment touches: a full count is read, and not written. -/
theorem touched_increment (s : Ledger) (env : Env Address) :
    (dispatch env .increment).reads s = {.counter} ∧
      (dispatch env .increment).writes s = if HasRoom s then {.counter} else ∅ := by
  have hv : Host.valueAt s .counter 0 = countOf s := rfl
  obtain ⟨hr, v, ha⟩ | ⟨hr, ha⟩ := Ranged.U64.add?_one (countOf s)
  · have hr : HasRoom s := hr
    simp [dispatch, increment, hv, ha, hr]
  · have hr : ¬ HasRoom s := Int.not_le.mpr hr
    simp [dispatch, increment, hv, ha, hr]

end NaiveCounter
