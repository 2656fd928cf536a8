import Slipstream.Base.Count
import Slipstream.Host.Footprint

/-!
# One counter for all nonces

`NaiveNonce` hands out every nonce from one persistent counter, to whoever
calls. `nonces_gapless`: over a whole run they are one number after the other.
-/

namespace NaiveNonce

open Host (Env Fault Footprint Invocation checked getOr)

variable {Address : Type}

inductive DataKey
  | nonce
  deriving DecidableEq

abbrev Value : DataKey → Type
  | .nonce => U64

abbrev Ledger := Host.Store Value

abbrev Program (α : Type) := Host.Prog Value Empty α

def next : Program U64 := do
  let current : U64 ← getOr .nonce 0
  let next ← checked (current.add? 1)
  Host.set .nonce next
  return next

def current : Program U64 := getOr .nonce 0

inductive Call
  | next
  | current

def dispatch (_ : Env Address) : Call → Program U64
  | .next => next
  | .current => current

abbrev step (s : Ledger) (i : Invocation Address Call) : Except (Fault Empty) U64 × Ledger :=
  Host.step dispatch s i

-- ---------------------------------------------------------------------------
-- Footprints
-- ---------------------------------------------------------------------------

def footprint : Call → Footprint DataKey
  | .next => { reads := ∅, writes := {.nonce} }
  | .current => { reads := {.nonce}, writes := ∅ }

theorem covers (env : Env Address) (c : Call) : (footprint c).Covers (dispatch env c) := by
  cases c with
  | next =>
    refine Host.covers_bind (Host.covers_getOr (.inr rfl) _) fun _ => ?_
    refine Host.covers_bind (Host.covers_checked _) fun _ => ?_
    exact Host.covers_bind (Host.covers_set rfl _) fun _ => Host.covers_pure _
  | current => exact Host.covers_getOr (.inl rfl) _

-- ---------------------------------------------------------------------------
-- One call
-- ---------------------------------------------------------------------------

def nonceOf (s : Ledger) : U64 := Host.valueAt s .nonce 0

variable {s s' : Ledger}

theorem nonceOf_insert (v : U64) : nonceOf (s.insert .nonce v) = v := Host.valueAt_insert_self ..

theorem step_current (env : Env Address) : step s ⟨env, .current⟩ = (.ok (nonceOf s), s) := rfl

theorem step_next {v : U64} (hv : (nonceOf s).add? 1 = some v) (env : Env Address) :
    step s ⟨env, .next⟩ = (.ok v, s.insert .nonce v) := by
  apply Host.invoke_of_ok
  unfold nonceOf at hv
  simp [dispatch, next, hv]

theorem step_overflow (hv : (nonceOf s).add? 1 = none) (env : Env Address) :
    step s ⟨env, .next⟩ = (.error .overflow, s) := by
  apply Host.invoke_of_error
  unfold nonceOf at hv
  simp [dispatch, next, hv]

-- ---------------------------------------------------------------------------
-- Every run
-- ---------------------------------------------------------------------------

def isNext (i : Invocation Address Call) : Option Unit :=
  match i.call with
  | .next => some ()
  | .current => none

def nextAnswer : Invocation Address Call × Except (Fault Empty) U64 → Option U64
  | (⟨_, .next⟩, .ok v) => some v
  | _ => none

theorem nonce_component : Run.Component (@step Address) Count.tick nonceOf (fun _ => isNext)
    nextAnswer where
  reached s i _ h := by
    obtain ⟨env, _ | _⟩ := i
    · cases hv : (nonceOf s).add? 1 with
      | some v => simp [step_next hv, hv, Count.tick, nextAnswer, nonceOf_insert]
      | none => simp [step_overflow hv, hv, Count.tick, nextAnswer]
    · cases h
  missed s i h := by
    obtain ⟨env, _ | _⟩ := i
    · cases h
    · exact ⟨rfl, rfl⟩

structure Gapless (s : Ledger) (cs : List (Invocation Address Call)) : Prop where
  handed : (Run.handed step nextAnswer s cs).map Ranged.val =
    Count.numbers (nonceOf s).val.toNat (cs.filterMap isNext).length
  increasing : (Run.handed step nextAnswer s cs).Pairwise (· < ·)
  current : ∀ env : Env Address, ∃ v : U64,
    step (Run.final step s cs) ⟨env, .current⟩ = (.ok v, Run.final step s cs) ∧
    v.val = min ((nonceOf s).val + (cs.filterMap isNext).length) Count.last

theorem nonces_gapless (s : Ledger) (cs : List (Invocation Address Call)) : Gapless s cs := by
  obtain ⟨hh, hc⟩ := Count.run_component nonce_component s cs
  have hp : ((Run.handed step nextAnswer s cs).map Ranged.val).Pairwise (· < ·) :=
    hh ▸ Count.pairwise_numbers ..
  rw [List.pairwise_map] at hp
  exact ⟨hh, hp, fun env => ⟨_, step_current env, hc⟩⟩

end NaiveNonce
