import Slipstream.Base.Ranged
import Slipstream.Host.Timed

/-!
# Nonces in temporary storage

`PerUserNonce` counts each account's nonces under a temporary key of its own.
-/

namespace PerUserNonce

open Host (Env Event Fault Footprint Invocation Lifetime TempEntry TempState TempStore checked
  getOr requireAuth)

variable {Address : Type} [DecidableEq Address]

inductive DataKey (Address : Type)
  | nonce (who : Address)
  deriving DecidableEq

abbrev Value : DataKey Address → Type
  | .nonce _ => U64

abbrev Program (Address α : Type) := Host.Prog (@Value Address) Empty α

def next (env : Env Address) (who : Address) : Program Address U64 := do
  requireAuth env who
  let current : U64 ← getOr (DataKey.nonce who) 0
  let next ← checked (current.add? 1)
  Host.set (DataKey.nonce who) next
  return next

def current (who : Address) : Program Address U64 := getOr (DataKey.nonce who) 0

inductive Call (Address : Type)
  | next (who : Address)
  | current (who : Address)

def dispatch (env : Env Address) : Call Address → Program Address U64
  | .next who => next env who
  | .current who => current who

abbrev State (Address : Type) := TempState (@Value Address)

abbrev Output := Option (Except (Fault Empty) U64)

abbrev step (ttl : Lifetime) (t : State Address) (e : Event Address (Call Address)) :
    Output × State Address := Host.tempStep ttl dispatch t e

def fresh (seq : Nat) : State Address := { seq, entries := ∅ }

-- ---------------------------------------------------------------------------
-- Footprints
-- ---------------------------------------------------------------------------

def footprint : Call Address → Footprint (DataKey Address)
  | .next who => { reads := ∅, writes := {.nonce who} }
  | .current who => { reads := {.nonce who}, writes := ∅ }

theorem covers (env : Env Address) (c : Call Address) :
    (footprint c).Covers (dispatch env c) := by
  cases c with
  | next who =>
    refine Host.covers_bind (Host.covers_requireAuth env who) fun _ => ?_
    refine Host.covers_bind (Host.covers_getOr (.inr rfl) _) fun _ => ?_
    refine Host.covers_bind (Host.covers_checked _) fun _ => ?_
    exact Host.covers_bind (Host.covers_set rfl _) fun _ => Host.covers_pure _
  | current who => exact Host.covers_getOr (.inl rfl) _

-- ---------------------------------------------------------------------------
-- One call
-- ---------------------------------------------------------------------------

def currentOf (seq : Nat) (s : TempStore (@Value Address)) (who : Address) : U64 :=
  ((s.live seq (.nonce who)).map TempEntry.value).getD 0

variable (ttl : Lifetime) {t : State Address} {env : Env Address} {who : Address}

theorem step_unauthorised (ha : who ∉ env.auth) :
    step ttl t (.call ⟨env, .next who⟩) = (some (.error .unauthorised), t) := by
  simp [step, Host.tempStep, dispatch, next, ha, Host.settle]

theorem step_overflow (ha : who ∈ env.auth)
    (hv : (currentOf t.seq t.entries who).add? 1 = none) :
    step ttl t (.call ⟨env, .next who⟩) = (some (.error .overflow), t) := by
  unfold currentOf at hv
  simp [step, Host.tempStep, dispatch, next, ha, hv, Host.settle]

theorem step_next (ha : who ∈ env.auth) {v : U64}
    (hv : (currentOf t.seq t.entries who).add? 1 = some v) :
    step ttl t (.call ⟨env, .next who⟩) =
      (some (.ok v), { t with entries := t.entries.write ttl t.seq (.nonce who) v }) := by
  unfold currentOf at hv
  simp [step, Host.tempStep, dispatch, next, ha, hv, Host.settle]

theorem step_current : step ttl t (.call ⟨env, .current who⟩) =
    (some (.ok (currentOf t.seq t.entries who)), t) := rfl

end PerUserNonce
