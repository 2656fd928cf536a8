import Slipstream.Base.Component
import Slipstream.Base.Count
import Slipstream.Base.Lease
import Slipstream.Nonce.Replay

/-!
# Nonces lease by lease

An account's entry changes with the account's own authorised calls only, and
with the ledgers they fall into. The first of them opens a lease for the
minimum lifetime, and nothing prolongs it; within a lease the account is handed
1, 2, 3 and so on, and the first call after it starts again.
-/

namespace PerUserNonce

open Host (Env Event Lifetime TempEntry renew)
open Run (final outputs)

variable {Address : Type} [DecidableEq Address]

/-- The entry at a ledger, if its lifetime has not passed. -/
def standing (u : Nat) (entry : Option (TempEntry U64)) : Option (TempEntry U64) :=
  entry.filter fun e => u ≤ e.liveUntil

/-- One authorised call on an account's entry, at ledger `u`. -/
def account (ttl : Lifetime) (entry : Option (TempEntry U64)) (u : Nat) :
    Option U64 × Option (TempEntry U64) :=
  match (((standing u entry).map TempEntry.value).getD 0).add? 1 with
  | some v => (some v, some (renew ttl u entry v))
  | none => (none, entry)

def entryOf (who : Address) (t : State Address) : Option (TempEntry U64) :=
  t.entries.lookup (.nonce who)

def callOf (who : Address) (t : State Address) : Event Address (Call Address) → Option Nat
  | .call ⟨env, .next a⟩ => if a = who ∧ who ∈ env.auth then some t.seq else none
  | _ => none

variable {ttl : Lifetime} {t : State Address} {who : Address}
  {es : List (Event Address (Call Address))}

-- ---------------------------------------------------------------------------
-- An account on its own
-- ---------------------------------------------------------------------------

theorem eq_next_of_callOf {e : Event Address (Call Address)} {u : Nat}
    (h : callOf who t e = some u) :
    ∃ env, e = .call ⟨env, .next who⟩ ∧ who ∈ env.auth ∧ u = t.seq := by
  unfold callOf at h
  split at h
  · next env a =>
    obtain ⟨hc, hu⟩ := Option.ite_none_right_eq_some.mp h
    obtain ⟨rfl, ha⟩ := hc
    exact ⟨env, rfl, ha, (Option.some.inj hu).symm⟩
  · cases h

theorem account_component (ttl : Lifetime) (who : Address) :
    Run.Component (step ttl) (account ttl) (entryOf who) (callOf who) (handed who) where
  reached t e u h := by
    obtain ⟨env, rfl, ha, rfl⟩ := eq_next_of_callOf h
    unfold account standing
    cases hv : (currentOf t.seq t.entries who).add? 1 with
    | none =>
      rw [step_overflow ttl ha hv]
      unfold currentOf Host.TempStore.live at hv
      simp [handed, entryOf, hv]
    | some v =>
      rw [step_next ttl ha hv]
      have hl := Host.lookup_write ttl t.seq t.entries (.nonce who) v
      unfold currentOf Host.TempStore.live at hv
      simp [handed, entryOf, hv, hl]
  missed t e h := by
    obtain ⟨env, rfl, ha⟩ | ⟨hh, hl, -⟩ := event_cases ttl t who e
    · simp [callOf, ha] at h
    · exact ⟨hh, hl⟩

theorem reaching_callOf (es : List (Event Address (Call Address))) :
    Run.reaching (step ttl) (callOf who) t es = calledAt who t.seq es := by
  induction es generalizing t with
  | nil => rfl
  | cons e es ih =>
    rw [Run.reaching, ih]
    cases e with
    | advance n => rfl
    | call i =>
      obtain ⟨env, a | a⟩ := i
      · by_cases h : a = who ∧ who ∈ env.auth
        · simp only [callOf, calledAt, if_pos h]
          rfl
        · simp only [callOf, calledAt, if_neg h]
          rfl
      · rfl

-- ---------------------------------------------------------------------------
-- One lease
-- ---------------------------------------------------------------------------

variable {entry : Option (TempEntry U64)} {u : Nat} {us lease : List Nat}

theorem standing_of_le {e : TempEntry U64} (h : u ≤ e.liveUntil) :
    standing u (some e) = some e := by
  rw [standing, Option.filter_some, if_pos (decide_eq_true h)]

theorem account_standing {v : U64} {last : Nat} (hu : u ≤ last) :
    account ttl (some ⟨v, last⟩) u = ((Count.tick v u).1, some ⟨(Count.tick v u).2, last⟩) := by
  have hs : standing u (some ⟨v, last⟩) = some ⟨v, last⟩ := standing_of_le hu
  have hr (w : U64) : renew ttl u (some ⟨v, last⟩) w = ⟨w, last⟩ := by
    unfold standing at hs
    rw [renew, hs]
  unfold account Count.tick
  rw [hs, Option.map_some, Option.getD_some]
  cases hw : v.add? 1 with
  | none => rfl
  | some w => exact Prod.ext rfl (congrArg some (hr w))

theorem account_idle (h : standing u entry = none) :
    account ttl entry u = (some 1, some ⟨1, u + ttl.minTtl - 1⟩) := by
  have hr : renew ttl u entry (1 : U64) = ⟨1, u + ttl.minTtl - 1⟩ := by
    unfold standing at h
    simp [renew, h]
  simp [account, h, add?_one_zero, hr]

variable (ttl) in
/-- While the entry stands, the account counts on. -/
theorem account_run {v : U64} {last : Nat} (h : ∀ u ∈ us, u ≤ last) :
    outputs (account ttl) (some ⟨v, last⟩) us = outputs Count.tick v us ∧
      final (account ttl) (some ⟨v, last⟩) us = some ⟨final Count.tick v us, last⟩ := by
  induction us generalizing v with
  | nil => exact ⟨rfl, rfl⟩
  | cons u us ih =>
    obtain ⟨hu, hus⟩ := List.forall_mem_cons.mp h
    rw [Run.outputs_cons, Run.final_cons, Run.outputs_cons, Run.final_cons, account_standing hu]
    obtain ⟨ho, hf⟩ := @ih (Count.tick v u).2 hus
    exact ⟨by rw [ho], hf⟩

/-- The entry a lease leaves. -/
def leftBy (ttl : Lifetime) (lease : List Nat) : Option (TempEntry U64) :=
  lease.head?.map fun u => ⟨final Count.tick 0 lease, u + ttl.minTtl - 1⟩

theorem account_lease (h : standing u entry = none) (hus : ∀ w ∈ us, w < u + ttl.minTtl) :
    outputs (account ttl) entry (u :: us) = outputs Count.tick 0 (u :: us) ∧
      final (account ttl) entry (u :: us) = leftBy ttl (u :: us) := by
  have hlive : ∀ w ∈ us, w ≤ u + ttl.minTtl - 1 := fun w hw => Nat.le_pred_of_lt (hus w hw)
  obtain ⟨ho, hf⟩ := account_run ttl (v := 1) hlive
  have htick : Count.tick (0 : U64) u = (some 1, 1) := by simp [Count.tick, add?_one_zero]
  rw [Run.outputs_cons, Run.final_cons, account_idle h, Run.outputs_cons, htick, ho, hf]
  exact ⟨rfl, by simp [leftBy, htick]⟩

theorem leftBy_idle {w : Nat} (h : u + ttl.minTtl ≤ w) :
    standing w (leftBy ttl (u :: us)) = none := by
  have hpos := ttl.pos
  simp [standing, leftBy]
  omega

-- ---------------------------------------------------------------------------
-- Every run
-- ---------------------------------------------------------------------------

/-- An account from its first call on: each lease hands out the numbers of a new
count, and the last one leaves its entry. -/
theorem account_leases (ttl : Lifetime) (us : List Nat) :
    outputs (account ttl) none us =
        (Lease.cut ttl.minTtl us).flatMap (outputs Count.tick (0 : U64)) ∧
      final (account ttl) none us = (Lease.cut ttl.minTtl us).getLast?.bind (leftBy ttl) := by
  have hfirst : ∀ u ∈ us.head?, standing u none = none := fun _ _ => rfl
  obtain ⟨ho, hf⟩ := Lease.run_cut (fun u entry => standing u entry = none)
    (outputs Count.tick (0 : U64)) (fun lease entry => entry = leftBy ttl lease)
    (fun _ _ _ => account_lease) (fun _ _ _ _ hl hw => hl ▸ leftBy_idle hw) hfirst
  refine ⟨ho, ?_⟩
  cases hl : (Lease.cut ttl.minTtl us).getLast? with
  | none =>
    have hus : us = [] := by
      by_contra hne
      exact Lease.cut_ne_nil hne (List.getLast?_eq_none_iff.mp hl)
    rw [hus]
    rfl
  | some lease => exact hf lease hl

/-- What an account is handed by a run, and what it reads afterwards. -/
structure ByLease (ttl : Lifetime) (seq : Nat) (es : List (Event Address (Call Address)))
    (who : Address) : Prop where
  leases : (Lease.cut ttl.minTtl (calledAt who seq es)).flatten = calledAt who seq es
  returned : (returned ttl (fresh seq) who es).map Ranged.val =
    (Lease.cut ttl.minTtl (calledAt who seq es)).flatMap fun lease =>
      Count.numbers 0 lease.length
  current : ∀ env : Env Address, ∃ v : U64,
    step ttl (final (step ttl) (fresh seq) es) (.call ⟨env, .current who⟩) =
      (some (.ok v), final (step ttl) (fresh seq) es) ∧
    v.val = min (Lease.ongoing ttl.minTtl (final (step ttl) (fresh seq) es).seq
      (calledAt who seq es)) Count.last

theorem run_account (ttl : Lifetime) (seq : Nat) (es : List (Event Address (Call Address)))
    (who : Address) :
    returned ttl (fresh seq) who es =
        (outputs (account ttl) none (calledAt who seq es)).filterMap id ∧
      entryOf who (final (step ttl) (fresh seq) es) =
        final (account ttl) none (calledAt who seq es) := by
  have h := (account_component ttl who).run (fresh seq) es
  rw [reaching_callOf] at h
  exact h

theorem value_leftBy (now : Nat) (lease : List Nat) :
    (((standing now (leftBy ttl lease)).map TempEntry.value).getD 0).val =
      min (Lease.counted ttl.minTtl now lease) Count.last := by
  cases lease with
  | nil => rfl
  | cons u us =>
    rw [Lease.counted]
    split
    · next h =>
      have hle : now ≤ u + ttl.minTtl - 1 := Nat.le_pred_of_lt h
      have hs : standing now (leftBy ttl (u :: us)) = leftBy ttl (u :: us) := standing_of_le hle
      have hv := (Count.run_tick (v := 0) (k := 0) rfl (u :: us)).2
      rw [Nat.zero_add] at hv
      rw [hs]
      exact hv
    · next h =>
      rw [leftBy_idle (Nat.le_of_not_lt h)]
      rfl

theorem nonces_by_lease (ttl : Lifetime) (seq : Nat) (es : List (Event Address (Call Address)))
    (who : Address) : ByLease ttl seq es who where
  leases := Lease.flatten_cut _
  returned := by
    rw [(run_account ttl seq es who).1, (account_leases ttl _).1, List.filterMap_flatMap,
      List.map_flatMap]
    exact List.flatMap_congr fun lease _ => (Count.run_tick (k := 0) rfl lease).1
  current env := by
    refine ⟨_, step_current ttl, ?_⟩
    have hlive := (run_account ttl seq es who).2.trans (account_leases ttl _).2
    unfold currentOf Host.TempStore.live
    rw [entryOf] at hlive
    rw [hlive, Lease.ongoing]
    cases (Lease.cut ttl.minTtl (calledAt who seq es)).getLast? with
    | none => rfl
    | some lease => exact value_leftBy _ lease

end PerUserNonce
