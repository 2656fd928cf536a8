import Slipstream.Base.Run
import Slipstream.Nonce.PerUser

/-!
# How long a nonce protects

An account's nonces increase as long as all its calls fall into the one
lifetime that its first call opened: nothing prolongs the entry, and the
first call after it starts again at one.
-/

namespace PerUserNonce

open Host (Env Event Lifetime)
open Run (outputs)

variable {Address : Type} [DecidableEq Address]

def handed (who : Address) : Event Address (Call Address) × Output → Option U64
  | (.call ⟨_, .next a⟩, some (.ok v)) => if a = who then some v else none
  | _ => none

/-- The nonces a run hands to an account, in order. -/
def returned (ttl : Lifetime) (t : State Address) (who : Address)
    (es : List (Event Address (Call Address))) : List U64 :=
  (es.zip (outputs (step ttl) t es)).filterMap (handed who)

/-- The ledgers in which a run makes authorised `next` calls of an account,
from ledger `seq` on. -/
def calledAt (who : Address) (seq : Nat) : List (Event Address (Call Address)) → List Nat
  | [] => []
  | .advance n :: es => calledAt who (seq + n) es
  | .call ⟨env, .next a⟩ :: es =>
    if a = who ∧ who ∈ env.auth then seq :: calledAt who seq es else calledAt who seq es
  | .call ⟨_, .current _⟩ :: es => calledAt who seq es

variable {ttl : Lifetime} {t : State Address} {who : Address}
  {es : List (Event Address (Call Address))}

theorem returned_cons (e : Event Address (Call Address)) :
    returned ttl t who (e :: es) =
      (handed who (e, (step ttl t e).1)).toList ++ returned ttl (step ttl t e).2 who es := by
  rw [returned, Run.outputs_cons, List.zip_cons_cons, List.filterMap_cons]
  cases handed who (e, (step ttl t e).1) <;> rfl

theorem calledAt_ge {seq : Nat} : ∀ u ∈ calledAt who seq es, seq ≤ u := by
  fun_induction calledAt who seq es with
  | case1 => intro u hu; cases hu
  | case2 seq n es ih => intro u hu; exact Nat.le_trans (Nat.le_add_right seq n) (ih u hu)
  | case3 seq env a es h ih =>
    intro u hu
    rcases List.mem_cons.mp hu with rfl | hu
    · exact Nat.le_refl _
    · exact ih u hu
  | case4 seq env a es h ih => exact ih
  | case5 seq env a es ih => exact ih

/-- An event either is an authorised call of the account, or neither hands it
a nonce nor touches its entry. -/
theorem event_cases (ttl : Lifetime) (t : State Address) (who : Address)
    (e : Event Address (Call Address)) :
    (∃ env, e = .call ⟨env, .next who⟩ ∧ who ∈ env.auth) ∨
      (handed who (e, (step ttl t e).1) = none ∧
        (step ttl t e).2.entries.lookup (.nonce who) = t.entries.lookup (.nonce who) ∧
        ∀ es, calledAt who t.seq (e :: es) = calledAt who (step ttl t e).2.seq es) := by
  cases e with
  | advance n => exact .inr ⟨rfl, rfl, fun _ => rfl⟩
  | call i =>
    obtain ⟨env, a | a⟩ := i
    · by_cases ha : a ∈ env.auth
      · by_cases hw : a = who
        · subst hw
          exact .inl ⟨env, rfl, ha⟩
        · right
          cases hv : (currentOf t.seq t.entries a).add? 1 with
          | none => simp [step_overflow ttl ha hv, handed, calledAt, hw]
          | some v =>
            rw [step_next ttl ha hv]
            refine ⟨by simp [handed, hw], ?_, fun es => by simp [calledAt, hw]⟩
            have hkey : DataKey.nonce who ≠ .nonce a := fun h => hw (DataKey.nonce.inj h).symm
            exact Host.lookup_write_of_ne (V := @Value Address) hkey v
      · right
        refine ⟨by simp [step_unauthorised ttl ha, handed], by rw [step_unauthorised ttl ha],
          fun es => ?_⟩
        have hn : ¬ (a = who ∧ who ∈ env.auth) := fun h => ha (h.1 ▸ h.2)
        simp [step_unauthorised ttl ha, calledAt, hn]
    · exact .inr ⟨rfl, rfl, fun _ => rfl⟩

theorem calledAt_next {env : Env Address} (ha : who ∈ env.auth) (seq : Nat) :
    calledAt who seq (.call ⟨env, .next who⟩ :: es) = seq :: calledAt who seq es := by
  simp [calledAt, ha]

theorem pairwise_cons_of_lt {v w : U64} {l : List U64} (h : v < w) :
    (v :: w :: l).Pairwise (· < ·) ↔ (w :: l).Pairwise (· < ·) := by
  refine ⟨List.Pairwise.of_cons, fun hw => List.pairwise_cons.mpr ⟨?_, hw⟩⟩
  intro x hx
  rcases List.mem_cons.mp hx with rfl | hx
  · exact h
  · have hx := (List.pairwise_cons.mp hw).1 x hx
    rw [Ranged.lt_def] at h hx ⊢
    omega

theorem add?_one_zero : (0 : U64).add? 1 = some 1 := Ranged.add?_eq_some.mpr rfl

/-- While an entry stands, the nonces after it increase from its value just
when no call comes after its lifetime. -/
theorem pairwise_live {v : U64} {last : Nat} (hv : 0 < v.val)
    (he : t.entries.lookup (.nonce who) = some ⟨v, last⟩) :
    (v :: returned ttl t who es).Pairwise (· < ·) ↔ ∀ u ∈ calledAt who t.seq es, u ≤ last := by
  induction es generalizing t v with
  | nil => simp [returned, calledAt]
  | cons e es ih =>
    obtain ⟨env, rfl, ha⟩ | ⟨hh, hl, hc⟩ := event_cases ttl t who e
    · rw [calledAt_next ha, List.forall_mem_cons, returned_cons]
      by_cases hlive : t.seq ≤ last
      · have hlv := Host.live_of_le he hlive
        have hcur : currentOf t.seq t.entries who = v := by simp [currentOf, hlv]
        cases hw : v.add? 1 with
        | none =>
          have hstep := step_overflow ttl ha (hcur ▸ hw)
          rw [hstep]
          simpa [handed, hlive] using ih hv he
        | some w =>
          have hwv : w.val = v.val + 1 := Ranged.add?_eq_some.mp hw
          have hstep := step_next ttl ha (hcur ▸ hw)
          rw [hstep]
          have hlt : v < w := by rw [Ranged.lt_def]; omega
          have hnext := ih (t := { t with entries := t.entries.write ttl t.seq (.nonce who) w })
            (by omega) (Host.lookup_write_live hlv w)
          simpa [handed, hlive, pairwise_cons_of_lt hlt] using hnext
      · -- the entry is gone, and the call hands out nonce one again
        have hlv := Host.live_of_lt he (Nat.lt_of_not_le hlive)
        have hcur : currentOf t.seq t.entries who = 0 := by simp [currentOf, hlv]
        have hstep := step_next ttl ha (hcur ▸ add?_one_zero)
        rw [hstep]
        have hnot : ¬ v < (1 : U64) := by rw [Ranged.lt_def, Ranged.U64.val_one]; omega
        simp [handed, hlive, hnot]
    · rw [returned_cons, hh, hc]
      exact ih hv (hl.trans he)

/-- An account without an entry gets increasing nonces just when its calls all
fall into one lifetime. -/
theorem pairwise_absent (he : t.entries.lookup (.nonce who) = none) :
    (returned ttl t who es).Pairwise (· < ·) ↔ ∀ u ∈ calledAt who t.seq es,
      ∀ u' ∈ calledAt who t.seq es, u < u' + ttl.minTtl := by
  induction es generalizing t with
  | nil => simp [returned, calledAt]
  | cons e es ih =>
    obtain ⟨env, rfl, ha⟩ | ⟨hh, hl, hc⟩ := event_cases ttl t who e
    · have hlv : t.entries.live t.seq (.nonce who) = none := Host.live_of_absent he
      have hcur : currentOf t.seq t.entries who = 0 := by simp [currentOf, hlv]
      have hstep := step_next ttl ha (hcur ▸ add?_one_zero)
      have hpos := ttl.pos
      rw [calledAt_next ha, returned_cons, hstep]
      simp only [handed, if_true, Option.toList, List.singleton_append]
      refine (pairwise_live (t := { t with entries := t.entries.write ttl t.seq (.nonce who) 1 })
        Int.one_pos (Host.lookup_write_new hlv 1)).trans ?_
      constructor
      · intro h u hu u' hu'
        have hge : t.seq ≤ u' := by
          rcases List.mem_cons.mp hu' with rfl | hu'
          · exact Nat.le_refl _
          · exact calledAt_ge u' hu'
        rcases List.mem_cons.mp hu with rfl | hu
        · omega
        · have := h u hu
          omega
      · intro h u hu
        have := h u (List.mem_cons_of_mem _ hu) t.seq List.mem_cons_self
        omega
    · rw [returned_cons, hh, hc]
      exact ih (hl.trans he)

theorem nonces_increase_iff (ttl : Lifetime) (seq : Nat)
    (es : List (Event Address (Call Address))) (who : Address) :
    (returned ttl (fresh seq) who es).Pairwise (· < ·) ↔
      ∀ u ∈ calledAt who seq es, ∀ u' ∈ calledAt who seq es, u < u' + ttl.minTtl :=
  pairwise_absent (t := fresh seq) (Finmap.lookup_empty _)

/-- Sixteen ledgers after its first call, with that for the lifetime, account 1
is handed nonce one again. -/
theorem nonce_repeats :
    let called : Event Nat (Call Nat) := .call ⟨⟨{1}⟩, .next 1⟩
    ¬ (returned ⟨16, by decide⟩ (fresh 0) 1 [called, .advance 16, called]).Pairwise (· < ·) := by
  decide

end PerUserNonce
