import Slipstream.Base.Ranged
import Slipstream.Host.Footprint

/-!
# Fees collected eagerly

`NaiveFee` charges every operation to one global pool.
-/

namespace NaiveFee

open Host (Env Fault Footprint Invocation checked getOr requireAuth valueAt)

variable {Address : Type} [DecidableEq Address]

inductive DataKey (Address : Type)
  | feePool
  | opCount (who : Address)
  deriving DecidableEq

abbrev Value : DataKey Address → Type
  | .feePool => I128
  | .opCount _ => U64

abbrev Ledger (Address : Type) := Host.Store (@Value Address)

abbrev Program (Address α : Type) := Host.Prog (@Value Address) Empty α

theorem feePerOp_ge : -2 ^ 127 ≤ (5 : Int) := by decide

theorem feePerOp_le : (5 : Int) ≤ 2 ^ 127 - 1 := by decide

def feePerOp : I128 := ⟨5, feePerOp_ge, feePerOp_le⟩

def operate (env : Env Address) (who : Address) : Program Address Unit := do
  requireAuth env who
  let count : U64 ← getOr (DataKey.opCount who) 0
  Host.set (DataKey.opCount who) (← checked (count.add? 1))
  let pool : I128 ← getOr DataKey.feePool 0
  Host.set DataKey.feePool (← checked (pool.add? feePerOp))

def feePool : Program Address I128 := getOr DataKey.feePool 0

def opCount (who : Address) : Program Address U64 := getOr (DataKey.opCount who) 0

inductive Call (Address : Type)
  | operate (who : Address)
  | feePool
  | opCount (who : Address)

inductive Reply
  | unit
  | fee (value : I128)
  | count (value : U64)
  deriving DecidableEq, Repr

def dispatch (env : Env Address) : Call Address → Program Address Reply
  | .operate who => do
    operate env who
    return .unit
  | .feePool => do return .fee (← feePool)
  | .opCount who => do return .count (← opCount who)

abbrev step (s : Ledger Address) (i : Invocation Address (Call Address)) :
    Except (Fault Empty) Reply × Ledger Address := Host.step dispatch s i

-- ---------------------------------------------------------------------------
-- Footprints
-- ---------------------------------------------------------------------------

def footprint : Call Address → Footprint (DataKey Address)
  | .operate who => { reads := ∅, writes := {.feePool, .opCount who} }
  | .feePool => { reads := {.feePool}, writes := ∅ }
  | .opCount who => { reads := {.opCount who}, writes := ∅ }

theorem covers (env : Env Address) (c : Call Address) :
    (footprint c).Covers (dispatch env c) := by
  cases c with
  | operate who =>
    have hp : .feePool ∈ (footprint (.operate who)).writes := .inl rfl
    have hc : .opCount who ∈ (footprint (.operate who)).writes := .inr rfl
    refine Host.covers_bind ?_ fun _ => Host.covers_pure _
    refine Host.covers_bind (Host.covers_requireAuth env who) fun _ => ?_
    refine Host.covers_bind (Host.covers_getOr (.inr hc) _) fun _ => ?_
    refine Host.covers_bind (Host.covers_checked _) fun _ => ?_
    refine Host.covers_bind (Host.covers_set hc _) fun _ => ?_
    refine Host.covers_bind (Host.covers_getOr (.inr hp) _) fun _ => ?_
    exact Host.covers_bind (Host.covers_checked _) fun _ => Host.covers_set hp _
  | feePool => exact Host.covers_bind (Host.covers_getOr (.inl rfl) _) fun _ => Host.covers_pure _
  | opCount who =>
    exact Host.covers_bind (Host.covers_getOr (.inl rfl) _) fun _ => Host.covers_pure _

-- ---------------------------------------------------------------------------
-- What the readers answer
-- ---------------------------------------------------------------------------

def feePoolOf (s : Ledger Address) : I128 := valueAt s .feePool 0

def opCountOf (s : Ledger Address) (who : Address) : U64 := valueAt s (.opCount who) 0

section
variable (s : Ledger Address) (who : Address) (c : U64) (v : I128)

@[simp] theorem run_feePool : feePool.run s = .ok (feePoolOf s, s) := rfl

@[simp] theorem run_opCount : (opCount who).run s = .ok (opCountOf s who, s) := rfl

@[simp] theorem feePoolOf_empty : feePoolOf (∅ : Ledger Address) = 0 := by simp [feePoolOf]

@[simp] theorem opCountOf_empty : opCountOf (∅ : Ledger Address) who = 0 := by simp [opCountOf]

@[simp] theorem feePoolOf_insert_feePool : feePoolOf (s.insert .feePool v) = v := by
  simp [feePoolOf]

@[simp] theorem feePoolOf_insert_opCount :
    feePoolOf (s.insert (.opCount who) c) = feePoolOf s := by
  simp [feePoolOf, Host.valueAt_insert_of_ne]

@[simp] theorem opCountOf_insert_feePool :
    opCountOf (s.insert .feePool v) = opCountOf s := by
  funext a
  simp [opCountOf, Host.valueAt_insert_of_ne]

@[simp] theorem opCountOf_insert_opCount :
    opCountOf (s.insert (.opCount who) c) = Function.update (opCountOf s) who c :=
  Host.valueAt_insert_update (fun _ _ => DataKey.opCount.inj) s who c fun _ => 0

end

structure Answers (s : Ledger Address) : Prop where
  feePool : ∀ env, (step s ⟨env, .feePool⟩).1 = .ok (.fee (feePoolOf s))
  opCount : ∀ env who, (step s ⟨env, .opCount who⟩).1 = .ok (.count (opCountOf s who))

theorem answers (s : Ledger Address) : Answers s where
  feePool _ := rfl
  opCount _ _ := rfl

-- ---------------------------------------------------------------------------
-- What a successful operation does
-- ---------------------------------------------------------------------------

variable {env : Env Address} {who : Address} {s s' : Ledger Address}

theorem operate_ok {u : Unit} :
    (operate env who).run s = .ok (u, s') ↔
      who ∈ env.auth ∧ ∃ (c : U64) (v : I128), c.val = (opCountOf s who).val + 1 ∧
        v.val = (feePoolOf s).val + 5 ∧
        s' = (s.insert (.opCount who) c).insert .feePool v := by
  simp only [operate, Host.bind_ok, Host.requireAuth_ok, Host.getOr_ok, Host.checked_ok,
    Host.set_ok, Ranged.add?_eq_some]
  constructor
  · rintro ⟨_, _, ⟨ha, rfl⟩, _, _, ⟨rfl, rfl⟩, c, _, ⟨hc, rfl⟩, _, _, rfl, _, _, ⟨rfl, rfl⟩,
      v, _, ⟨hv, rfl⟩, rfl⟩
    refine ⟨ha, c, v, hc, ?_, rfl⟩
    simpa [feePoolOf, feePerOp, Host.valueAt_insert_of_ne] using hv
  · rintro ⟨ha, c, v, hc, hv, rfl⟩
    refine ⟨(), s, ⟨ha, rfl⟩, _, s, ⟨rfl, rfl⟩, c, s, ⟨hc, rfl⟩, (), _, rfl, _, _, ⟨rfl, rfl⟩,
      v, _, ⟨?_, rfl⟩, rfl⟩
    simpa [feePoolOf, feePerOp, Host.valueAt_insert_of_ne] using hv

theorem step_operate (env : Env Address) (who : Address) (s : Ledger Address) :
    (∃ f, step s ⟨env, .operate who⟩ = (.error f, s)) ∨
      ∃ c v, c.val = (opCountOf s who).val + 1 ∧ v.val = (feePoolOf s).val + 5 ∧
        step s ⟨env, .operate who⟩ =
          (.ok .unit, (s.insert (.opCount who) c).insert .feePool v) := by
  obtain ⟨_, s', ho, hi⟩ | ⟨f, -, hi⟩ :=
    Host.invoke_map_cases (operate env who) (fun _ => Reply.unit) s
  · obtain ⟨-, c, v, hc, hv, rfl⟩ := operate_ok.mp ho
    exact .inr ⟨c, v, hc, hv, hi⟩
  · exact .inl ⟨f, hi⟩

theorem operate_succeeds :
    (∃ r, (step s ⟨env, .operate who⟩).1 = .ok r) ↔
      who ∈ env.auth ∧ (opCountOf s who).val + 1 ≤ 2 ^ 64 - 1 ∧
        (-2 ^ 127 ≤ (feePoolOf s).val + 5 ∧ (feePoolOf s).val + 5 ≤ 2 ^ 127 - 1) := by
  rw [← Ranged.exists_succ, ← Ranged.exists_val]
  refine (Host.invoke_map_succeeds _).trans ?_
  constructor
  · rintro ⟨u, s', ho⟩
    obtain ⟨ha, c, v, hc, hv, _⟩ := operate_ok.mp ho
    exact ⟨ha, ⟨c, hc⟩, v, hv⟩
  · rintro ⟨ha, ⟨c, hc⟩, v, hv⟩
    exact ⟨(), _, operate_ok.mpr ⟨ha, c, v, hc, hv, rfl⟩⟩

end NaiveFee
