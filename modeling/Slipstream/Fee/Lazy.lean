import Slipstream.Base.Ranged
import Slipstream.Host.Footprint

/-!
# Fees accrued lazily

`LazyFee` records fees on per-account keys; `sweep` folds one account's
accrual into the global pool. Sweeping needs no authorisation.
-/

namespace LazyFee

open Host (Env Fault Footprint Invocation checked getOr requireAuth valueAt)

variable {Address : Type} [DecidableEq Address]

inductive DataKey (Address : Type)
  | opCount (who : Address)
  | accruedFee (who : Address)
  | feePool
  deriving DecidableEq

abbrev Value : DataKey Address → Type
  | .opCount _ => U64
  | .accruedFee _ => I128
  | .feePool => I128

abbrev Ledger (Address : Type) := Host.Store (@Value Address)

abbrev Program (Address α : Type) := Host.Prog (@Value Address) Empty α

theorem feePerOp_ge : -2 ^ 127 ≤ (5 : Int) := by decide

theorem feePerOp_le : (5 : Int) ≤ 2 ^ 127 - 1 := by decide

def feePerOp : I128 := ⟨5, feePerOp_ge, feePerOp_le⟩

def operate (env : Env Address) (who : Address) : Program Address Unit := do
  requireAuth env who
  let count : U64 ← getOr (DataKey.opCount who) 0
  Host.set (DataKey.opCount who) (← checked (count.add? 1))
  let accrued : I128 ← getOr (DataKey.accruedFee who) 0
  Host.set (DataKey.accruedFee who) (← checked (accrued.add? feePerOp))

/-- The accrual is reset before the pool is read. -/
def sweep (who : Address) : Program Address I128 := do
  let accrued : I128 ← getOr (DataKey.accruedFee who) 0
  Host.set (DataKey.accruedFee who) (0 : I128)
  let pool : I128 ← getOr DataKey.feePool 0
  let newPool ← checked (pool.add? accrued)
  Host.set DataKey.feePool newPool
  return newPool

def feePool : Program Address I128 := getOr DataKey.feePool 0

def accrued (who : Address) : Program Address I128 := getOr (DataKey.accruedFee who) 0

def opCount (who : Address) : Program Address U64 := getOr (DataKey.opCount who) 0

inductive Call (Address : Type)
  | operate (who : Address)
  | sweep (who : Address)
  | feePool
  | accrued (who : Address)
  | opCount (who : Address)

def Call.isRead : Call Address → Bool
  | .operate _ | .sweep _ => false
  | .feePool | .accrued _ | .opCount _ => true

inductive Reply
  | unit
  | fee (value : I128)
  | count (value : U64)
  deriving DecidableEq, Repr

def dispatch (env : Env Address) : Call Address → Program Address Reply
  | .operate who => do
    operate env who
    return .unit
  | .sweep who => do return .fee (← sweep who)
  | .feePool => do return .fee (← feePool)
  | .accrued who => do return .fee (← accrued who)
  | .opCount who => do return .count (← opCount who)

abbrev step (s : Ledger Address) (i : Invocation Address (Call Address)) :
    Except (Fault Empty) Reply × Ledger Address := Host.step dispatch s i

-- ---------------------------------------------------------------------------
-- Footprints
-- ---------------------------------------------------------------------------

def footprint : Call Address → Footprint (DataKey Address)
  | .operate who => { reads := ∅, writes := {.opCount who, .accruedFee who} }
  | .sweep who => { reads := ∅, writes := {.accruedFee who, .feePool} }
  | .feePool => { reads := {.feePool}, writes := ∅ }
  | .accrued who => { reads := {.accruedFee who}, writes := ∅ }
  | .opCount who => { reads := {.opCount who}, writes := ∅ }

theorem covers (env : Env Address) (c : Call Address) :
    (footprint c).Covers (dispatch env c) := by
  cases c with
  | operate who =>
    have hc : .opCount who ∈ (footprint (.operate who)).writes := .inl rfl
    have ha : .accruedFee who ∈ (footprint (.operate who)).writes := .inr rfl
    refine Host.covers_bind ?_ fun _ => Host.covers_pure _
    refine Host.covers_bind (Host.covers_requireAuth env who) fun _ => ?_
    refine Host.covers_bind (Host.covers_getOr (.inr hc) _) fun _ => ?_
    refine Host.covers_bind (Host.covers_checked _) fun _ => ?_
    refine Host.covers_bind (Host.covers_set hc _) fun _ => ?_
    refine Host.covers_bind (Host.covers_getOr (.inr ha) _) fun _ => ?_
    exact Host.covers_bind (Host.covers_checked _) fun _ => Host.covers_set ha _
  | sweep who =>
    have ha : .accruedFee who ∈ (footprint (.sweep who)).writes := .inl rfl
    have hp : .feePool ∈ (footprint (.sweep who)).writes := .inr rfl
    refine Host.covers_bind ?_ fun _ => Host.covers_pure _
    refine Host.covers_bind (Host.covers_getOr (.inr ha) _) fun _ => ?_
    refine Host.covers_bind (Host.covers_set ha _) fun _ => ?_
    refine Host.covers_bind (Host.covers_getOr (.inr hp) _) fun _ => ?_
    refine Host.covers_bind (Host.covers_checked _) fun _ => ?_
    exact Host.covers_bind (Host.covers_set hp _) fun _ => Host.covers_pure _
  | feePool => exact Host.covers_bind (Host.covers_getOr (.inl rfl) _) fun _ => Host.covers_pure _
  | accrued who =>
    exact Host.covers_bind (Host.covers_getOr (.inl rfl) _) fun _ => Host.covers_pure _
  | opCount who =>
    exact Host.covers_bind (Host.covers_getOr (.inl rfl) _) fun _ => Host.covers_pure _

-- ---------------------------------------------------------------------------
-- What the readers answer
-- ---------------------------------------------------------------------------

def feePoolOf (s : Ledger Address) : I128 := valueAt s .feePool 0

def accruedOf (s : Ledger Address) (who : Address) : I128 := valueAt s (.accruedFee who) 0

def opCountOf (s : Ledger Address) (who : Address) : U64 := valueAt s (.opCount who) 0

section
variable (s : Ledger Address) (who : Address) (c : U64) (v : I128)

@[simp] theorem run_feePool : feePool.run s = .ok (feePoolOf s, s) := rfl

@[simp] theorem run_accrued : (accrued who).run s = .ok (accruedOf s who, s) := rfl

@[simp] theorem run_opCount : (opCount who).run s = .ok (opCountOf s who, s) := rfl

@[simp] theorem feePoolOf_empty : feePoolOf (∅ : Ledger Address) = 0 := by simp [feePoolOf]

@[simp] theorem accruedOf_empty : accruedOf (∅ : Ledger Address) who = 0 := by simp [accruedOf]

@[simp] theorem opCountOf_empty : opCountOf (∅ : Ledger Address) who = 0 := by simp [opCountOf]

@[simp] theorem feePoolOf_insert_feePool : feePoolOf (s.insert .feePool v) = v := by
  simp [feePoolOf]

@[simp] theorem feePoolOf_insert_accruedFee :
    feePoolOf (s.insert (.accruedFee who) v) = feePoolOf s := by
  simp [feePoolOf, Host.valueAt_insert_of_ne]

@[simp] theorem feePoolOf_insert_opCount :
    feePoolOf (s.insert (.opCount who) c) = feePoolOf s := by
  simp [feePoolOf, Host.valueAt_insert_of_ne]

@[simp] theorem accruedOf_insert_feePool :
    accruedOf (s.insert .feePool v) = accruedOf s := by
  funext a
  simp [accruedOf, Host.valueAt_insert_of_ne]

@[simp] theorem accruedOf_insert_opCount :
    accruedOf (s.insert (.opCount who) c) = accruedOf s := by
  funext a
  simp [accruedOf, Host.valueAt_insert_of_ne]

@[simp] theorem accruedOf_insert_accruedFee :
    accruedOf (s.insert (.accruedFee who) v) = Function.update (accruedOf s) who v :=
  Host.valueAt_insert_update (fun _ _ => DataKey.accruedFee.inj) s who v fun _ => 0

@[simp] theorem opCountOf_insert_feePool :
    opCountOf (s.insert .feePool v) = opCountOf s := by
  funext a
  simp [opCountOf, Host.valueAt_insert_of_ne]

@[simp] theorem opCountOf_insert_accruedFee :
    opCountOf (s.insert (.accruedFee who) v) = opCountOf s := by
  funext a
  simp [opCountOf, Host.valueAt_insert_of_ne]

@[simp] theorem opCountOf_insert_opCount :
    opCountOf (s.insert (.opCount who) c) = Function.update (opCountOf s) who c :=
  Host.valueAt_insert_update (fun _ _ => DataKey.opCount.inj) s who c fun _ => 0

end

structure Answers (s : Ledger Address) : Prop where
  feePool : ∀ env, (step s ⟨env, .feePool⟩).1 = .ok (.fee (feePoolOf s))
  accrued : ∀ env who, (step s ⟨env, .accrued who⟩).1 = .ok (.fee (accruedOf s who))
  opCount : ∀ env who, (step s ⟨env, .opCount who⟩).1 = .ok (.count (opCountOf s who))

theorem answers (s : Ledger Address) : Answers s where
  feePool _ := rfl
  accrued _ _ := rfl
  opCount _ _ := rfl

-- ---------------------------------------------------------------------------
-- What a successful call does
-- ---------------------------------------------------------------------------

variable {env : Env Address} {who : Address} {s s' : Ledger Address}

theorem operate_ok {u : Unit} :
    (operate env who).run s = .ok (u, s') ↔
      who ∈ env.auth ∧ ∃ (c : U64) (v : I128), c.val = (opCountOf s who).val + 1 ∧
        v.val = (accruedOf s who).val + 5 ∧
        s' = (s.insert (.opCount who) c).insert (.accruedFee who) v := by
  simp only [operate, Host.bind_ok, Host.requireAuth_ok, Host.getOr_ok, Host.checked_ok,
    Host.set_ok, Ranged.add?_eq_some]
  constructor
  · rintro ⟨_, _, ⟨ha, rfl⟩, _, _, ⟨rfl, rfl⟩, c, _, ⟨hc, rfl⟩, _, _, rfl, _, _, ⟨rfl, rfl⟩,
      v, _, ⟨hv, rfl⟩, rfl⟩
    refine ⟨ha, c, v, hc, ?_, rfl⟩
    simpa [accruedOf, feePerOp, Host.valueAt_insert_of_ne] using hv
  · rintro ⟨ha, c, v, hc, hv, rfl⟩
    refine ⟨(), s, ⟨ha, rfl⟩, _, s, ⟨rfl, rfl⟩, c, s, ⟨hc, rfl⟩, (), _, rfl, _, _, ⟨rfl, rfl⟩,
      v, _, ⟨?_, rfl⟩, rfl⟩
    simpa [accruedOf, feePerOp, Host.valueAt_insert_of_ne] using hv

theorem sweep_ok {v : I128} :
    (sweep who).run s = .ok (v, s') ↔
      v.val = (feePoolOf s).val + (accruedOf s who).val ∧
        s' = (s.insert (.accruedFee who) (0 : I128)).insert .feePool v := by
  have hpool (w : I128) : valueAt (s.insert (.accruedFee who) w) .feePool 0 = feePoolOf s :=
    feePoolOf_insert_accruedFee s who w
  simp only [sweep, Host.bind_ok, Host.getOr_ok, Host.checked_ok, Host.set_ok, Host.run_pure,
    Ranged.add?_eq_some]
  constructor
  · rintro ⟨_, _, ⟨rfl, rfl⟩, _, _, rfl, _, _, ⟨rfl, rfl⟩, w, _, ⟨hw, rfl⟩, _, _, rfl, hr⟩
    cases hr
    exact ⟨by rw [hw, hpool]; rfl, rfl⟩
  · rintro ⟨hv, rfl⟩
    exact ⟨_, s, ⟨rfl, rfl⟩, (), _, rfl, _, _, ⟨rfl, rfl⟩, v, _, ⟨by rw [hv, hpool]; rfl, rfl⟩,
      (), _, rfl, rfl⟩

/-- All a call can do: fault, read, one operation, or one sweep. -/
theorem step_cases (s : Ledger Address) (i : Invocation Address (Call Address)) :
    (∃ f, step s i = (.error f, s)) ∨
      (i.call.isRead ∧ ∃ r, step s i = (.ok r, s)) ∨
      (∃ who c v, i.call = .operate who ∧ c.val = (opCountOf s who).val + 1 ∧
        v.val = (accruedOf s who).val + 5 ∧ step s i =
          (.ok .unit, (s.insert (.opCount who) c).insert (.accruedFee who) v)) ∨
      (∃ who v, i.call = .sweep who ∧ v.val = (feePoolOf s).val + (accruedOf s who).val ∧
        step s i = (.ok (.fee v), (s.insert (.accruedFee who) (0 : I128)).insert .feePool v)) := by
  obtain ⟨env, call⟩ := i
  obtain ⟨r, s', hr, hi⟩ | ⟨f, -, hi⟩ := Host.invoke_cases (dispatch env call) s
  · right
    cases call with
    | operate who =>
      obtain ⟨_, s₁, ho, hs⟩ := Host.bind_ok.mp hr
      obtain ⟨-, c, v, hc, hv, rfl⟩ := operate_ok.mp ho
      cases hs
      exact .inr (.inl ⟨who, c, v, rfl, hc, hv, hi⟩)
    | sweep who =>
      obtain ⟨v, s₁, hw, hs⟩ := Host.bind_ok.mp hr
      obtain ⟨hv, rfl⟩ := sweep_ok.mp hw
      cases hs
      exact .inr (.inr ⟨who, v, rfl, hv, hi⟩)
    | feePool => cases hr; exact .inl ⟨rfl, _, hi⟩
    | accrued who => cases hr; exact .inl ⟨rfl, _, hi⟩
    | opCount who => cases hr; exact .inl ⟨rfl, _, hi⟩
  · exact .inl ⟨f, hi⟩

/-- Exactly when an operation succeeds: authorised, and both counters fit. -/
theorem operate_succeeds :
    (∃ r, (step s ⟨env, .operate who⟩).1 = .ok r) ↔
      who ∈ env.auth ∧ (opCountOf s who).val + 1 ≤ 2 ^ 64 - 1 ∧
        (-2 ^ 127 ≤ (accruedOf s who).val + 5 ∧ (accruedOf s who).val + 5 ≤ 2 ^ 127 - 1) := by
  rw [← Ranged.exists_succ, ← Ranged.exists_val]
  refine (Host.invoke_map_succeeds _).trans ?_
  constructor
  · rintro ⟨u, s', ho⟩
    obtain ⟨ha, c, v, hc, hv, _⟩ := operate_ok.mp ho
    exact ⟨ha, ⟨c, hc⟩, v, hv⟩
  · rintro ⟨ha, ⟨c, hc⟩, v, hv⟩
    exact ⟨(), _, operate_ok.mpr ⟨ha, c, v, hc, hv, rfl⟩⟩

theorem sweep_succeeds :
    (∃ r, (step s ⟨env, .sweep who⟩).1 = .ok r) ↔
      -2 ^ 127 ≤ (feePoolOf s).val + (accruedOf s who).val ∧
        (feePoolOf s).val + (accruedOf s who).val ≤ 2 ^ 127 - 1 := by
  rw [← Ranged.exists_val]
  refine (Host.invoke_map_succeeds _).trans ?_
  constructor
  · rintro ⟨v, s', hw⟩
    exact ⟨v, (sweep_ok.mp hw).1⟩
  · rintro ⟨v, hv⟩
    exact ⟨v, _, sweep_ok.mpr ⟨hv, rfl⟩⟩

theorem step_sweep (hlo : -2 ^ 127 ≤ (feePoolOf s).val + (accruedOf s who).val)
    (hhi : (feePoolOf s).val + (accruedOf s who).val ≤ 2 ^ 127 - 1) (env : Env Address) :
    ∃ v : I128, v.val = (feePoolOf s).val + (accruedOf s who).val ∧
      step s ⟨env, .sweep who⟩ =
        (.ok (.fee v), (s.insert (.accruedFee who) (0 : I128)).insert .feePool v) := by
  obtain ⟨v, hv⟩ := Ranged.exists_val.mpr ⟨hlo, hhi⟩
  have hd : (dispatch env (.sweep who)).run s = .ok (.fee v, _) :=
    Host.bind_ok.mpr ⟨v, _, sweep_ok.mpr ⟨hv, rfl⟩, rfl⟩
  exact ⟨v, hv, Host.invoke_of_ok hd⟩

end LazyFee
