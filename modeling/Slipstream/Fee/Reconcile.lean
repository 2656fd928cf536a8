import Slipstream.Base.Run
import Slipstream.Base.Total
import Slipstream.Fee.Naive
import Slipstream.Fee.Lazy

/-!
# Lazy accrual reconciles with eager fees

A lazy run and the eager run of the same operations. `Reconciled` relates the
two ledgers through two ghosts: how many operations have succeeded, and how
much the sweeps of each account have moved into the pool. `Solvent` keeps the
lazy amounts from going below zero, so that no account holds more than the
whole and every sum stays in range as long as the fees of the run do.
-/

namespace Fee

open Host (Env Invocation)
open Run (final tally)

variable {Address : Type} [DecidableEq Address]

/-- The operation among the eager calls; sweeps have no eager counterpart. -/
def eager (i : Invocation Address (LazyFee.Call Address)) :
    Option (Invocation Address (NaiveFee.Call Address)) :=
  match i.call with
  | .operate who => some ⟨i.env, .operate who⟩
  | _ => none

def operates (cs : List (Invocation Address (LazyFee.Call Address))) :
    List (Invocation Address (NaiveFee.Call Address)) := cs.filterMap eager

/-- How many operations of a lazy run have succeeded. -/
def succeeded (cs : List (Invocation Address (LazyFee.Call Address))) : Int :=
  tally LazyFee.step (fun _ i r => match i.call, r.1 with
    | .operate _, .ok _ => 1
    | _, _ => 0) ∅ cs

/-- What the sweeps of an account have added to the pool in a lazy run. -/
def swept (who : Address) (cs : List (Invocation Address (LazyFee.Call Address))) : Int :=
  tally LazyFee.step (fun s i r => match i.call with
    | .sweep w => if w = who then (LazyFee.feePoolOf r.2).val - (LazyFee.feePoolOf s).val else 0
    | _ => 0) ∅ cs

/-- The lazy ledger `s` after `n` operations and the given sweeps, against the
eager ledger `t`. -/
structure Reconciled (n : Int) (moved : Address → Int) (s : LazyFee.Ledger Address)
    (t : NaiveFee.Ledger Address) : Prop where
  opCount : ∀ who, LazyFee.opCountOf s who = NaiveFee.opCountOf t who
  account : ∀ who, LazyFee.feePerOp.val * (LazyFee.opCountOf s who).val =
    (LazyFee.accruedOf s who).val + moved who
  finite : Total.Finite (LazyFee.accruedOf s)
  total : (LazyFee.feePoolOf s).val + Total.sum (LazyFee.accruedOf s) =
    (NaiveFee.feePoolOf t).val
  pool : (NaiveFee.feePoolOf t).val = LazyFee.feePerOp.val * n

structure Solvent (s : LazyFee.Ledger Address) : Prop where
  accrued : ∀ who, 0 ≤ (LazyFee.accruedOf s who).val
  pool : 0 ≤ (LazyFee.feePoolOf s).val

-- ---------------------------------------------------------------------------
-- One step of each kind
-- ---------------------------------------------------------------------------

variable {n : Int} {moved : Address → Int} {s : LazyFee.Ledger Address}
  {t : NaiveFee.Ledger Address}

theorem reconciled_empty :
    Reconciled 0 (fun _ => 0) (∅ : LazyFee.Ledger Address) (∅ : NaiveFee.Ledger Address) where
  opCount who := by simp
  account who := by simp
  finite := Total.finite_of_eq_zero fun who => by simp
  total := by
    rw [Total.sum_of_eq_zero fun who => by simp]
    simp
  pool := by simp

theorem solvent_empty : Solvent (∅ : LazyFee.Ledger Address) where
  accrued who := by simp
  pool := by simp

theorem Reconciled.operate (h : Reconciled n moved s t) {who : Address} {c c' : U64}
    {v v' : I128} (hc : c.val = (LazyFee.opCountOf s who).val + 1)
    (hv : v.val = (LazyFee.accruedOf s who).val + 5)
    (hc' : c'.val = (NaiveFee.opCountOf t who).val + 1)
    (hv' : v'.val = (NaiveFee.feePoolOf t).val + 5) :
    Reconciled (n + 1) moved ((s.insert (.opCount who) c).insert (.accruedFee who) v)
      ((t.insert (.opCount who) c').insert .feePool v') where
  opCount a := by
    have he : c = c' := Ranged.val_inj.mp (by rw [hc, hc', h.opCount who])
    have hs : LazyFee.opCountOf s = NaiveFee.opCountOf t := funext h.opCount
    simp [he, hs]
  account a := by
    have ha := h.account a
    simp only [LazyFee.feePerOp, LazyFee.opCountOf_insert_accruedFee,
      LazyFee.opCountOf_insert_opCount, LazyFee.accruedOf_insert_accruedFee,
      LazyFee.accruedOf_insert_opCount] at ha ⊢
    by_cases he : a = who
    · subst he
      simp only [Function.update_self]
      omega
    · simpa only [Function.update_of_ne he] using ha
  finite := by simpa using Total.finite_update h.finite who v
  total := by
    have ht := h.total
    simp only [LazyFee.feePoolOf_insert_accruedFee, LazyFee.feePoolOf_insert_opCount,
      LazyFee.accruedOf_insert_accruedFee, LazyFee.accruedOf_insert_opCount,
      NaiveFee.feePoolOf_insert_feePool, Total.sum_update h.finite]
    omega
  pool := by
    have hp := h.pool
    simp only [LazyFee.feePerOp, NaiveFee.feePoolOf_insert_feePool] at hp ⊢
    omega

theorem Reconciled.sweep (h : Reconciled n moved s t) {who : Address} {v : I128}
    (hv : v.val = (LazyFee.feePoolOf s).val + (LazyFee.accruedOf s who).val) :
    Reconciled n (Function.update moved who (moved who + (LazyFee.accruedOf s who).val))
      ((s.insert (.accruedFee who) (0 : I128)).insert .feePool v) t where
  opCount a := by simpa using h.opCount a
  account a := by
    have ha := h.account a
    simp only [LazyFee.opCountOf_insert_feePool, LazyFee.opCountOf_insert_accruedFee,
      LazyFee.accruedOf_insert_feePool, LazyFee.accruedOf_insert_accruedFee] at ha ⊢
    by_cases he : a = who
    · subst he
      simp only [Function.update_self, Ranged.I128.val_zero]
      omega
    · simpa only [Function.update_of_ne he] using ha
  finite := by simpa using Total.finite_update h.finite who 0
  total := by
    have ht := h.total
    simp only [LazyFee.feePoolOf_insert_feePool, LazyFee.accruedOf_insert_feePool,
      LazyFee.accruedOf_insert_accruedFee, Total.sum_update h.finite, Ranged.I128.val_zero]
    omega
  pool := h.pool

theorem Solvent.operate (h : Solvent s) {who : Address} {c : U64} {v : I128}
    (hv : v.val = (LazyFee.accruedOf s who).val + 5) :
    Solvent ((s.insert (.opCount who) c).insert (.accruedFee who) v) where
  accrued a := by
    have ha := h.accrued a
    by_cases he : a = who
    · subst he
      simp [hv]
      omega
    · simpa [he] using ha
  pool := by simpa using h.pool

theorem Solvent.sweep (h : Solvent s) {who : Address} {v : I128}
    (hv : v.val = (LazyFee.feePoolOf s).val + (LazyFee.accruedOf s who).val) :
    Solvent ((s.insert (.accruedFee who) (0 : I128)).insert .feePool v) where
  accrued a := by
    have ha := h.accrued a
    by_cases he : a = who
    · subst he
      simp
    · simpa [he] using ha
  pool := by
    have ha := h.accrued who
    have hp := h.pool
    simp only [LazyFee.feePoolOf_insert_feePool]
    omega

theorem accrued_le (h : Reconciled n moved s t) (hs : Solvent s) (who : Address) :
    (LazyFee.feePoolOf s).val + (LazyFee.accruedOf s who).val ≤ LazyFee.feePerOp.val * n := by
  have hle := Total.le_sum h.finite hs.accrued who
  have ht := h.total
  rw [← h.pool]
  omega

/-- While the fees fit, both contracts let the same operations through. -/
theorem operate_agrees (h : Reconciled n moved s t) (hs : Solvent s)
    (hn : LazyFee.feePerOp.val * (n + 1) < 2 ^ 127) (env : Env Address) (who : Address) :
    (∃ r, (LazyFee.step s ⟨env, .operate who⟩).1 = .ok r) ↔
      ∃ r, (NaiveFee.step t ⟨env, .operate who⟩).1 = .ok r := by
  have ha := accrued_le h hs who
  have ha0 := hs.accrued who
  have hp0 := hs.pool
  have hp := h.pool
  simp only [LazyFee.feePerOp] at ha hp hn
  rw [LazyFee.operate_succeeds, NaiveFee.operate_succeeds, h.opCount who]
  refine and_congr_right fun _ => and_congr_right fun _ => ?_
  constructor
  · intro _
    omega
  · intro _
    omega

theorem sweep_answers (h : Reconciled n moved s t) (hs : Solvent s)
    (hn : LazyFee.feePerOp.val * n < 2 ^ 127) (env : Env Address) (who : Address) :
    ∃ r, (LazyFee.step s ⟨env, .sweep who⟩).1 = .ok r := by
  have ha := accrued_le h hs who
  have ha0 := hs.accrued who
  have hp0 := hs.pool
  apply LazyFee.sweep_succeeds.mpr
  omega

-- ---------------------------------------------------------------------------
-- Every run
-- ---------------------------------------------------------------------------

variable {cs : List (Invocation Address (LazyFee.Call Address))}
  {i : Invocation Address (LazyFee.Call Address)}

omit [DecidableEq Address] in
theorem operates_snoc : operates (cs ++ [i]) = operates cs ++ (eager i).toList :=
  Run.filterMap_snoc ..

theorem succeeded_le (cs : List (Invocation Address (LazyFee.Call Address))) :
    succeeded cs ≤ (operates cs).length := by
  induction cs using List.reverseRecOn with
  | nil => rfl
  | append_singleton cs i ih =>
    obtain ⟨env, call⟩ := i
    rw [operates_snoc, succeeded, Run.tally_snoc, ← succeeded, List.length_append]
    cases call with
    | operate who => simp only [eager, Option.toList]; split <;> simp <;> omega
    | _ => simpa [eager] using ih

theorem eager_fault (h : Reconciled n moved s t) (hs : Solvent s)
    (hn : LazyFee.feePerOp.val * (n + 1) < 2 ^ 127) {env : Env Address} {who : Address}
    {f : Host.Fault Empty} (hf : (LazyFee.step s ⟨env, .operate who⟩).1 = .error f) :
    (NaiveFee.step t ⟨env, .operate who⟩).2 = t := by
  cases ht : (NaiveFee.step t ⟨env, .operate who⟩).1 with
  | ok r =>
    obtain ⟨r', hr⟩ := (operate_agrees h hs hn env who).mpr ⟨r, ht⟩
    rw [hf] at hr
    cases hr
  | error f' => exact Host.invoke_rollback ht

/-- The ledgers and ghosts after the calls `cs`. -/
def ReconciledAfter (cs : List (Invocation Address (LazyFee.Call Address))) : Prop :=
  Reconciled (succeeded cs) (swept · cs) (final LazyFee.step ∅ cs)
    (final NaiveFee.step ∅ (operates cs))

def SolventAfter (cs : List (Invocation Address (LazyFee.Call Address))) : Prop :=
  Solvent (final LazyFee.step ∅ cs)

theorem succeeded_snoc : succeeded (cs ++ [i]) = succeeded cs +
    match i.call, (LazyFee.step (final LazyFee.step ∅ cs) i).1 with
    | .operate _, .ok _ => 1
    | _, _ => 0 := by
  rw [succeeded, Run.tally_snoc, ← succeeded]

theorem swept_snoc (who : Address) : swept who (cs ++ [i]) = swept who cs +
    match i.call with
    | .sweep w => if w = who then
        (LazyFee.feePoolOf (LazyFee.step (final LazyFee.step ∅ cs) i).2).val -
          (LazyFee.feePoolOf (final LazyFee.step ∅ cs)).val
      else 0
    | _ => 0 := by
  rw [swept, Run.tally_snoc, ← swept]

theorem reconciled_snoc_idle (h : ReconciledAfter cs) (hs : SolventAfter cs)
    (hn : LazyFee.feePerOp.val * (succeeded cs + (eager i).toList.length) < 2 ^ 127)
    (hi : (LazyFee.step (final LazyFee.step ∅ cs) i).2 = final LazyFee.step ∅ cs)
    (ho : ∀ who, i.call = .operate who →
      ∃ f, (LazyFee.step (final LazyFee.step ∅ cs) i).1 = .error f) :
    ReconciledAfter (cs ++ [i]) ∧ SolventAfter (cs ++ [i]) := by
  obtain ⟨env, call⟩ := i
  have hsucc : succeeded (cs ++ [⟨env, call⟩]) = succeeded cs := by
    rw [succeeded_snoc]
    cases call with
    | operate who =>
      obtain ⟨f, hf⟩ := ho who rfl
      simp [hf]
    | _ => simp
  have hswept (who) : swept who (cs ++ [⟨env, call⟩]) = swept who cs := by
    rw [swept_snoc, hi]
    cases call with
    | sweep w => simp
    | _ => simp
  have ht : final NaiveFee.step ∅ (operates (cs ++ [⟨env, call⟩])) =
      final NaiveFee.step ∅ (operates cs) := by
    rw [operates_snoc]
    cases call with
    | operate who =>
      obtain ⟨f, hf⟩ := ho who rfl
      simpa [eager] using eager_fault h hs (by simpa [eager] using hn) hf
    | _ => simp [eager]
  rw [ReconciledAfter, SolventAfter, hsucc, funext hswept, ht, Run.final_snoc, hi]
  exact ⟨h, hs⟩

theorem reconciled_snoc_operate (h : ReconciledAfter cs) (hs : SolventAfter cs) {env : Env Address}
    {who : Address} {c : U64} {v : I128}
    (hn : LazyFee.feePerOp.val * (succeeded cs + 1) < 2 ^ 127)
    (hc : c.val = (LazyFee.opCountOf (final LazyFee.step ∅ cs) who).val + 1)
    (hv : v.val = (LazyFee.accruedOf (final LazyFee.step ∅ cs) who).val + 5)
    (hi : LazyFee.step (final LazyFee.step ∅ cs) ⟨env, .operate who⟩ = (.ok .unit,
      ((final LazyFee.step ∅ cs).insert (.opCount who) c).insert (.accruedFee who) v)) :
    ReconciledAfter (cs ++ [⟨env, .operate who⟩]) ∧ SolventAfter (cs ++ [⟨env, .operate who⟩]) := by
  obtain ⟨f, ht⟩ | ⟨c', v', hc', hv', ht⟩ :=
    NaiveFee.step_operate env who (final NaiveFee.step ∅ (operates cs))
  · obtain ⟨r, hr⟩ := (operate_agrees h hs hn env who).mp ⟨_, congrArg Prod.fst hi⟩
    rw [ht] at hr
    cases hr
  · have hsucc : succeeded (cs ++ [⟨env, .operate who⟩]) = succeeded cs + 1 := by
      rw [succeeded_snoc, hi]
    have hswept (a) : swept a (cs ++ [⟨env, .operate who⟩]) = swept a cs := by
      rw [swept_snoc, Int.add_zero]
    have hfinal : final NaiveFee.step ∅ (operates (cs ++ [⟨env, .operate who⟩])) =
        ((final NaiveFee.step ∅ (operates cs)).insert (.opCount who) c').insert .feePool v' := by
      rw [operates_snoc, eager, Option.toList, Run.final_snoc, ht]
    rw [ReconciledAfter, SolventAfter, hsucc, funext hswept, hfinal, Run.final_snoc, hi]
    exact ⟨h.operate hc hv hc' hv', hs.operate hv⟩

theorem reconciled_snoc_sweep (h : ReconciledAfter cs) (hs : SolventAfter cs) {env : Env Address}
    {who : Address} {v : I128}
    (hv : v.val = (LazyFee.feePoolOf (final LazyFee.step ∅ cs)).val +
      (LazyFee.accruedOf (final LazyFee.step ∅ cs) who).val)
    (hi : LazyFee.step (final LazyFee.step ∅ cs) ⟨env, .sweep who⟩ = (.ok (.fee v),
      ((final LazyFee.step ∅ cs).insert (.accruedFee who) (0 : I128)).insert .feePool v)) :
    ReconciledAfter (cs ++ [⟨env, .sweep who⟩]) ∧ SolventAfter (cs ++ [⟨env, .sweep who⟩]) := by
  have hsucc : succeeded (cs ++ [⟨env, .sweep who⟩]) = succeeded cs := by
    rw [succeeded_snoc, Int.add_zero]
  have hswept : (swept · (cs ++ [⟨env, .sweep who⟩])) = Function.update (swept · cs) who
      (swept who cs + (LazyFee.accruedOf (final LazyFee.step ∅ cs) who).val) := by
    funext a
    rw [swept_snoc, hi]
    by_cases ha : a = who
    · subst ha
      simp only [if_true, Function.update_self, LazyFee.feePoolOf_insert_feePool]
      omega
    · simp [ha, Ne.symm ha]
  have hfinal : final NaiveFee.step ∅ (operates (cs ++ [⟨env, .sweep who⟩])) =
      final NaiveFee.step ∅ (operates cs) := by
    rw [operates_snoc, eager, Option.toList, List.append_nil]
  rw [ReconciledAfter, SolventAfter, hsucc, hswept, hfinal, Run.final_snoc, hi]
  exact ⟨h.sweep hv, hs.sweep hv⟩

theorem reconciled_snoc (h : ReconciledAfter cs) (hs : SolventAfter cs)
    (hb : LazyFee.feePerOp.val * (operates (cs ++ [i])).length < 2 ^ 127) :
    ReconciledAfter (cs ++ [i]) ∧ SolventAfter (cs ++ [i]) := by
  have hn : LazyFee.feePerOp.val * (succeeded cs + (eager i).toList.length) < 2 ^ 127 := by
    have hle := succeeded_le cs
    simp only [operates_snoc, List.length_append, LazyFee.feePerOp] at hb ⊢
    omega
  obtain ⟨f, hi⟩ | ⟨hread, r, hi⟩ | ⟨who, c, v, hcall, hc, hv, hi⟩ | ⟨who, v, hcall, hv, hi⟩ :=
    LazyFee.step_cases (final LazyFee.step ∅ cs) i
  · exact reconciled_snoc_idle h hs hn (congrArg Prod.snd hi) fun _ _ => ⟨f, congrArg Prod.fst hi⟩
  · refine reconciled_snoc_idle h hs hn (congrArg Prod.snd hi) fun who hcall => ?_
    rw [hcall] at hread
    cases hread
  · obtain ⟨env, call⟩ := i
    cases hcall
    exact reconciled_snoc_operate h hs (by simpa [eager] using hn) hc hv hi
  · obtain ⟨env, call⟩ := i
    cases hcall
    exact reconciled_snoc_sweep h hs hv hi

theorem reconciled_run (cs : List (Invocation Address (LazyFee.Call Address)))
    (hb : LazyFee.feePerOp.val * (operates cs).length < 2 ^ 127) :
    ReconciledAfter cs ∧ SolventAfter cs := by
  refine Run.prefix_induct (B := fun cs => LazyFee.feePerOp.val * (operates cs).length < 2 ^ 127)
    (P := fun cs => ReconciledAfter cs ∧ SolventAfter cs) (fun cs i hb => ?_)
    ⟨reconciled_empty, solvent_empty⟩ (fun cs i hb h => reconciled_snoc h.1 h.2 hb) cs hb
  simp only [operates_snoc, List.length_append, LazyFee.feePerOp] at hb ⊢
  omega

/-- What holds after every call of a lazy run and the operations it shares
with the eager one. -/
structure ReconcilesThroughout (cs : List (Invocation Address (LazyFee.Call Address))) :
    Prop where
  answers : ∀ pre, pre <+: cs → LazyFee.Answers (final LazyFee.step ∅ pre) ∧
    NaiveFee.Answers (final NaiveFee.step ∅ (operates pre))
  ledgers : ∀ pre, pre <+: cs → Reconciled (succeeded pre) (swept · pre)
    (final LazyFee.step ∅ pre) (final NaiveFee.step ∅ (operates pre))
  operate : ∀ pre env who, pre ++ [⟨env, .operate who⟩] <+: cs →
    ((∃ r, (LazyFee.step (final LazyFee.step ∅ pre) ⟨env, .operate who⟩).1 = .ok r) ↔
      ∃ r, (NaiveFee.step (final NaiveFee.step ∅ (operates pre)) ⟨env, .operate who⟩).1 = .ok r)
  sweep : ∀ pre env who, pre ++ [⟨env, .sweep who⟩] <+: cs →
    ∃ r, (LazyFee.step (final LazyFee.step ∅ pre) ⟨env, .sweep who⟩).1 = .ok r

/-- No fee is lost or counted twice, as long as the fees of all operations of
the run fit the pool. -/
theorem lazy_reconciles (cs : List (Invocation Address (LazyFee.Call Address)))
    (hb : LazyFee.feePerOp.val * (operates cs).length < 2 ^ 127) : ReconcilesThroughout cs := by
  have hpre {pre} (hp : pre <+: cs) :
      LazyFee.feePerOp.val * (operates pre).length < 2 ^ 127 := by
    have hlen : (operates pre).length ≤ (operates cs).length := (hp.filterMap eager).length_le
    simp only [LazyFee.feePerOp] at hb ⊢
    omega
  refine ⟨fun pre _ => ⟨LazyFee.answers _, NaiveFee.answers _⟩,
    fun pre hp => (reconciled_run pre (hpre hp)).1, ?_, ?_⟩
  · intro pre env who hp
    have hb' := hpre hp
    obtain ⟨h, hs⟩ := reconciled_run pre (hpre ((List.prefix_append ..).trans hp))
    have hle := succeeded_le pre
    apply operate_agrees h hs
    simp only [operates_snoc, eager, Option.toList, List.length_append, List.length_singleton,
      LazyFee.feePerOp] at hb' ⊢
    omega
  · intro pre env who hp
    have hb' := hpre ((List.prefix_append ..).trans hp)
    obtain ⟨h, hs⟩ := reconciled_run pre hb'
    have hle := succeeded_le pre
    apply sweep_answers h hs
    simp only [LazyFee.feePerOp] at hb' ⊢
    omega

theorem lazy_reconciles_interleaved : ReconcilesThroughout ([⟨⟨{1}⟩, .operate 1⟩,
    ⟨⟨∅⟩, .operate 2⟩, ⟨⟨∅⟩, .sweep 1⟩, ⟨⟨{2}⟩, .operate 2⟩, ⟨⟨∅⟩, .sweep 3⟩, ⟨⟨∅⟩, .sweep 2⟩] :
      List (Invocation Nat (LazyFee.Call Nat))) := lazy_reconciles _ (by decide)

end Fee
