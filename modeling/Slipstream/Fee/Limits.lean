import Slipstream.Base.Count
import Slipstream.Base.Total
import Slipstream.Fee.Naive
import Slipstream.Fee.Lazy

/-!
# Fees at the limits

Runs of any length, in which counters fill up and sums stop fitting. Both
contracts hold exactly the fees of the operations they counted, and what stops
an operation differs: on `LazyFee` only the account's own counter does, on
`NaiveFee` the pool of everybody does too.
-/

namespace Fee

open Host (Env Invocation)
open Run (final)

variable {Address : Type} [DecidableEq Address]

-- ---------------------------------------------------------------------------
-- LazyFee
-- ---------------------------------------------------------------------------

/-- What is accrued and pooled are the fees of the operations counted, none of
it negative. An account has accrued no more than its own. -/
structure Funded (s : LazyFee.Ledger Address) : Prop where
  finite : Total.Finite (LazyFee.accruedOf s)
  counted : Total.Finite (LazyFee.opCountOf s)
  total : (LazyFee.feePoolOf s).val + Total.sum (LazyFee.accruedOf s) =
    LazyFee.feePerOp.val * Total.sum (LazyFee.opCountOf s)
  accrued : ∀ who, 0 ≤ (LazyFee.accruedOf s who).val ∧
    (LazyFee.accruedOf s who).val ≤ LazyFee.feePerOp.val * (LazyFee.opCountOf s who).val
  pool : 0 ≤ (LazyFee.feePoolOf s).val

theorem funded_empty : Funded (∅ : LazyFee.Ledger Address) where
  finite := Total.finite_of_eq_zero fun who => by simp
  counted := Total.finite_of_eq_zero fun who => by simp
  total := by
    rw [Total.sum_of_eq_zero fun who => by simp, Total.sum_of_eq_zero fun who => by simp]
    simp
  accrued who := by simp
  pool := by simp

variable {s : LazyFee.Ledger Address} {who : Address}

theorem Funded.operate (h : Funded s) {c : U64} {v : I128}
    (hc : c.val = (LazyFee.opCountOf s who).val + 1)
    (hv : v.val = (LazyFee.accruedOf s who).val + 5) :
    Funded ((s.insert (.opCount who) c).insert (.accruedFee who) v) where
  finite := by simpa using Total.finite_update h.finite who v
  counted := by simpa using Total.finite_update h.counted who c
  total := by
    have ht := h.total
    simp only [LazyFee.feePerOp, LazyFee.feePoolOf_insert_accruedFee,
      LazyFee.feePoolOf_insert_opCount, LazyFee.accruedOf_insert_accruedFee,
      LazyFee.accruedOf_insert_opCount, LazyFee.opCountOf_insert_accruedFee,
      LazyFee.opCountOf_insert_opCount, Total.sum_update h.finite,
      Total.sum_update h.counted] at ht ⊢
    omega
  accrued a := by
    have ha := h.accrued a
    simp only [LazyFee.feePerOp, LazyFee.accruedOf_insert_accruedFee,
      LazyFee.accruedOf_insert_opCount, LazyFee.opCountOf_insert_accruedFee,
      LazyFee.opCountOf_insert_opCount] at ha ⊢
    by_cases he : a = who
    · subst he
      simp only [Function.update_self]
      omega
    · simpa only [Function.update_of_ne he] using ha
  pool := by simpa using h.pool

theorem Funded.sweep (h : Funded s) {v : I128}
    (hv : v.val = (LazyFee.feePoolOf s).val + (LazyFee.accruedOf s who).val) :
    Funded ((s.insert (.accruedFee who) (0 : I128)).insert .feePool v) where
  finite := by simpa using Total.finite_update h.finite who 0
  counted := by simpa using h.counted
  total := by
    have ht := h.total
    simp only [LazyFee.feePoolOf_insert_feePool, LazyFee.accruedOf_insert_feePool,
      LazyFee.accruedOf_insert_accruedFee, LazyFee.opCountOf_insert_feePool,
      LazyFee.opCountOf_insert_accruedFee, Total.sum_update h.finite, Ranged.I128.val_zero]
    omega
  accrued a := by
    have ha := h.accrued a
    simp only [LazyFee.feePerOp, LazyFee.accruedOf_insert_feePool,
      LazyFee.accruedOf_insert_accruedFee, LazyFee.opCountOf_insert_feePool,
      LazyFee.opCountOf_insert_accruedFee] at ha ⊢
    by_cases he : a = who
    · subst he
      simp only [Function.update_self, Ranged.I128.val_zero]
      omega
    · simpa only [Function.update_of_ne he] using ha
  pool := by
    have ha := h.accrued who
    have hp := h.pool
    simp only [LazyFee.feePoolOf_insert_feePool]
    omega

theorem funded_step (h : Funded s) (i : Invocation Address (LazyFee.Call Address)) :
    Funded (LazyFee.step s i).2 := by
  obtain ⟨f, hi⟩ | ⟨-, r, hi⟩ | ⟨who, c, v, -, hc, hv, hi⟩ | ⟨who, v, -, hv, hi⟩ :=
    LazyFee.step_cases s i
  · rwa [hi]
  · rwa [hi]
  · rw [hi]
    exact h.operate hc hv
  · rw [hi]
    exact h.sweep hv

theorem funded_run (cs : List (Invocation Address (LazyFee.Call Address))) :
    Funded (final LazyFee.step ∅ cs) :=
  Run.final_induct (P := Funded) (fun _ i h => funded_step h i) funded_empty cs

/-- An accrual always fits: a full counter is met first. -/
theorem Funded.operate_iff (h : Funded s) (env : Env Address) (who : Address) :
    (∃ r, (LazyFee.step s ⟨env, .operate who⟩).1 = .ok r) ↔
      who ∈ env.auth ∧ (LazyFee.opCountOf s who).val < 2 ^ 64 - 1 := by
  have ha := h.accrued who
  have hhi := (LazyFee.opCountOf s who).le_hi
  simp only [LazyFee.feePerOp] at ha
  rw [LazyFee.operate_succeeds]
  refine and_congr_right fun _ => ?_
  constructor
  · rintro ⟨hc, -⟩
    omega
  · intro hc
    omega

theorem Funded.sweep_iff (h : Funded s) (env : Env Address) (who : Address) :
    (∃ r, (LazyFee.step s ⟨env, .sweep who⟩).1 = .ok r) ↔
      (LazyFee.feePoolOf s).val + (LazyFee.accruedOf s who).val < 2 ^ 127 := by
  have ha := h.accrued who
  have hp := h.pool
  rw [LazyFee.sweep_succeeds]
  constructor
  · rintro ⟨-, hhi⟩
    omega
  · intro hhi
    omega

def authorised (who : Address) (i : Invocation Address (LazyFee.Call Address)) : Option Unit :=
  match i.call with
  | .operate w => if w = who ∧ w ∈ i.env.auth then some () else none
  | _ => none

theorem eq_operate_of_authorised {env : Env Address}
    {call : LazyFee.Call Address} {who : Address} (h : authorised who ⟨env, call⟩ = some ()) :
    call = .operate who ∧ who ∈ env.auth := by
  cases call with
  | operate w =>
    obtain ⟨⟨rfl, hauth⟩, -⟩ := Option.ite_none_right_eq_some.mp h
    exact ⟨rfl, hauth⟩
  | _ => cases h

/-- An authorised operation is refused for a full count only. -/
theorem Funded.full_of_refused (h : Funded s) {env : Env Address} {who : Address}
    {f : Host.Fault Empty} (hauth : who ∈ env.auth)
    (hf : (LazyFee.step s ⟨env, .operate who⟩).1 = .error f) :
    (LazyFee.opCountOf s who).val = Count.last := by
  have hhi := (LazyFee.opCountOf s who).le_hi
  have hlt : ¬ (LazyFee.opCountOf s who).val < 2 ^ 64 - 1 := by
    intro hlt
    obtain ⟨r, hr⟩ := (h.operate_iff env who).mpr ⟨hauth, hlt⟩
    rw [hf] at hr
    cases hr
  change _ = (2 ^ 64 - 1 : Int)
  omega

theorem opCount_step (h : Funded s) (who : Address)
    (i : Invocation Address (LazyFee.Call Address)) :
    (LazyFee.opCountOf (LazyFee.step s i).2 who).val =
      min ((LazyFee.opCountOf s who).val + (authorised who i).toList.length) Count.last := by
  have hhi := (LazyFee.opCountOf s who).le_hi
  have hlast : (Count.last : Int) = 2 ^ 64 - 1 := rfl
  obtain ⟨env, call⟩ := i
  obtain ⟨f, hi⟩ | ⟨hread, r, hi⟩ | ⟨w, c, v, rfl, hc, -, hi⟩ | ⟨w, v, rfl, -, hi⟩ :=
    LazyFee.step_cases s ⟨env, call⟩
  · rw [hi]
    cases ha : authorised who ⟨env, call⟩ with
    | none => simp; omega
    | some _ =>
      obtain ⟨rfl, hauth⟩ := eq_operate_of_authorised ha
      have hfull := h.full_of_refused hauth (congrArg Prod.fst hi)
      simp
      omega
  · rw [hi]
    have ha : authorised who ⟨env, call⟩ = none := by
      cases call with
      | operate _ => cases hread
      | _ => rfl
    rw [ha]
    simp
    omega
  · have hauth := ((h.operate_iff env w).mp ⟨_, congrArg Prod.fst hi⟩).1
    rw [hi]
    simp only [LazyFee.opCountOf_insert_accruedFee, LazyFee.opCountOf_insert_opCount, authorised]
    have hchi := c.le_hi
    by_cases hw : w = who
    · subst hw
      simp only [Function.update_self, hauth, and_self, if_true, Option.toList_some,
        List.length_singleton]
      omega
    · simp only [Function.update_of_ne (Ne.symm hw), hw, false_and, if_false, Option.toList_none,
        List.length_nil]
      omega
  · rw [hi]
    simp [authorised]
    omega

theorem opCount_run (cs : List (Invocation Address (LazyFee.Call Address))) (who : Address) :
    (LazyFee.opCountOf (final LazyFee.step ∅ cs) who).val =
      min ((cs.filterMap (authorised who)).length : Int) Count.last := by
  induction cs using List.reverseRecOn with
  | nil => simp
  | append_singleton cs i ih =>
    rw [Run.final_snoc, opCount_step (funded_run cs), ih, Run.filterMap_snoc, List.length_append]
    push_cast
    omega

structure LazyLimits (cs : List (Invocation Address (LazyFee.Call Address))) : Prop where
  answers : LazyFee.Answers (final LazyFee.step ∅ cs)
  finite : Total.Finite (LazyFee.accruedOf (final LazyFee.step ∅ cs))
  counted : Total.Finite (LazyFee.opCountOf (final LazyFee.step ∅ cs))
  total : (LazyFee.feePoolOf (final LazyFee.step ∅ cs)).val +
      Total.sum (LazyFee.accruedOf (final LazyFee.step ∅ cs)) =
    LazyFee.feePerOp.val * Total.sum (LazyFee.opCountOf (final LazyFee.step ∅ cs))
  opCount : ∀ who, (LazyFee.opCountOf (final LazyFee.step ∅ cs) who).val =
    min ((cs.filterMap (authorised who)).length : Int) Count.last
  operate : ∀ env who,
    (∃ r, (LazyFee.step (final LazyFee.step ∅ cs) ⟨env, .operate who⟩).1 = .ok r) ↔
      who ∈ env.auth ∧ (LazyFee.opCountOf (final LazyFee.step ∅ cs) who).val < Count.last
  sweep : ∀ env who,
    (∃ r, (LazyFee.step (final LazyFee.step ∅ cs) ⟨env, .sweep who⟩).1 = .ok r) ↔
      (LazyFee.feePoolOf (final LazyFee.step ∅ cs)).val +
        (LazyFee.accruedOf (final LazyFee.step ∅ cs) who).val < 2 ^ 127

theorem lazyLimits (cs : List (Invocation Address (LazyFee.Call Address))) : LazyLimits cs where
  answers := LazyFee.answers _
  finite := (funded_run cs).finite
  counted := (funded_run cs).counted
  total := (funded_run cs).total
  opCount := opCount_run cs
  operate := (funded_run cs).operate_iff
  sweep := (funded_run cs).sweep_iff

-- ---------------------------------------------------------------------------
-- NaiveFee
-- ---------------------------------------------------------------------------

/-- The pool holds the fees of the operations counted. -/
structure Pooled (t : NaiveFee.Ledger Address) : Prop where
  counted : Total.Finite (NaiveFee.opCountOf t)
  total : (NaiveFee.feePoolOf t).val =
    NaiveFee.feePerOp.val * Total.sum (NaiveFee.opCountOf t)
  pool : 0 ≤ (NaiveFee.feePoolOf t).val

theorem pooled_empty : Pooled (∅ : NaiveFee.Ledger Address) where
  counted := Total.finite_of_eq_zero fun who => by simp
  total := by
    rw [Total.sum_of_eq_zero fun who => by simp]
    simp
  pool := by simp

variable {t : NaiveFee.Ledger Address}

theorem pooled_step (h : Pooled t) (i : Invocation Address (NaiveFee.Call Address)) :
    Pooled (NaiveFee.step t i).2 := by
  obtain ⟨env, call⟩ := i
  cases call with
  | operate who =>
    obtain ⟨f, hi⟩ | ⟨c, v, hc, hv, hi⟩ := NaiveFee.step_operate env who t
    · rwa [hi]
    · rw [hi]
      have ht := h.total
      have hp := h.pool
      refine ⟨by simpa using Total.finite_update h.counted who c, ?_, by simp; omega⟩
      simp only [NaiveFee.feePerOp, NaiveFee.feePoolOf_insert_feePool,
        NaiveFee.opCountOf_insert_feePool, NaiveFee.opCountOf_insert_opCount,
        Total.sum_update h.counted] at ht ⊢
      omega
  | feePool => exact h
  | opCount who => exact h

structure NaiveLimits (cs : List (Invocation Address (NaiveFee.Call Address))) : Prop where
  answers : NaiveFee.Answers (final NaiveFee.step ∅ cs)
  counted : Total.Finite (NaiveFee.opCountOf (final NaiveFee.step ∅ cs))
  total : (NaiveFee.feePoolOf (final NaiveFee.step ∅ cs)).val =
    NaiveFee.feePerOp.val * Total.sum (NaiveFee.opCountOf (final NaiveFee.step ∅ cs))
  operate : ∀ env who,
    (∃ r, (NaiveFee.step (final NaiveFee.step ∅ cs) ⟨env, .operate who⟩).1 = .ok r) ↔
      who ∈ env.auth ∧ (NaiveFee.opCountOf (final NaiveFee.step ∅ cs) who).val < Count.last ∧
        (NaiveFee.feePoolOf (final NaiveFee.step ∅ cs)).val + NaiveFee.feePerOp.val < 2 ^ 127

theorem naiveLimits (cs : List (Invocation Address (NaiveFee.Call Address))) : NaiveLimits cs := by
  have h : Pooled (final NaiveFee.step ∅ cs) :=
    Run.final_induct (P := Pooled) (fun _ i h => pooled_step h i) pooled_empty cs
  refine ⟨NaiveFee.answers _, h.counted, h.total, fun env who => ?_⟩
  have hp := h.pool
  have hlast : (Count.last : Int) = 2 ^ 64 - 1 := rfl
  simp only [NaiveFee.feePerOp]
  rw [NaiveFee.operate_succeeds]
  refine and_congr_right fun _ => ?_
  constructor
  · rintro ⟨hc, -, hhi⟩
    omega
  · rintro ⟨hc, hhi⟩
    omega

theorem fees_at_limits (cs : List (Invocation Address (LazyFee.Call Address)))
    (ds : List (Invocation Address (NaiveFee.Call Address))) : LazyLimits cs ∧ NaiveLimits ds :=
  ⟨lazyLimits cs, naiveLimits ds⟩

end Fee
