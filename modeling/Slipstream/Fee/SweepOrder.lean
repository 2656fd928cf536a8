import Slipstream.Fee.Reconcile

/-!
# The order of sweeps

Sweeps all write the pool, so none commutes with another by its footprint.
What a run of sweeps leaves depends on the accounts swept only: `Swept` tells
every key after it from the set of them, and a second sweep of an account
finds nothing.
-/

namespace Fee

open Host (Env Invocation)
open LazyFee (step feePoolOf accruedOf opCountOf)
open Run (final outputs)

variable {Address : Type}

def sweeps (l : List (Env Address × Address)) : List (Invocation Address (LazyFee.Call Address)) :=
  l.map fun x => ⟨x.1, .sweep x.2⟩

theorem accruedFee_ne_feePool (a : Address) : LazyFee.DataKey.accruedFee a ≠ .feePool := nofun

theorem opCount_ne_feePool (a : Address) : LazyFee.DataKey.opCount a ≠ .feePool := nofun

theorem opCount_ne_accruedFee (a b : Address) :
    LazyFee.DataKey.opCount a ≠ .accruedFee b := nofun

variable [DecidableEq Address]

def accounts (l : List (Env Address × Address)) : Finset Address := (l.map Prod.snd).toFinset

/-- The ledger `s'` after sweeps of the accounts `A` from the ledger `s`. -/
structure Swept (s : LazyFee.Ledger Address) (A : Finset Address) (s' : LazyFee.Ledger Address) :
    Prop where
  reset : ∀ a ∈ A, s'.lookup (.accruedFee a) = some (0 : I128)
  kept : ∀ a ∉ A, s'.lookup (.accruedFee a) = s.lookup (.accruedFee a)
  opCount : ∀ a, s'.lookup (.opCount a) = s.lookup (.opCount a)
  pool : (feePoolOf s').val = (feePoolOf s).val + ∑ a ∈ A, (accruedOf s a).val
  stored : A.Nonempty → s'.lookup .feePool = some (feePoolOf s')

variable {s s' t : LazyFee.Ledger Address} {A : Finset Address} {who : Address}

-- ---------------------------------------------------------------------------
-- One sweep
-- ---------------------------------------------------------------------------

theorem swept_nil (s : LazyFee.Ledger Address) : Swept s ∅ s where
  reset a ha := absurd ha (Finset.notMem_empty a)
  kept _ _ := rfl
  opCount _ := rfl
  pool := by rw [Finset.sum_empty, Int.add_zero]
  stored h := absurd rfl h.ne_empty

theorem Swept.accrued (h : Swept s A s') : (accruedOf s' who).val =
    if who ∈ A then 0 else (accruedOf s who).val := by
  unfold accruedOf Host.valueAt
  split
  · next hw => rw [h.reset who hw]; rfl
  · next hw => rw [h.kept who hw]

theorem Swept.add_accrued (h : Swept s A s') : (feePoolOf s').val + (accruedOf s' who).val =
    (feePoolOf s).val + ∑ a ∈ insert who A, (accruedOf s a).val := by
  rw [h.accrued, h.pool]
  split
  · next hw => rw [Finset.insert_eq_of_mem hw, Int.add_zero]
  · next hw => rw [Finset.sum_insert hw]; omega

theorem Swept.sweep (h : Swept s A s') {v : I128}
    (hv : v.val = (feePoolOf s').val + (accruedOf s' who).val) :
    Swept s (insert who A) ((s'.insert (.accruedFee who) (0 : I128)).insert .feePool v) where
  reset a ha := by
    rw [Finmap.lookup_insert_of_ne _ (accruedFee_ne_feePool a)]
    by_cases hw : a = who
    · subst hw
      exact Finmap.lookup_insert _
    · rw [Finmap.lookup_insert_of_ne _ fun he => hw (LazyFee.DataKey.accruedFee.inj he)]
      exact h.reset a (Finset.mem_of_mem_insert_of_ne ha hw)
  kept a ha := by
    obtain ⟨hw, hA⟩ := not_or.mp fun he => ha (Finset.mem_insert.mpr he)
    rw [Finmap.lookup_insert_of_ne _ (accruedFee_ne_feePool a),
      Finmap.lookup_insert_of_ne _ fun he => hw (LazyFee.DataKey.accruedFee.inj he)]
    exact h.kept a hA
  opCount a := by
    rw [Finmap.lookup_insert_of_ne _ (opCount_ne_feePool a),
      Finmap.lookup_insert_of_ne _ (opCount_ne_accruedFee a who)]
    exact h.opCount a
  pool := by rw [LazyFee.feePoolOf_insert_feePool, hv, h.add_accrued]
  stored _ := by rw [LazyFee.feePoolOf_insert_feePool, Finmap.lookup_insert]

/-- Sweeps of the same accounts, at least one, leave the same ledger. -/
theorem Swept.unique (h : Swept s A s') (ht : Swept s A t) (hA : A.Nonempty) : s' = t := by
  refine Finmap.ext_lookup fun k => ?_
  cases k with
  | opCount a => rw [h.opCount a, ht.opCount a]
  | accruedFee a =>
    by_cases ha : a ∈ A
    · rw [h.reset a ha, ht.reset a ha]
    · rw [h.kept a ha, ht.kept a ha]
  | feePool =>
    have hp : feePoolOf s' = feePoolOf t := Ranged.val_inj.mp (by rw [h.pool, ht.pool])
    rw [h.stored hA, ht.stored hA, hp]

-- ---------------------------------------------------------------------------
-- Every run of sweeps
-- ---------------------------------------------------------------------------

/-- No accrual is negative, and all of them fit the pool together with what it
holds. -/
structure Sweepable (s : LazyFee.Ledger Address) : Prop where
  solvent : Solvent s
  finite : Total.Finite (accruedOf s)
  fits : (feePoolOf s).val + Total.sum (accruedOf s) < 2 ^ 127

theorem Sweepable.add_sum (h : Sweepable s) (A : Finset Address) :
    0 ≤ (feePoolOf s).val + ∑ a ∈ A, (accruedOf s a).val ∧
      (feePoolOf s).val + ∑ a ∈ A, (accruedOf s a).val < 2 ^ 127 := by
  have hle := Total.sum_finset_le h.finite h.solvent.accrued A
  have h0 : 0 ≤ ∑ a ∈ A, (accruedOf s a).val :=
    Finset.sum_nonneg fun a _ => h.solvent.accrued a
  have hp := h.solvent.pool
  have hb := h.fits
  omega

theorem Sweepable.step_sweep (h : Sweepable s) (hs : Swept s A s') (env : Env Address)
    (who : Address) :
    ∃ v : I128, (step s' ⟨env, .sweep who⟩).1 = .ok (.fee v) ∧
      feePoolOf (step s' ⟨env, .sweep who⟩).2 = v ∧
      Swept s (insert who A) (step s' ⟨env, .sweep who⟩).2 := by
  obtain ⟨h0, hhi⟩ := h.add_sum (insert who A)
  rw [← hs.add_accrued] at h0 hhi
  have hlo : -2 ^ 127 ≤ (feePoolOf s').val + (accruedOf s' who).val := by omega
  obtain ⟨v, hv, hi⟩ := LazyFee.step_sweep hlo (Int.le_sub_one_of_lt hhi) env
  rw [hi]
  exact ⟨v, rfl, LazyFee.feePoolOf_insert_feePool .., hs.sweep hv⟩

theorem accounts_snoc (l : List (Env Address × Address)) (x : Env Address × Address) :
    accounts (l ++ [x]) = insert x.2 (accounts l) := by
  ext a
  simp [accounts]

theorem swept_run (h : Sweepable s) (l : List (Env Address × Address)) :
    Swept s (accounts l) (final step s (sweeps l)) ∧
      (l ≠ [] → (outputs step s (sweeps l)).getLast? =
        some (.ok (.fee (feePoolOf (final step s (sweeps l)))))) := by
  induction l using List.reverseRecOn with
  | nil => exact ⟨swept_nil s, fun hne => absurd rfl hne⟩
  | append_singleton l x ih =>
    obtain ⟨v, ho, hp, hs⟩ := h.step_sweep ih.1 x.1 x.2
    rw [sweeps, List.map_append, List.map_singleton, ← sweeps, Run.final_snoc, Run.outputs_snoc,
      accounts_snoc, List.getLast?_concat, ho, hp]
    exact ⟨hs, fun _ => rfl⟩

-- ---------------------------------------------------------------------------
-- From every ledger a run leads to
-- ---------------------------------------------------------------------------

/-- Amounts are never negative, and only finitely many accounts owe a fee. -/
theorem solvent_run (cs : List (Invocation Address (LazyFee.Call Address))) :
    Solvent (final step ∅ cs) ∧ Total.Finite (accruedOf (final step ∅ cs)) := by
  refine Run.final_induct (P := fun s => Solvent s ∧ Total.Finite (accruedOf s)) ?_
    ⟨solvent_empty, reconciled_empty.finite⟩ cs
  rintro s i ⟨h, hf⟩
  obtain ⟨f, hi⟩ | ⟨-, r, hi⟩ | ⟨who, c, v, -, -, hv, hi⟩ | ⟨who, v, -, hv, hi⟩ :=
    LazyFee.step_cases s i
  · rw [hi]
    exact ⟨h, hf⟩
  · rw [hi]
    exact ⟨h, hf⟩
  · rw [hi]
    exact ⟨h.operate hv, by simpa using Total.finite_update hf who v⟩
  · rw [hi]
    exact ⟨h.sweep hv, by simpa using Total.finite_update hf who 0⟩

/-- What sweeps of one list and of another leave and answer. -/
structure SweptAlike (s : LazyFee.Ledger Address) (as bs : List (Env Address × Address)) :
    Prop where
  answers : LazyFee.Answers s ∧ LazyFee.Answers (final step s (sweeps as))
  store : final step s (sweeps as) = final step s (sweeps bs)
  reset : ∀ a ∈ accounts as, accruedOf (final step s (sweeps as)) a = 0
  kept : ∀ a ∉ accounts as, accruedOf (final step s (sweeps as)) a = accruedOf s a
  opCount : ∀ a, opCountOf (final step s (sweeps as)) a = opCountOf s a
  last : ∃ v : I128, (outputs step s (sweeps as)).getLast? = some (.ok (.fee v)) ∧
    (outputs step s (sweeps bs)).getLast? = some (.ok (.fee v)) ∧
    v.val = (feePoolOf s).val + ∑ a ∈ accounts as, (accruedOf s a).val

/-- Neither order nor repetition matters, only which accounts are swept. -/
theorem sweeps_alike (cs : List (Invocation Address (LazyFee.Call Address)))
    (hb : (feePoolOf (final step ∅ cs)).val + Total.sum (accruedOf (final step ∅ cs)) < 2 ^ 127)
    {as bs : List (Env Address × Address)} (has : as ≠ []) (hbs : bs ≠ [])
    (hset : accounts as = accounts bs) : SweptAlike (final step ∅ cs) as bs := by
  obtain ⟨hsolvent, hfinite⟩ := solvent_run cs
  have h : Sweepable (final step ∅ cs) := ⟨hsolvent, hfinite, hb⟩
  obtain ⟨ha, hla⟩ := swept_run h as
  obtain ⟨hb, hlb⟩ := swept_run h bs
  rw [← hset] at hb
  have hne : (accounts as).Nonempty := by
    obtain ⟨x, l, rfl⟩ := List.exists_cons_of_ne_nil has
    exact ⟨x.2, by simp [accounts]⟩
  have hstore := ha.unique hb hne
  refine ⟨⟨LazyFee.answers _, LazyFee.answers _⟩, hstore, fun a hm => ?_, fun a hm => ?_,
    fun a => ?_, _, hla has, ?_, ha.pool⟩
  · exact Ranged.val_inj.mp (by rw [ha.accrued, if_pos hm]; rfl)
  · exact Ranged.val_inj.mp (by rw [ha.accrued, if_neg hm])
  · unfold opCountOf Host.valueAt
    rw [ha.opCount a]
  · rw [hstore]
    exact hlb hbs

theorem sweeps_alike_repeated :
    let cs : List (Invocation Nat (LazyFee.Call Nat)) :=
      [⟨⟨{1}⟩, .operate 1⟩, ⟨⟨{2}⟩, .operate 2⟩, ⟨⟨{1}⟩, .operate 1⟩]
    SweptAlike (final step ∅ cs) [(⟨∅⟩, 1), (⟨∅⟩, 3), (⟨∅⟩, 2)]
      [(⟨{2}⟩, 2), (⟨∅⟩, 1), (⟨∅⟩, 2), (⟨∅⟩, 3)] := by
  intro cs
  have h := (reconciled_run cs (by decide)).1
  refine sweeps_alike cs ?_ (by decide) (by decide) (by decide)
  rw [h.total, h.pool]
  decide

end Fee
