import Slipstream.Base.Stages
import Slipstream.Host.Footprint

/-!
# Parallel stages

All calls of a stage run on the ledger the stage starts from; then what they
wrote is put in place, call after call. `stage_eq_run`: where no two calls of
a stage conflict, by the keys they touch on that ledger, this is what running
them one by one does, in any order. A batch in stages is then the run of its
calls in the order of their stages.
-/

namespace Host

variable {K : Type} {V : K → Type} {E α : Type}

-- ---------------------------------------------------------------------------
-- What a call leaves to be written
-- ---------------------------------------------------------------------------

section
variable [DecidableEq K]

def Prog.log : Prog V E α → Store V → List (Sigma V)
  | .pure _, _ => []
  | .fail _, _ => []
  | .get k next, s => (next (s.lookup k)).log s
  | .set k v next, s => ⟨k, v⟩ :: next.log (s.insert k v)

def commit (s : Store V) (l : List (Sigma V)) : Store V :=
  l.foldl (fun s e => s.insert e.1 e.2) s

/-- A call that faults leaves nothing. -/
def effects (p : Prog V E α) (s : Store V) : List (Sigma V) :=
  match p.run s with
  | .ok _ => p.log s
  | .error _ => []

variable {s t s' : Store V} {p q : Prog V E α} {l m : List (Sigma V)}

theorem commit_append : commit s (l ++ m) = commit (commit s l) m := List.foldl_append

theorem run_eq_commit {a : α} (h : p.run s = .ok (a, s')) : s' = commit s (p.log s) := by
  induction p generalizing s with
  | pure b => cases h; rfl
  | fail e => cases h
  | get k next ih => exact ih _ h
  | set k v next ih => exact ih h

theorem invoke_eq_commit (p : Prog V E α) (s : Store V) :
    (invoke p s).2 = commit s (effects p s) := by
  obtain ⟨a, s', hr, hi⟩ | ⟨f, hr, hi⟩ := invoke_cases p s
  · rw [hi, effects, hr]
    exact run_eq_commit hr
  · rw [hi, effects, hr]
    rfl

theorem mem_writes_of_log {e : Sigma V} (h : e ∈ p.log s) : e.1 ∈ p.writes s := by
  induction p generalizing s with
  | pure a => cases h
  | fail f => cases h
  | get k next ih => exact ih _ h
  | set k v next ih =>
    rw [Prog.writes, Finset.mem_insert]
    cases h with
    | head => exact .inl rfl
    | tail _ h => exact .inr (ih h)

theorem mem_writes_of_effects {e : Sigma V} (h : e ∈ effects p s) : e.1 ∈ p.writes s := by
  unfold effects at h
  split at h
  · exact mem_writes_of_log h
  · cases h

theorem lookup_commit_of_notMem {k : K} (h : ∀ e ∈ l, e.1 ≠ k) :
    (commit s l).lookup k = s.lookup k := by
  induction l generalizing s with
  | nil => rfl
  | cons e l ih =>
    obtain ⟨he, hl⟩ := List.forall_mem_cons.mp h
    exact (ih hl).trans (Finmap.lookup_insert_of_ne _ (Ne.symm he))

theorem lookup_invoke {k : K} (hk : k ∉ p.writes s) : (invoke p s).2.lookup k = s.lookup k := by
  rw [invoke_eq_commit]
  exact lookup_commit_of_notMem fun e he hek => hk (hek ▸ mem_writes_of_effects he)

/-- On ledgers that agree on the keys it reads, a program touches the same
keys and writes the same entries. -/
theorem touched_local (h : ∀ k ∈ p.reads s, s.lookup k = t.lookup k) :
    p.reads t = p.reads s ∧ p.writes t = p.writes s ∧ p.log t = p.log s := by
  induction p generalizing s t with
  | pure a => exact ⟨rfl, rfl, rfl⟩
  | fail f => exact ⟨rfl, rfl, rfl⟩
  | get k next ih =>
    simp only [Prog.reads, Finset.mem_insert, forall_eq_or_imp] at h
    obtain ⟨hr, hw, hl⟩ := ih _ h.2
    simp only [Prog.reads, Prog.writes, Prog.log, ← h.1, hr, hw, hl, and_self]
  | set k v next ih =>
    have hins : ∀ j ∈ next.reads (s.insert k v),
        (s.insert k v).lookup j = (t.insert k v).lookup j := by
      intro j hj
      by_cases hjk : j = k
      · subst hjk
        rw [Finmap.lookup_insert, Finmap.lookup_insert]
      · rw [Finmap.lookup_insert_of_ne _ hjk, Finmap.lookup_insert_of_ne _ hjk]
        exact h j hj
    obtain ⟨hr, hw, hl⟩ := ih hins
    exact ⟨hr, congrArg (insert k) hw, congrArg (_ :: ·) hl⟩

theorem effects_local (h : ∀ k ∈ p.reads s, s.lookup k = t.lookup k) :
    (invoke p t).1 = (invoke p s).1 ∧ effects p t = effects p s := by
  obtain ⟨hf, ho⟩ := run_local h
  obtain ⟨a, s', hr, hi⟩ | ⟨f, hr, hi⟩ := invoke_cases p s
  · obtain ⟨t', ht, -⟩ := ho a s' hr
    rw [hi, invoke_of_ok ht, effects, effects, ht, hr]
    exact ⟨rfl, (touched_local h).2.2⟩
  · rw [hi, invoke_of_error (hf f hr), effects, effects, hf f hr, hr]
    exact ⟨rfl, rfl⟩

/-- What a call touches, answers and writes is the same after a call that it
does not conflict with. -/
theorem effects_after (h : ¬ (touched p s).Conflict (touched q s)) :
    touched q (invoke p s).2 = touched q s ∧
      (invoke q (invoke p s).2).1 = (invoke q s).1 ∧ effects q (invoke p s).2 = effects q s := by
  have hagree : ∀ k ∈ q.reads s, s.lookup k = (invoke p s).2.lookup k := by
    intro k hk
    refine (lookup_invoke fun hw => h (.inl ⟨k, hw, .inl hk⟩)).symm
  obtain ⟨hr, hw, -⟩ := touched_local hagree
  exact ⟨by rw [touched, touched, hr, hw], effects_local hagree⟩

end

-- ---------------------------------------------------------------------------
-- One stage
-- ---------------------------------------------------------------------------

section
variable {Address Call : Type} [DecidableEq K] {dispatch : Env Address → Call → Prog V E α}
  {s : Store V} {calls : List (Invocation Address Call)}

/-- Two calls conflict on the ledger they both start from. -/
def Clash (dispatch : Env Address → Call → Prog V E α) (s : Store V)
    (i j : Invocation Address Call) : Prop :=
  (touched (dispatch i.env i.call) s).Conflict (touched (dispatch j.env j.call) s)

def entriesOf (dispatch : Env Address → Call → Prog V E α) (s : Store V)
    (i : Invocation Address Call) : List (Sigma V) := effects (dispatch i.env i.call) s

/-- The answers of a stage, and the ledger it leaves. -/
def stage (dispatch : Env Address → Call → Prog V E α) (s : Store V)
    (calls : List (Invocation Address Call)) : List (Except (Fault E) α) × Store V :=
  (calls.map fun i => (step dispatch s i).1, commit s (calls.flatMap (entriesOf dispatch s)))

theorem stage_eq_run (h : calls.Pairwise fun i j => ¬ Clash dispatch s i j) :
    stage dispatch s calls =
      (Run.outputs (step dispatch) s calls, Run.final (step dispatch) s calls) := by
  induction calls generalizing s with
  | nil => rfl
  | cons i calls ih =>
    obtain ⟨hi, hcalls⟩ := List.pairwise_cons.mp h
    have hafter (j) (hj : j ∈ calls) := effects_after (hi j hj)
    have hnext : calls.Pairwise fun j k => ¬ Clash dispatch (step dispatch s i).2 j k := by
      refine hcalls.imp_of_mem fun {j k} hj hk hjk => ?_
      unfold Clash step
      rw [(hafter j hj).1, (hafter k hk).1]
      exact hjk
    have hanswers : calls.map (fun j => (step dispatch (step dispatch s i).2 j).1) =
        calls.map fun j => (step dispatch s j).1 :=
      List.map_congr_left fun j hj => (hafter j hj).2.1
    have hentries : calls.flatMap (entriesOf dispatch (step dispatch s i).2) =
        calls.flatMap (entriesOf dispatch s) :=
      List.flatMap_congr fun j hj => (hafter j hj).2.2
    have hih := ih hnext
    unfold stage at hih ⊢
    rw [hanswers, hentries, Prod.mk.injEq] at hih
    have hcommit : (step dispatch s i).2 = commit s (entriesOf dispatch s i) :=
      invoke_eq_commit ..
    rw [List.map_cons, List.flatMap_cons, commit_append, ← hcommit, hih.1, hih.2]
    rfl

-- ---------------------------------------------------------------------------
-- A batch in stages
-- ---------------------------------------------------------------------------

variable {ι : Type} {call : ι → Invocation Address Call} {doc : Call → Footprint K}

/-- The calls with the given labels, stage after stage: every label with its
answer, and the ledger the last stage leaves. -/
def staged (dispatch : Env Address → Call → Prog V E α) (call : ι → Invocation Address Call) :
    Store V → List (List ι) → List (ι × Except (Fault E) α) × Store V
  | s, [] => ([], s)
  | s, labels :: stages =>
    let (answers, s') := stage dispatch s (labels.map call)
    let (rest, last) := staged dispatch call s' stages
    (labels.zip answers ++ rest, last)

theorem not_clash_of_doc (hdoc : ∀ env c, (doc c).Covers (dispatch env c))
    {i j : Invocation Address Call} (h : ¬ (doc i.call).Conflict (doc j.call)) (s : Store V) :
    ¬ Clash dispatch s i j :=
  fun hc => h (conflict_of_touched (hdoc i.env i.call) (hdoc j.env j.call) hc)

/-- Stages without conflicts run as their calls do one after the other. -/
theorem staged_eq_run (hdoc : ∀ env c, (doc c).Covers (dispatch env c)) {stages : List (List ι)}
    (h : ∀ labels ∈ stages, labels.Pairwise fun i j =>
      ¬ (doc (call i).call).Conflict (doc (call j).call)) (s : Store V) :
    staged dispatch call s stages =
      (Run.answers (step dispatch) call s stages.flatten,
        Run.final (step dispatch) s (stages.flatten.map call)) := by
  induction stages generalizing s with
  | nil => rfl
  | cons labels stages ih =>
    obtain ⟨hl, hs⟩ := List.forall_mem_cons.mp h
    have hstage : stage dispatch s (labels.map call) = _ :=
      stage_eq_run (List.pairwise_map.mpr (hl.imp fun hij => not_clash_of_doc hdoc hij s))
    simp only [staged, hstage, ih hs, List.flatten_cons, List.map_append]
    rw [Run.final_append, Run.answers_append]
    rfl

-- ---------------------------------------------------------------------------
-- Any choice of stages
-- ---------------------------------------------------------------------------

/-- What a contract that stays inside its documented footprints can rely on,
for every batch, every choice of stages that keeps calls documented to conflict
apart, and every ledger: the stages do what the calls do one by one, taken in
any order that respects the stages, and in batch order where conflicting calls
have their stages in that order too. -/
structure RunsInStages (dispatch : Env Address → Call → Prog V E α) (doc : Call → Footprint K) :
    Prop where
  serial : ∀ (s : Store V) (n : Nat) (call : Fin n → Invocation Address Call)
    (assigned : Fin n → Nat),
    (∀ i j, i ≠ j → (doc (call i).call).Conflict (doc (call j).call) → assigned i ≠ assigned j) →
      ∀ order : List (Fin n), order.Perm (List.finRange n) →
        order.Pairwise (fun i j => assigned i ≤ assigned j) →
          (staged dispatch call s (Stages.groups assigned)).1.Perm
              (Run.answers (step dispatch) call s order) ∧
            (staged dispatch call s (Stages.groups assigned)).2 =
              Run.final (step dispatch) s (order.map call)
  ordered : ∀ (s : Store V) (n : Nat) (call : Fin n → Invocation Address Call)
    (assigned : Fin n → Nat),
    (∀ i j, i < j → (doc (call i).call).Conflict (doc (call j).call) → assigned i < assigned j) →
      (staged dispatch call s (Stages.groups assigned)).1.Perm
          (Run.answers (step dispatch) call s (List.finRange n)) ∧
        (staged dispatch call s (Stages.groups assigned)).2 =
          Run.final (step dispatch) s (List.ofFn call)

omit [DecidableEq K] in
theorem Footprint.Conflict.symm {f g : Footprint K} (h : f.Conflict g) : g.Conflict f := Or.symm h

theorem staged_groups (hdoc : ∀ env c, (doc c).Covers (dispatch env c)) {n : Nat}
    {call : Fin n → Invocation Address Call} {assigned : Fin n → Nat}
    (h : ∀ i j, i < j → (doc (call i).call).Conflict (doc (call j).call) →
      assigned i ≠ assigned j) (s : Store V) :
    staged dispatch call s (Stages.groups assigned) =
      (Run.answers (step dispatch) call s (Stages.groups assigned).flatten,
        Run.final (step dispatch) s ((Stages.groups assigned).flatten.map call)) :=
  staged_eq_run hdoc (fun _ hl => (Stages.mem_groups hl).imp fun {i j} hij hc =>
    h i j hij.2 hc hij.1) s

theorem runsInStages_of_covers (hdoc : ∀ env c, (doc c).Covers (dispatch env c)) :
    RunsInStages dispatch doc where
  serial s n call assigned h order hp ho := by
    have hasymm : ∀ i j : Fin n, (assigned i < assigned j ∨ assigned i = assigned j ∧ i < j) →
        ¬ (assigned j < assigned i ∨ assigned j = assigned i ∧ j < i) := by
      intro i j hij hji
      omega
    have hnodup : order.Nodup := hp.nodup_iff.mpr (List.nodup_finRange n)
    have hord : order.Pairwise fun i j => (doc (call i).call).Conflict (doc (call j).call) →
        assigned i < assigned j ∨ assigned i = assigned j ∧ i < j :=
      (ho.and hnodup).imp fun {i j} hij hc =>
        .inl (lt_of_le_of_ne hij.1 (h i j hij.2 hc))
    obtain ⟨hf, ha⟩ := Run.reorder_of hasymm (fun _ _ => step_commute hdoc) s
      Stages.pairwise_groups (hp.trans Stages.groups_perm.symm) hord
    rw [staged_groups hdoc fun i j hij => h i j hij.ne]
    exact ⟨ha.symm, hf.symm⟩
  ordered s n call assigned h := by
    have hord : (Stages.groups assigned).flatten.Pairwise fun i j =>
        (doc (call i).call).Conflict (doc (call j).call) → i < j := by
      refine Stages.pairwise_groups.imp fun {i j} hij hc => ?_
      by_contra hle
      have hne : j ≠ i := by
        rintro rfl
        omega
      have hji := h j i (lt_of_le_of_ne (not_lt.mp hle) hne) hc.symm
      omega
    obtain ⟨hf, ha⟩ := Run.reorder (fun _ _ => step_commute hdoc) s
      (List.pairwise_lt_finRange n) Stages.groups_perm hord
    rw [staged_groups hdoc fun i j hij hc => (h i j hij hc).ne]
    rw [List.ofFn_eq_map]
    exact ⟨ha, hf⟩

/-- At most `k` stages, fixed before the ledger is known, hold the batch without
a clash on any ledger, and do what its calls do one after the other. -/
def FitsIn (dispatch : Env Address → Call → Prog V E α) {n : Nat}
    (call : Fin n → Invocation Address Call) (k : Nat) : Prop :=
  ∃ stages : List (List (Fin n)), stages.length ≤ k ∧
    (∀ labels ∈ stages, ∀ s, labels.Pairwise fun i j => ¬ Clash dispatch s (call i) (call j)) ∧
      ∀ s, (staged dispatch call s stages).1.Perm
          (Run.answers (step dispatch) call s (List.finRange n)) ∧
        (staged dispatch call s stages).2 = Run.final (step dispatch) s (List.ofFn call)

theorem fitsIn_largest (hdoc : ∀ env c, (doc c).Covers (dispatch env c)) {κ : Type}
    [DecidableEq κ] {n : Nat} {call : Fin n → Invocation Address Call} (label : Fin n → κ)
    (hl : ∀ i j, (doc (call i).call).Conflict (doc (call j).call) → label i = label j) :
    FitsIn dispatch call (max 1 (Stages.largest label)) := by
  have hturn : ∀ i j, i < j → (doc (call i).call).Conflict (doc (call j).call) →
      Stages.inTurn label (fun _ => True) i < Stages.inTurn label (fun _ => True) j :=
    fun i j hij hc => Stages.inTurn_lt_inTurn hij (hl i j hc) trivial
  refine ⟨_, Stages.length_groups_inTurn label, fun labels hlabels s => ?_, fun s => ?_⟩
  · refine (Stages.mem_groups hlabels).imp fun {i j} hij => not_clash_of_doc hdoc ?_ s
    exact fun hc => (hturn i j hij.2 hc).ne hij.1
  · exact (runsInStages_of_covers hdoc).ordered s n call _ hturn

end

end Host
