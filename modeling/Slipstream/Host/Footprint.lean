import Slipstream.Host.Prog
import Slipstream.Base.Reorder
import Mathlib.Data.Set.Lattice

/-!
# Footprints

`reads` and `writes` are the keys a program touches when it runs on a given
ledger. A run changes no key it does not write (`run_frame`), and its outcome
depends on the keys it reads only (`run_local`), so calls whose footprints do
not meet commute, and a batch may be reordered along its conflicts.
-/

namespace Host

variable {K : Type} {V : K → Type} {E α β : Type} [DecidableEq K]

namespace Prog

def reads : Prog V E α → Store V → Finset K
  | .pure _, _ => ∅
  | .fail _, _ => ∅
  | .get k next, s => insert k ((next (s.lookup k)).reads s)
  | .set k v next, s => next.reads (s.insert k v)

def writes : Prog V E α → Store V → Finset K
  | .pure _, _ => ∅
  | .fail _, _ => ∅
  | .get k next, s => (next (s.lookup k)).writes s
  | .set k v next, s => insert k (next.writes (s.insert k v))

end Prog

section
variable {s : Store V} {p : Prog V E α}

@[simp] theorem reads_pure (a : α) : (pure a : Prog V E α).reads s = ∅ := rfl
@[simp] theorem writes_pure (a : α) : (pure a : Prog V E α).writes s = ∅ := rfl
@[simp] theorem reads_fail (f : Fault E) : (fail f : Prog V E α).reads s = ∅ := rfl
@[simp] theorem writes_fail (f : Fault E) : (fail f : Prog V E α).writes s = ∅ := rfl
@[simp] theorem reads_get (k : K) : (get k : Prog V E _).reads s = {k} := rfl
@[simp] theorem writes_get (k : K) : (get k : Prog V E _).writes s = ∅ := rfl
@[simp] theorem reads_getOr (k : K) (d : V k) : (getOr k d : Prog V E _).reads s = {k} := rfl
@[simp] theorem writes_getOr (k : K) (d : V k) : (getOr k d : Prog V E _).writes s = ∅ := rfl
@[simp] theorem reads_set (k : K) (v : V k) : (set k v : Prog V E _).reads s = ∅ := rfl
@[simp] theorem writes_set (k : K) (v : V k) : (set k v : Prog V E _).writes s = {k} := rfl

@[simp] theorem reads_checked (o : Option α) : (checked o : Prog V E α).reads s = ∅ := by
  cases o <;> rfl

@[simp] theorem writes_checked (o : Option α) : (checked o : Prog V E α).writes s = ∅ := by
  cases o <;> rfl

@[simp] theorem reads_assert (q : Prop) [Decidable q] (m : String) :
    (assert q m : Prog V E Unit).reads s = ∅ := by
  unfold assert
  split <;> rfl

@[simp] theorem writes_assert (q : Prop) [Decidable q] (m : String) :
    (assert q m : Prog V E Unit).writes s = ∅ := by
  unfold assert
  split <;> rfl

section
variable {Address : Type} [DecidableEq Address] (env : Env Address) (who : Address)

@[simp] theorem reads_requireAuth : (requireAuth env who : Prog V E Unit).reads s = ∅ := by
  unfold requireAuth
  split <;> rfl

@[simp] theorem writes_requireAuth : (requireAuth env who : Prog V E Unit).writes s = ∅ := by
  unfold requireAuth
  split <;> rfl

end

@[simp] theorem reads_bind (f : α → Prog V E β) :
    (p >>= f).reads s = p.reads s ∪ match p.run s with
      | .ok (a, s') => (f a).reads s'
      | .error _ => ∅ := by
  change (p.bind f).reads s = _
  induction p generalizing s with
  | pure a => simp [Prog.bind, Prog.reads, Prog.run]
  | fail e => rfl
  | get k next ih => simp [Prog.bind, Prog.reads, Prog.run, ih]
  | set k v next ih => simp [Prog.bind, Prog.reads, Prog.run, ih]

@[simp] theorem writes_bind (f : α → Prog V E β) :
    (p >>= f).writes s = p.writes s ∪ match p.run s with
      | .ok (a, s') => (f a).writes s'
      | .error _ => ∅ := by
  change (p.bind f).writes s = _
  induction p generalizing s with
  | pure a => simp [Prog.bind, Prog.writes, Prog.run]
  | fail e => rfl
  | get k next ih => simp [Prog.bind, Prog.writes, Prog.run, ih]
  | set k v next ih => simp [Prog.bind, Prog.writes, Prog.run, ih]

end

-- ---------------------------------------------------------------------------
-- Frame and locality
-- ---------------------------------------------------------------------------

section
variable {s t s' : Store V} {p : Prog V E α} {a : α}

theorem run_frame (h : p.run s = .ok (a, s')) {k : K} (hk : k ∉ p.writes s) :
    s'.lookup k = s.lookup k := by
  induction p generalizing s with
  | pure b => cases h; rfl
  | fail e => cases h
  | get j next ih => exact ih _ h hk
  | set j v next ih =>
    simp only [Prog.writes, Finset.mem_insert, not_or] at hk
    rw [ih h hk.2, Finmap.lookup_insert_of_ne _ hk.1]

/-- Ledgers that agree on the keys a run reads fault alike, and give the same
value and agree afterwards wherever they agreed or the run wrote. -/
theorem run_local (h : ∀ k ∈ p.reads s, s.lookup k = t.lookup k) :
    (∀ f, p.run s = .error f → p.run t = .error f) ∧
      ∀ a s', p.run s = .ok (a, s') → ∃ t', p.run t = .ok (a, t') ∧
        ∀ k, (k ∈ p.writes s ∨ s.lookup k = t.lookup k) → s'.lookup k = t'.lookup k := by
  induction p generalizing s t with
  | pure b =>
    refine ⟨fun _ hf => (nomatch hf), fun a s' ha => ?_⟩
    cases ha
    exact ⟨t, rfl, by simp [Prog.writes]⟩
  | fail e => exact ⟨fun _ hf => hf, fun _ _ ha => (nomatch ha)⟩
  | get j next ih =>
    simp only [Prog.reads, Finset.mem_insert, forall_eq_or_imp] at h
    simp only [Prog.run, Prog.writes, ← h.1]
    exact ih _ h.2
  | set j v next ih =>
    have hins : ∀ k, (k = j ∨ s.lookup k = t.lookup k) →
        (s.insert j v).lookup k = (t.insert j v).lookup k := by
      intro k hk
      by_cases hj : k = j
      · subst hj; simp
      · rw [Finmap.lookup_insert_of_ne _ hj, Finmap.lookup_insert_of_ne _ hj]
        exact hk.resolve_left hj
    obtain ⟨hf, ho⟩ := ih (s := s.insert j v) (t := t.insert j v) fun k hk => hins k (.inr (h k hk))
    refine ⟨hf, fun a s' ha => ?_⟩
    obtain ⟨t', ht, hw⟩ := ho a s' ha
    refine ⟨t', ht, fun k hk => hw k ?_⟩
    simp only [Prog.writes, Finset.mem_insert, or_assoc] at hk
    rcases hk with rfl | hk | hk
    · exact .inr (hins k (.inl rfl))
    · exact .inl hk
    · exact .inr (hins k (.inr hk))

end

-- ---------------------------------------------------------------------------
-- Calls with disjoint footprints commute
-- ---------------------------------------------------------------------------

/-- The keys a call is documented to read and to write. -/
structure Footprint (K : Type) where
  reads : Set K
  writes : Set K

namespace Footprint

def Conflict (f g : Footprint K) : Prop :=
  (f.writes ∩ (g.reads ∪ g.writes)).Nonempty ∨ (g.writes ∩ (f.reads ∪ f.writes)).Nonempty

/-- On every ledger the program stays inside the footprint. -/
def Covers (f : Footprint K) (p : Prog V E α) : Prop :=
  ∀ s, (∀ k ∈ p.reads s, k ∈ f.reads ∪ f.writes) ∧ ∀ k ∈ p.writes s, k ∈ f.writes

end Footprint

/-- The footprint of one run: the keys the program touches when it starts on
this ledger. -/
def touched (p : Prog V E α) (s : Store V) : Footprint K where
  reads := p.reads s
  writes := p.writes s

variable {f g : Footprint K} {p : Prog V E α} {q : Prog V E β} {s t : Store V}

section

theorem covers_of_untouched (hr : ∀ s, p.reads s = ∅) (hw : ∀ s, p.writes s = ∅) :
    f.Covers p := by
  intro s
  simp [hr s, hw s]

theorem covers_pure (a : α) : f.Covers (pure a : Prog V E α) :=
  covers_of_untouched (fun _ => rfl) fun _ => rfl

theorem covers_fail (e : Fault E) : f.Covers (fail e : Prog V E α) :=
  covers_of_untouched (fun _ => rfl) fun _ => rfl

theorem covers_checked (o : Option α) : f.Covers (checked o : Prog V E α) :=
  covers_of_untouched (fun _ => reads_checked o) fun _ => writes_checked o

theorem covers_assert (q : Prop) [Decidable q] (m : String) :
    f.Covers (assert q m : Prog V E Unit) :=
  covers_of_untouched (fun _ => reads_assert q m) fun _ => writes_assert q m

theorem covers_requireAuth {Address : Type} [DecidableEq Address] (env : Env Address)
    (who : Address) : f.Covers (requireAuth env who : Prog V E Unit) :=
  covers_of_untouched (fun _ => reads_requireAuth env who) fun _ => writes_requireAuth env who

theorem covers_get {k : K} (hk : k ∈ f.reads ∪ f.writes) : f.Covers (get k : Prog V E _) := by
  intro s
  simpa using hk

theorem covers_getOr {k : K} (hk : k ∈ f.reads ∪ f.writes) (d : V k) :
    f.Covers (getOr k d : Prog V E _) := by
  intro s
  simpa using hk

theorem covers_set {k : K} (hk : k ∈ f.writes) (v : V k) : f.Covers (set k v : Prog V E _) := by
  intro s
  simpa using hk

theorem covers_bind {next : α → Prog V E β} (hp : f.Covers p) (hn : ∀ a, f.Covers (next a)) :
    f.Covers (p >>= next) := by
  intro s
  obtain ⟨hr, hw⟩ := hp s
  rw [reads_bind, writes_bind]
  cases p.run s with
  | ok r =>
    obtain ⟨hr', hw'⟩ := hn r.1 r.2
    simp only [Finset.mem_union]
    exact ⟨fun k hk => hk.elim (hr k) (hr' k), fun k hk => hk.elim (hw k) (hw' k)⟩
  | error e => simpa using ⟨hr, hw⟩

theorem covers_foldlM {ι : Type} {body : β → ι → Prog V E β} {l : List ι}
    (h : ∀ i ∈ l, ∀ b, f.Covers (body b i)) (b : β) : f.Covers (l.foldlM body b) := by
  induction l generalizing b with
  | nil => exact covers_pure b
  | cons i l ih =>
    rw [List.foldlM_cons]
    exact covers_bind (h i List.mem_cons_self b) (ih fun j hj => h j (List.mem_cons_of_mem i hj))

end

theorem covers_forM {ι : Type} {body : ι → Prog V E Unit} {l : List ι}
    (h : ∀ i ∈ l, f.Covers (body i)) : f.Covers (l.forM body) := by
  induction l with
  | nil => exact covers_pure ()
  | cons i l ih =>
    refine covers_bind (h i List.mem_cons_self) fun _ => ih fun j hj => ?_
    exact h j (List.mem_cons_of_mem i hj)

theorem invoke_frame (hp : f.Covers p) {k : K} (hk : k ∉ f.writes) :
    (invoke p s).2.lookup k = s.lookup k := by
  obtain ⟨a, s', hr, hi⟩ | ⟨e, _, hi⟩ := invoke_cases p s
  · rw [hi]
    exact run_frame hr fun hw => hk ((hp s).2 k hw)
  · rw [hi]

theorem invoke_readOnly (hp : f.Covers p) (hf : f.writes = ∅) : (invoke p s).2 = s :=
  Finmap.ext_lookup fun k => invoke_frame hp (hf ▸ Set.notMem_empty k)

theorem invoke_local (hp : f.Covers p)
    (h : ∀ k ∈ f.reads ∪ f.writes, s.lookup k = t.lookup k) :
    (invoke p s).1 = (invoke p t).1 ∧
      ∀ k ∈ f.writes, (invoke p s).2.lookup k = (invoke p t).2.lookup k := by
  have hl := run_local (t := t) fun k hk => h k ((hp s).1 k hk)
  obtain ⟨a, s', hr, hi⟩ | ⟨e, hr, hi⟩ := invoke_cases p s
  · obtain ⟨t', ht, hw⟩ := hl.2 a s' hr
    rw [hi, invoke_of_ok ht]
    exact ⟨rfl, fun k hk => hw k (.inr (h k (.inr hk)))⟩
  · rw [hi, invoke_of_error (hl.1 e hr)]
    exact ⟨rfl, fun k hk => h k (.inr hk)⟩

/-- The answer of a call is the same before and after a call whose writes
its footprint does not meet. -/
theorem invoke_after (hp : f.Covers p) (hq : g.Covers q)
    (hd : ¬ (f.writes ∩ (g.reads ∪ g.writes)).Nonempty) :
    (invoke q s).1 = (invoke q (invoke p s).2).1 ∧
      ∀ k ∈ g.writes, (invoke q s).2.lookup k = (invoke q (invoke p s).2).2.lookup k :=
  invoke_local hq fun k hk => (invoke_frame hp fun hw => hd ⟨k, hw, hk⟩).symm

/-- Keys split three ways: what `p` writes, what `q` writes, the rest. -/
theorem invoke_swap (hp : f.Covers p) (hq : g.Covers q) (hd : ¬ f.Conflict g) :
    (invoke q (invoke p s).2).2 = (invoke p (invoke q s).2).2 := by
  obtain ⟨hpq, hqp⟩ := not_or.mp hd
  refine Finmap.ext_lookup fun k => ?_
  by_cases hf : k ∈ f.writes
  · have hg : k ∉ g.writes := fun hg => hpq ⟨k, hf, .inr hg⟩
    rw [invoke_frame hq hg]
    exact (invoke_after hq hp hqp).2 k hf
  · rw [invoke_frame hp hf]
    by_cases hg : k ∈ g.writes
    · exact ((invoke_after hp hq hpq).2 k hg).symm
    · rw [invoke_frame hq hg, invoke_frame hq hg, invoke_frame hp hf]

theorem conflict_of_touched (hp : f.Covers p) (hq : g.Covers q)
    (h : (touched p s).Conflict (touched q s)) : f.Conflict g := by
  obtain ⟨hpr, hpw⟩ := hp s
  obtain ⟨hqr, hqw⟩ := hq s
  obtain ⟨k, hk, hk'⟩ | ⟨k, hk, hk'⟩ := h
  · exact .inl ⟨k, hpw k hk, hk'.elim (hqr k) fun hw => .inr (hqw k hw)⟩
  · exact .inr ⟨k, hqw k hk, hk'.elim (hpr k) fun hw => .inr (hpw k hw)⟩

theorem conflict_of_writes {k : K} (hp : k ∈ p.writes s) (hq : k ∈ q.writes s) :
    (touched p s).Conflict (touched q s) := .inl ⟨k, hp, .inr hq⟩

section
variable {Address Call : Type} {dispatch : Env Address → Call → Prog V E α}
  {doc : Call → Footprint K}

theorem step_commute (hdoc : ∀ env c, (doc c).Covers (dispatch env c))
    {i j : Invocation Address Call} (hd : ¬ (doc i.call).Conflict (doc j.call)) :
    Run.Commute (step dispatch) i j := by
  intro s
  obtain ⟨hij, hji⟩ := not_or.mp hd
  exact ⟨(invoke_after (hdoc _ _) (hdoc _ _) hji).1, (invoke_after (hdoc _ _) (hdoc _ _) hij).1,
    invoke_swap (hdoc _ _) (hdoc _ _) hd⟩

/-- A contract that stays inside its documented footprints may have any batch
reordered along the documented conflicts. -/
theorem step_reorderable (hdoc : ∀ env c, (doc c).Covers (dispatch env c)) :
    Run.Reorderable (step dispatch)
      fun (i j : Invocation Address Call) => (doc i.call).Conflict (doc j.call) :=
  Run.reorderable_of_commute fun _ _ => step_commute hdoc

end

end Host
