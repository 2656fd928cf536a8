import Slipstream.Host.Footprint
import Slipstream.Host.Temporary

/-!
# Temporary storage within one ledger

Between two ledgers no entry expires, and a program on temporary storage is a
program on the entries themselves: `timed` reads an entry before it writes it,
to keep its lifetime. So what holds of programs on a ledger and of their
footprints holds of the calls on temporary storage too.
-/

namespace Host

variable {K : Type} {V : K → Type} {E α : Type}

/-- What a write leaves under a key: a live entry keeps its lifetime. -/
def renew {β : Type} (ttl : Lifetime) (seq : Nat) (old : Option (TempEntry β)) (v : β) :
    TempEntry β :=
  match old.filter fun e => seq ≤ e.liveUntil with
  | some e => { e with value := v }
  | none => { value := v, liveUntil := seq + ttl.minTtl - 1 }

def Prog.timed (ttl : Lifetime) (seq : Nat) : Prog V E α → Prog (fun k => TempEntry (V k)) E α
  | .pure a => .pure a
  | .fail f => .fail f
  | .get k next => .get k fun old =>
    (next ((old.filter fun e => seq ≤ e.liveUntil).map TempEntry.value)).timed ttl seq
  | .set k v next => .get k fun old => .set k (renew ttl seq old v) (next.timed ttl seq)

theorem renew_value {β : Type} (ttl : Lifetime) (seq : Nat) (old : Option (TempEntry β)) (v : β) :
    (renew ttl seq old v).value = v ∧ seq ≤ (renew ttl seq old v).liveUntil := by
  unfold renew
  split
  · next e he => exact ⟨rfl, of_decide_eq_true (Option.filter_eq_some_iff.mp he).2⟩
  · have hpos := ttl.pos
    exact ⟨rfl, by simp only; omega⟩

variable [DecidableEq K] {ttl : Lifetime} {seq : Nat} {s : TempStore V} {p : Prog V E α}

theorem insert_renew (s : TempStore V) (k : K) (v : V k) :
    Finmap.insert k (renew ttl seq (s.lookup k) v) s = s.write ttl seq k v := by
  unfold renew TempStore.write TempStore.live
  cases (s.lookup k).filter fun e => seq ≤ e.liveUntil <;> rfl

theorem lookup_write (ttl : Lifetime) (seq : Nat) (s : TempStore V) (k : K) (v : V k) :
    (s.write ttl seq k v).lookup k = some (renew ttl seq (s.lookup k) v) := by
  rw [← insert_renew, Finmap.lookup_insert]

theorem run_timed (ttl : Lifetime) (seq : Nat) (p : Prog V E α) (s : TempStore V) :
    (p.timed ttl seq).run s = p.runTemp ttl seq s := by
  induction p generalizing s with
  | pure a => rfl
  | fail f => rfl
  | get k next ih => exact ih _ s
  | set k v next ih =>
    simp only [Prog.timed, Prog.run, insert_renew]
    exact ih _

/-- A call at ledger `seq` is a call of the programs on the entries. -/
theorem tempStep_call {Address Call : Type} (dispatch : Env Address → Call → Prog V E α)
    (t : TempState V) (i : Invocation Address Call) :
    tempStep ttl dispatch t (.call i) =
      let r := step (fun env c => (dispatch env c).timed ttl t.seq) t.entries i
      (some r.1, { t with entries := r.2 }) := by
  simp only [tempStep, step, invoke, run_timed]

-- ---------------------------------------------------------------------------
-- Footprints
-- ---------------------------------------------------------------------------

/-- The ledger holds the values of the live entries. -/
def Shows (seq : Nat) (s : TempStore V) (t : Store V) : Prop :=
  ∀ k, t.lookup k = (s.live seq k).map TempEntry.value

theorem exists_store (keys : Finset K) (g : ∀ k, Option (V k)) (h : ∀ k ∉ keys, g k = none) :
    ∃ t : Store V, ∀ k, t.lookup k = g k := by
  induction keys using Finset.induction generalizing g with
  | empty => exact ⟨∅, fun k => by rw [h k (Finset.notMem_empty k), Finmap.lookup_empty]⟩
  | insert a keys _ ih =>
    obtain ⟨t, ht⟩ := ih (Function.update g a none) fun k hk => by
      by_cases hka : k = a
      · subst hka
        exact Function.update_self ..
      · rw [Function.update_of_ne hka]
        exact h k fun hm => (Finset.mem_insert.mp hm).elim hka hk
    cases ha : g a with
    | none =>
      refine ⟨t, fun k => (ht k).trans ?_⟩
      by_cases hka : k = a
      · subst hka
        rw [Function.update_self, ha]
      · rw [Function.update_of_ne hka]
    | some v =>
      refine ⟨t.insert a v, fun k => ?_⟩
      by_cases hka : k = a
      · subst hka
        rw [Finmap.lookup_insert, ha]
      · rw [Finmap.lookup_insert_of_ne _ hka, ht k, Function.update_of_ne hka]

theorem exists_shows (seq : Nat) (s : TempStore V) : ∃ t : Store V, Shows seq s t :=
  exists_store s.keys _ fun k hk => by
    rw [live_of_absent (Finmap.lookup_eq_none.mpr fun hm => hk (Finmap.mem_keys.mpr hm))]
    rfl

variable (ttl) in
theorem Shows.write {t : Store V} (h : Shows seq s t) (k : K) (v : V k) :
    Shows seq (s.write ttl seq k v) (t.insert k v) := by
  intro j
  by_cases hj : j = k
  · subst hj
    have hl := lookup_write ttl seq s j v
    obtain ⟨hv, hlive⟩ := renew_value ttl seq (s.lookup j) v
    rw [Finmap.lookup_insert, live_of_le hl hlive, Option.map_some, hv]
  · rw [Finmap.lookup_insert_of_ne _ hj, h j, TempStore.live, TempStore.live,
      lookup_write_of_ne hj]

variable (ttl p) in
/-- The keys touched are those of the program on the live values; a key that
is written is read first. -/
theorem touched_timed {t : Store V} (h : Shows seq s t) :
    (∀ k ∈ (p.timed ttl seq).reads s, k ∈ p.reads t ∪ p.writes t) ∧
      (p.timed ttl seq).writes s = p.writes t := by
  induction p generalizing s t with
  | pure a => exact ⟨fun k hk => absurd hk (Finset.notMem_empty k), rfl⟩
  | fail f => exact ⟨fun k hk => absurd hk (Finset.notMem_empty k), rfl⟩
  | get k next ih =>
    obtain ⟨hr, hw⟩ := ih (t.lookup k) h
    simp only [Prog.timed, Prog.reads, Prog.writes, Finset.mem_union, Finset.mem_insert] at hr ⊢
    rw [h k] at hr hw ⊢
    refine ⟨fun j hj => ?_, hw⟩
    obtain rfl | hj := hj
    · exact .inl (.inl rfl)
    · exact (hr j hj).imp_left .inr
  | set k v next ih =>
    obtain ⟨hr, hw⟩ := ih (h.write ttl k v)
    simp only [Prog.timed, Prog.reads, Prog.writes, Finset.mem_union, Finset.mem_insert,
      insert_renew] at hr ⊢
    refine ⟨fun j hj => ?_, congrArg (insert k) hw⟩
    obtain rfl | hj := hj
    · exact .inr (.inl rfl)
    · exact (hr j hj).imp_right .inr

theorem covers_timed {f : Footprint K} (h : f.Covers p) : f.Covers (p.timed ttl seq) := by
  intro s
  obtain ⟨t, ht⟩ := exists_shows seq s
  obtain ⟨hr, hw⟩ := h t
  obtain ⟨hr', hw'⟩ := touched_timed ttl p ht
  refine ⟨fun k hk => ?_, fun k hk => hw k (hw' ▸ hk)⟩
  exact (Finset.mem_union.mp (hr' k hk)).elim (hr k) fun hk => .inr (hw k hk)

end Host
