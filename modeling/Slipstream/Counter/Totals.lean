import Slipstream.Counter.Naive
import Slipstream.Counter.Sharded
import Mathlib.Algebra.BigOperators.Ring.Finset

/-!
# Both counters count alike

A sharded run, and the single counter run once for each increment whose shard
is in range. Until 2^64 of them are made, each shard holds how many named it
and both totals are how many there were. `total` is exact on every ledger, and
traps where the sum does not fit.
-/

namespace Counter

open Host (Env Invocation upTo)
open Run (final)
open ShardedCounter (SHARDS countOf sumOf)

variable {Address : Type}

/-- The shard an increment names, if there is such a shard. -/
def inRange (i : Invocation Address ShardedCounter.Call) : Option UInt32 :=
  match i.call with
  | .increment shard => if shard < SHARDS then some shard else none
  | _ => none

/-- The shards of the accepted increments, in call order. -/
def accepted (cs : List (Invocation Address ShardedCounter.Call)) : List UInt32 :=
  cs.filterMap inRange

/-- The accepted increments, as calls of the single counter. -/
def merged (cs : List (Invocation Address ShardedCounter.Call)) :
    List (Invocation Address NaiveCounter.Call) :=
  cs.filterMap fun i => (inRange i).map fun _ => ⟨i.env, .increment⟩

/-- The two ledgers after accepted increments of the shards `l`. -/
structure Counts (s : ShardedCounter.Ledger) (t : NaiveCounter.Ledger) (l : List UInt32) :
    Prop where
  shard : ∀ g, (countOf s g).val = l.count g
  counter : (NaiveCounter.countOf t).val = l.length

-- ---------------------------------------------------------------------------
-- One call
-- ---------------------------------------------------------------------------

variable {s : ShardedCounter.Ledger} {t : NaiveCounter.Ledger} {l : List UInt32} {g : UInt32}

theorem counts_empty : Counts ∅ ∅ [] where
  shard g := by rw [ShardedCounter.countOf_empty]; rfl
  counter := by rw [NaiveCounter.countOf_empty]; rfl

theorem Counts.increment (h : Counts s t l) {v w : U64} (hv : v.val = (countOf s g).val + 1)
    (hw : w.val = (NaiveCounter.countOf t).val + 1) :
    Counts (s.insert (.shard g) v) (t.insert .counter w) (l ++ [g]) where
  shard a := by
    have ha := h.shard a
    rw [ShardedCounter.countOf_insert, List.count_append, List.count_singleton]
    by_cases hag : a = g
    · subst hag
      simp [hv, ha]
    · simp [Function.update_of_ne hag, Ne.symm hag, ha]
  counter := by
    rw [NaiveCounter.countOf_insert, hw, h.counter, List.length_append]
    rfl

theorem both_increment (h : Counts s t l) (hl : l.length + 1 < 2 ^ 64) (hg : g < SHARDS)
    (env : Env Address) : ∃ v w : U64,
      ShardedCounter.step s ⟨env, .increment g⟩ = (.ok (.count v), s.insert (.shard g) v) ∧
      NaiveCounter.step t ⟨env, .increment⟩ = (.ok w, t.insert .counter w) ∧
      v.val = (countOf s g).val + 1 ∧ w.val = (NaiveCounter.countOf t).val + 1 := by
  have hle : l.count g ≤ l.length := List.count_le_length
  have hs := h.shard g
  have ht := h.counter
  obtain ⟨v, hv, hsi⟩ := ShardedCounter.step_increment (s := s) hg (by omega) env
  obtain ⟨w, hw, hti⟩ := NaiveCounter.step_increment (s := t) (by omega) env
  exact ⟨v, w, hsi, hti, hv, hw⟩

theorem step_idle {i : Invocation Address ShardedCounter.Call} (hi : inRange i = none) :
    (ShardedCounter.step s i).2 = s := by
  obtain ⟨env, call⟩ := i
  cases call with
  | increment shard =>
    have hg : SHARDS ≤ shard := by
      by_contra hlt
      simp [inRange, UInt32.not_le.mp hlt] at hi
    rw [ShardedCounter.step_increment_outOfRange hg]
  | _ => exact Host.invoke_readOnly (ShardedCounter.covers env _) rfl

theorem inRange_increment (env : Env Address) (hg : g < SHARDS) :
    inRange ⟨env, .increment g⟩ = some g := by
  simp [inRange, hg]

theorem eq_increment_of_inRange {i : Invocation Address ShardedCounter.Call}
    (hi : inRange i = some g) : i = ⟨i.env, .increment g⟩ ∧ g < SHARDS := by
  obtain ⟨env, call⟩ := i
  cases call with
  | increment shard =>
    by_cases h : shard < SHARDS
    · rw [inRange_increment env h] at hi
      cases hi
      exact ⟨rfl, h⟩
    · simp [inRange, h] at hi
  | _ => cases hi

-- ---------------------------------------------------------------------------
-- Every run
-- ---------------------------------------------------------------------------

variable {cs pre : List (Invocation Address ShardedCounter.Call)}

theorem mem_accepted_lt (hg : g ∈ accepted cs) : g < SHARDS := by
  obtain ⟨i, -, hi⟩ := List.mem_filterMap.mp hg
  exact (eq_increment_of_inRange hi).2

def CountsAfter (cs : List (Invocation Address ShardedCounter.Call)) : Prop :=
  Counts (final ShardedCounter.step ∅ cs) (final NaiveCounter.step ∅ (merged cs)) (accepted cs)

theorem counts_snoc {i : Invocation Address ShardedCounter.Call}
    (hl : (accepted (cs ++ [i])).length < 2 ^ 64) (h : CountsAfter cs) :
    CountsAfter (cs ++ [i]) := by
  unfold CountsAfter accepted merged at h ⊢
  unfold accepted at hl
  rw [Run.filterMap_snoc] at hl
  rw [Run.final_snoc, Run.filterMap_snoc, Run.filterMap_snoc]
  cases hi : inRange i with
  | none =>
    rw [step_idle hi]
    simpa [hi] using h
  | some g =>
    obtain ⟨he, hg⟩ := eq_increment_of_inRange hi
    rw [hi, List.length_append] at hl
    obtain ⟨v, w, hs, ht, hv, hw⟩ := both_increment h hl hg i.env
    rw [he, hs]
    simp only [Option.map_some, Option.toList_some, Run.final_snoc, ht]
    exact h.increment hv hw

theorem counts_run (cs : List (Invocation Address ShardedCounter.Call))
    (hl : (accepted cs).length < 2 ^ 64) : CountsAfter cs :=
  Run.prefix_induct (B := fun cs => (accepted cs).length < 2 ^ 64) (P := CountsAfter)
    (fun _ _ => Run.length_filterMap_lt_of_snoc) counts_empty (fun _ _ => counts_snoc) cs hl

theorem accepted_snoc (env : Env Address) (hg : g < SHARDS) :
    accepted (pre ++ [⟨env, .increment g⟩]) = accepted pre ++ [g] := by
  rw [accepted, Run.filterMap_snoc, inRange_increment env hg]
  rfl

theorem sum_count {ks : List UInt32} (hks : ks.Nodup) (h : ∀ g ∈ l, g ∈ ks) :
    (ks.map fun g => l.count g).sum = l.length := by
  rw [← List.sum_toFinset _ hks]
  have hcard := Multiset.sum_count_eq_card (s := ks.toFinset) (m := (l : Multiset UInt32))
    fun g hg => List.mem_toFinset.mpr (h g hg)
  simpa only [Multiset.coe_count, Multiset.coe_card] using hcard

theorem Counts.sumOf (h : Counts s t l) (hl : ∀ g ∈ l, g < SHARDS) : sumOf s = l.length := by
  rw [← sum_count (Host.nodup_upTo SHARDS) fun g hg => Host.mem_upTo.mpr (hl g hg),
    Nat.cast_list_sum, List.map_map, ShardedCounter.sumOf]
  exact congrArg List.sum (List.map_congr_left fun g _ => h.shard g)

structure TotalsAfter (cs : List (Invocation Address ShardedCounter.Call)) : Prop where
  shardTotal : ∀ (env : Env Address) g, g < SHARDS → ∃ v : U64,
    ShardedCounter.step (final ShardedCounter.step ∅ cs) ⟨env, .shardTotal g⟩ =
      (.ok (.count v), final ShardedCounter.step ∅ cs) ∧ v.val = (accepted cs).count g
  total : ∀ env : Env Address, ∃ v : U64,
    ShardedCounter.step (final ShardedCounter.step ∅ cs) ⟨env, .total⟩ =
      (.ok (.count v), final ShardedCounter.step ∅ cs) ∧
    NaiveCounter.step (final NaiveCounter.step ∅ (merged cs)) ⟨env, .total⟩ =
      (.ok v, final NaiveCounter.step ∅ (merged cs)) ∧
    v.val = sumOf (final ShardedCounter.step ∅ cs) ∧ v.val = (accepted cs).length

theorem totals_run (hl : (accepted cs).length < 2 ^ 64) : TotalsAfter cs where
  shardTotal env g hg :=
    ⟨_, ShardedCounter.step_shardTotal hg env, (counts_run cs hl).shard g⟩
  total env := by
    have hc := counts_run cs hl
    have hsum := hc.sumOf fun _ => mem_accepted_lt
    obtain ⟨-, v, hv, hi⟩ | ⟨hover, -⟩ :=
      ShardedCounter.step_total (final ShardedCounter.step ∅ cs) env
    · have hn : v = NaiveCounter.countOf (final NaiveCounter.step ∅ (merged cs)) :=
        Ranged.val_inj.mp (by rw [hv, hsum, hc.counter])
      exact ⟨v, hi, hn ▸ NaiveCounter.step_total env, hv, hv.trans hsum⟩
    · rw [hsum] at hover
      omega

/-- A sharded run against the single counter run once for each increment in
range. -/
structure CountsAlike (cs : List (Invocation Address ShardedCounter.Call)) : Prop where
  rejected : ∀ pre (env : Env Address) shard, pre ++ [⟨env, .increment shard⟩] <+: cs →
    SHARDS ≤ shard →
      ShardedCounter.step (final ShardedCounter.step ∅ pre) ⟨env, .increment shard⟩ =
        (.error (.error .shardOutOfRange), final ShardedCounter.step ∅ pre)
  counted : ∀ pre (env : Env Address) shard, pre ++ [⟨env, .increment shard⟩] <+: cs →
    shard < SHARDS → (accepted (pre ++ [⟨env, .increment shard⟩])).length < 2 ^ 64 →
      ∃ v w : U64,
        (ShardedCounter.step (final ShardedCounter.step ∅ pre) ⟨env, .increment shard⟩).1 =
          .ok (.count v) ∧
        (NaiveCounter.step (final NaiveCounter.step ∅ (merged pre)) ⟨env, .increment⟩).1 = .ok w
  totals : ∀ pre, pre <+: cs → (accepted pre).length < 2 ^ 64 → TotalsAfter pre
  exact : ∀ pre, pre <+: cs → ∀ env : Env Address,
    (sumOf (final ShardedCounter.step ∅ pre) < 2 ^ 64 ∧ ∃ v : U64,
      v.val = sumOf (final ShardedCounter.step ∅ pre) ∧
      ShardedCounter.step (final ShardedCounter.step ∅ pre) ⟨env, .total⟩ =
        (.ok (.count v), final ShardedCounter.step ∅ pre)) ∨
    (2 ^ 64 ≤ sumOf (final ShardedCounter.step ∅ pre) ∧
      ShardedCounter.step (final ShardedCounter.step ∅ pre) ⟨env, .total⟩ =
        (.error .overflow, final ShardedCounter.step ∅ pre))

theorem counters_count_alike (cs : List (Invocation Address ShardedCounter.Call)) :
    CountsAlike cs where
  rejected _ env _ _ hg := ShardedCounter.step_increment_outOfRange hg env
  counted pre env shard _ hg hl := by
    rw [accepted_snoc env hg, List.length_append, List.length_singleton] at hl
    obtain ⟨v, w, hs, ht, -⟩ := both_increment (counts_run pre (by omega)) hl hg env
    exact ⟨v, w, congrArg Prod.fst hs, congrArg Prod.fst ht⟩
  totals _ _ hl := totals_run hl
  exact pre _ env := ShardedCounter.step_total (final ShardedCounter.step ∅ pre) env

end Counter
