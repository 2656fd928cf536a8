import Slipstream.Base.Stages
import Slipstream.Counter.Naive
import Slipstream.Counter.Totals
import Slipstream.EventLog.Naive
import Slipstream.EventLog.Segmented

/-!
# How many stages a batch needs

A stage holds calls that do not conflict, by the keys they touch when run on
the ledger the batch starts from. Appends of a log conflict exactly within a
segment. Increments of a counter conflict exactly within a shard while it has
room for another count; a call on a full shard traps before it writes.
-/

namespace Schedule

open Host (Env Invocation touched)
open Run (final)
open Stages (Clustered Contend busiest counts)

variable {Address Msg : Type} {n : Nat}

/-- Two calls of a batch conflict when one writes a key the other reads or
writes, each run on `s`. -/
def Meets {K Call α E : Type} {V : K → Type} [DecidableEq K]
    (dispatch : Env Address → Call → Host.Prog V E α) (s : Host.Store V)
    (batch : Fin n → Invocation Address Call) (i j : Fin n) : Prop :=
  (touched (dispatch (batch i).env (batch i).call) s).Conflict
    (touched (dispatch (batch j).env (batch j).call) s)

def increments (env : Fin n → Env Address) (shard : Fin n → UInt32) (i : Fin n) :
    Invocation Address ShardedCounter.Call := ⟨env i, .increment (shard i)⟩

def appends (env : Fin n → Env Address) (segment : Fin n → UInt32) (msg : Fin n → Msg)
    (i : Fin n) : Invocation Address (SegmentedEventLog.Call Msg) :=
  ⟨env i, .append (segment i) (msg i)⟩

def naiveIncrements (env : Fin n → Env Address) (i : Fin n) :
    Invocation Address NaiveCounter.Call := ⟨env i, .increment⟩

def naiveAppends (env : Fin n → Env Address) (msg : Fin n → Msg) (i : Fin n) :
    Invocation Address (NaiveEventLog.Call Msg) := ⟨env i, .append (msg i)⟩

/-- Call `i` names index `i mod 8`. -/
def roundRobin (i : Fin n) : UInt32 := UInt32.ofNat (i.val % 8)

theorem toNat_roundRobin (i : Fin n) : (roundRobin i).toNat = i.val % 8 :=
  UInt32.toNat_ofNat_of_lt' (lt_trans (Nat.mod_lt _ (by decide)) (by decide))

theorem roundRobin_lt (i : Fin n) : roundRobin i < 8 := by
  rw [UInt32.lt_iff_toNat_lt, toNat_roundRobin]
  exact Nat.mod_lt _ (by decide)

theorem largest_roundRobin (n : Nat) : Stages.largest (@roundRobin n) = n ⌈/⌉ 8 := by
  rw [← Stages.largest_mod (by decide) n]
  refine Stages.largest_congr fun i j => ?_
  rw [← UInt32.toNat_inj, toNat_roundRobin, toNat_roundRobin]

-- ---------------------------------------------------------------------------
-- Which calls conflict
-- ---------------------------------------------------------------------------

/-- Programs that read one key each, and write it while it has room, conflict
exactly on a key that has room. -/
theorem contend_of_counts {K κ E α : Type} {V : K → Type} [DecidableEq K]
    {p : Fin n → Host.Prog V E α} {s : Host.Store V} {label : Fin n → κ} {key : κ → K}
    {room : κ → Prop} [DecidablePred room] (hkey : Function.Injective key)
    (h : ∀ i, (p i).reads s = {key (label i)} ∧
      (p i).writes s = if room (label i) then {key (label i)} else ∅) :
    Contend (fun i j => (touched (p i) s).Conflict (touched (p j) s)) label room := by
  have hw (i : Fin n) (k : K) : k ∈ (touched (p i) s).writes ↔
      room (label i) ∧ k = key (label i) := by
    simp only [touched, (h i).2]
    split
    · next hr => simp [hr]
    · next hr => simp [hr]
  have ht (i : Fin n) (k : K) (hk : k ∈ (touched (p i) s).reads ∪ (touched (p i) s).writes) :
      k = key (label i) := by
    obtain hr | hw' := hk
    · simpa [touched, (h i).1] using hr
    · exact ((hw i k).mp hw').2
  intro i j _
  constructor
  · rintro (⟨k, hi, hj⟩ | ⟨k, hj, hi⟩)
    · obtain ⟨hr, hki⟩ := (hw i k).mp hi
      exact ⟨hkey (hki.symm.trans (ht j k hj)), hr⟩
    · obtain ⟨hr, hkj⟩ := (hw j k).mp hj
      have hl : label i = label j := hkey ((ht i k hi).symm.trans hkj)
      exact ⟨hl, hl ▸ hr⟩
  · rintro ⟨hl, hr⟩
    have hi := (hw i (key (label i))).mpr ⟨hr, rfl⟩
    have hj := (hw j (key (label i))).mpr ⟨hl ▸ hr, congrArg key hl⟩
    exact .inl ⟨_, hi, .inr hj⟩

theorem increments_contend (s : ShardedCounter.Ledger) (env : Fin n → Env Address)
    {shard : Fin n → UInt32} (hg : ∀ i, shard i < ShardedCounter.SHARDS) :
    Contend (Meets ShardedCounter.dispatch s (increments env shard)) shard
      (ShardedCounter.HasRoom s) :=
  contend_of_counts (fun _ _ => ShardedCounter.DataKey.shard.inj) fun i =>
    ShardedCounter.touched_increment (hg i) s (env i)

theorem appends_contend (s : SegmentedEventLog.Ledger Msg) (env : Fin n → Env Address)
    {segment : Fin n → UInt32} (hg : ∀ i, segment i < SegmentedEventLog.SEGMENTS)
    (msg : Fin n → Msg) :
    Contend (Meets SegmentedEventLog.dispatch s (appends env segment msg)) segment
      fun _ => True := by
  intro i j _
  rw [and_true]
  constructor
  · intro h
    have hi := SegmentedEventLog.covers (env i) (.append (segment i) (msg i))
    have hj := SegmentedEventLog.covers (env j) (.append (segment j) (msg j))
    exact SegmentedEventLog.eq_of_conflict (Host.conflict_of_touched hi hj h)
  · intro h
    have hi := SegmentedEventLog.entry_mem_writes_append (hg i) s (env i) (msg i)
    have hj := SegmentedEventLog.entry_mem_writes_append (hg j) s (env j) (msg j)
    exact Host.conflict_of_writes hi (h ▸ hj)

theorem naiveIncrements_contend (s : NaiveCounter.Ledger) (env : Fin n → Env Address) :
    Contend (Meets NaiveCounter.dispatch s (naiveIncrements env)) (fun _ => ())
      fun _ => NaiveCounter.HasRoom s :=
  contend_of_counts (Function.injective_of_subsingleton fun _ => NaiveCounter.DataKey.counter)
    fun i => NaiveCounter.touched_increment s (env i)

theorem naiveAppends_contend (s : NaiveEventLog.Ledger Msg) (env : Fin n → Env Address)
    (msg : Fin n → Msg) :
    Contend (Meets NaiveEventLog.dispatch s (naiveAppends env msg)) (fun _ => ())
      fun _ => True := by
  intro i j _
  have hi := NaiveEventLog.entry_mem_writes_append s (env i) (msg i)
  have hj := NaiveEventLog.entry_mem_writes_append s (env j) (msg j)
  exact iff_of_true (Host.conflict_of_writes hi hj) ⟨rfl, trivial⟩

-- ---------------------------------------------------------------------------
-- The stages each batch needs
-- ---------------------------------------------------------------------------

theorem increments_clustered {s : ShardedCounter.Ledger} (env : Fin n → Env Address)
    {shard : Fin n → UInt32} (hg : ∀ i, shard i < ShardedCounter.SHARDS)
    (hr : ∀ i, ShardedCounter.HasRoom s (shard i)) :
    Clustered (Meets ShardedCounter.dispatch s (increments env shard)) shard :=
  (increments_contend s env hg).clustered hr

theorem appends_clustered (t : SegmentedEventLog.Ledger Msg) (env : Fin n → Env Address)
    {segment : Fin n → UInt32} (hg : ∀ i, segment i < SegmentedEventLog.SEGMENTS)
    (msg : Fin n → Msg) :
    Clustered (Meets SegmentedEventLog.dispatch t (appends env segment msg)) segment :=
  (appends_contend t env hg msg).clustered fun _ => trivial

theorem naiveIncrements_stages (u : NaiveCounter.Ledger) (env : Fin n → Env Address) :
    IsLeast (counts (Meets NaiveCounter.dispatch u (naiveIncrements env)))
      (if NaiveCounter.HasRoom u then n else min n 1) := by
  have h := naiveIncrements_contend u env
  split
  · next hr =>
    have hl := (h.clustered fun _ => hr).least
    rwa [Stages.largest_const, Fintype.card_fin] at hl
  · next hr =>
    have hfree : busiest (fun _ : Fin n => ()) (fun _ => NaiveCounter.HasRoom u) = _ :=
      Stages.busiest_of_free fun _ => hr
    have hl := hfree ▸ h.isLeast
    rwa [Fintype.card_fin] at hl

theorem naiveAppends_stages (w : NaiveEventLog.Ledger Msg) (env : Fin n → Env Address)
    (msg : Fin n → Msg) :
    IsLeast (counts (Meets NaiveEventLog.dispatch w (naiveAppends env msg))) n := by
  have hl := ((naiveAppends_contend w env msg).clustered fun _ => trivial).least
  rwa [Stages.largest_const, Fintype.card_fin] at hl

theorem stages_needed (s : ShardedCounter.Ledger) (t : SegmentedEventLog.Ledger Msg)
    (u : NaiveCounter.Ledger) (w : NaiveEventLog.Ledger Msg) (env : Fin n → Env Address)
    (msg : Fin n → Msg) :
    (∀ shard : Fin n → UInt32, (∀ i, shard i < ShardedCounter.SHARDS) →
      (∀ i, ShardedCounter.HasRoom s (shard i)) →
        Clustered (Meets ShardedCounter.dispatch s (increments env shard)) shard) ∧
    ((∀ i : Fin n, ShardedCounter.HasRoom s (roundRobin i)) →
      IsLeast (counts (Meets ShardedCounter.dispatch s (increments env roundRobin)))
        (n ⌈/⌉ 8)) ∧
    (∀ shard : Fin n → UInt32, (∀ i, shard i < ShardedCounter.SHARDS) →
      Contend (Meets ShardedCounter.dispatch s (increments env shard)) shard
        (ShardedCounter.HasRoom s) ∧
      IsLeast (counts (Meets ShardedCounter.dispatch s (increments env shard)))
        (busiest shard (ShardedCounter.HasRoom s))) ∧
    (∀ segment : Fin n → UInt32, (∀ i, segment i < SegmentedEventLog.SEGMENTS) →
      Clustered (Meets SegmentedEventLog.dispatch t (appends env segment msg)) segment) ∧
    IsLeast (counts (Meets SegmentedEventLog.dispatch t (appends env roundRobin msg)))
      (n ⌈/⌉ 8) ∧
    IsLeast (counts (Meets NaiveCounter.dispatch u (naiveIncrements env)))
      (if NaiveCounter.HasRoom u then n else min n 1) ∧
    IsLeast (counts (Meets NaiveEventLog.dispatch w (naiveAppends env msg))) n := by
  refine ⟨fun _ => increments_clustered env, fun hr => ?_, fun shard hg => ?_,
    fun _ hg => appends_clustered t env hg msg, ?_, naiveIncrements_stages u env,
    naiveAppends_stages w env msg⟩
  · exact largest_roundRobin n ▸ (increments_clustered env roundRobin_lt hr).least
  · exact ⟨increments_contend s env hg, (increments_contend s env hg).isLeast⟩
  · exact largest_roundRobin n ▸ (appends_clustered t env roundRobin_lt msg).least

/-- Ten calls dealt over the indices of fresh ledgers take two stages. -/
theorem ten_calls_two_stages :
    Clustered (Meets ShardedCounter.dispatch ∅
      (increments (fun _ : Fin 10 => (⟨∅⟩ : Env Unit)) roundRobin)) roundRobin ∧
    IsLeast (counts (Meets ShardedCounter.dispatch ∅
      (increments (fun _ : Fin 10 => (⟨∅⟩ : Env Unit)) roundRobin))) 2 ∧
    Clustered (Meets SegmentedEventLog.dispatch ∅
      (appends (fun _ : Fin 10 => (⟨∅⟩ : Env Unit)) roundRobin fun _ => ())) roundRobin := by
  have h := stages_needed ∅ ∅ ∅ ∅ (fun _ : Fin 10 => (⟨∅⟩ : Env Unit)) fun _ => ()
  have hr (i : Fin 10) : ShardedCounter.HasRoom ∅ (roundRobin i) :=
    ShardedCounter.hasRoom_empty (roundRobin i)
  exact ⟨h.1 roundRobin roundRobin_lt hr, h.2.1 hr, h.2.2.2.1 roundRobin roundRobin_lt⟩

-- A full count, reached from the empty ledger.

def bumps (k : Nat) : List (Invocation Unit ShardedCounter.Call) :=
  List.replicate k ⟨⟨∅⟩, .increment 0⟩

theorem counts_bumps {k : Nat} (hk : k < 2 ^ 64) :
    (ShardedCounter.countOf (final ShardedCounter.step ∅ (bumps k)) 0).val = k ∧
      (NaiveCounter.countOf (final NaiveCounter.step ∅ (Counter.merged (bumps k)))).val = k := by
  have hacc : Counter.accepted (bumps k) = List.replicate k 0 :=
    List.filterMap_replicate_of_some (Counter.inRange_increment _ (by decide))
  have hc := Counter.counts_run (bumps k) (by simpa [hacc] using hk)
  rw [hc.shard 0, hc.counter, hacc, List.count_replicate_self, List.length_replicate]
  exact ⟨rfl, rfl⟩

def fullShard : ShardedCounter.Ledger := final ShardedCounter.step ∅ (bumps (2 ^ 64 - 1))

def fullCounter : NaiveCounter.Ledger :=
  final NaiveCounter.step ∅ (Counter.merged (bumps (2 ^ 64 - 1)))

theorem not_hasRoom_full :
    ¬ ShardedCounter.HasRoom fullShard 0 ∧ ¬ NaiveCounter.HasRoom fullCounter := by
  obtain ⟨hs, hn⟩ := @counts_bumps (2 ^ 64 - 1) (by decide)
  constructor
  · unfold ShardedCounter.HasRoom fullShard
    omega
  · unfold NaiveCounter.HasRoom fullCounter
    omega

/-- Two increments of a full count do not conflict, and one stage holds both. -/
theorem full_count_one_stage :
    ¬ Meets ShardedCounter.dispatch fullShard
        (increments (fun _ : Fin 2 => (⟨∅⟩ : Env Unit)) fun _ => 0) 0 1 ∧
      IsLeast (counts (Meets ShardedCounter.dispatch fullShard
        (increments (fun _ : Fin 2 => (⟨∅⟩ : Env Unit)) fun _ => 0))) 1 ∧
      IsLeast (counts (Meets NaiveCounter.dispatch fullCounter
        (naiveIncrements fun _ : Fin 2 => (⟨∅⟩ : Env Unit)))) 1 := by
  obtain ⟨hs, hn⟩ := not_hasRoom_full
  have h : Contend (Meets ShardedCounter.dispatch fullShard
      (increments (fun _ : Fin 2 => (⟨∅⟩ : Env Unit)) fun _ => 0)) (fun _ => 0)
      (ShardedCounter.HasRoom fullShard) := increments_contend _ _ fun _ => by decide
  have hl := h.isLeast
  have hu := naiveIncrements_stages fullCounter fun _ : Fin 2 => (⟨∅⟩ : Env Unit)
  rw [Stages.busiest_of_free fun _ => hs] at hl
  rw [if_neg hn] at hu
  exact ⟨fun hm => hs ((h 0 1 (by decide)).mp hm).2, hl, hu⟩

end Schedule
