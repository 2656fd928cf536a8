import Slipstream.Admin.Batched
import Slipstream.Admin.Naive
import Slipstream.Base.Run
import Mathlib.Data.Finset.Card

/-!
# How wide a configuration is

A new configuration is one key of `BatchedAdmin`, and of `NaiveAdmin` as many
as it has settings. What the one key answers is the last configuration given,
whole.
-/

namespace Admin

open Host (Env Invocation touched)
open NaiveAdmin (SdkVec writeSetting)
open Run (final)

variable {Address : Type}

-- ---------------------------------------------------------------------------
-- The keys one call touches
-- ---------------------------------------------------------------------------

theorem touched_forM (l : List (I128 × Nat)) (s : NaiveAdmin.Ledger) :
    (l.forM writeSetting).reads s = ∅ ∧ (l.forM writeSetting).writes s =
      (l.map fun x => NaiveAdmin.DataKey.setting (UInt32.ofNat x.2)).toFinset := by
  induction l generalizing s with
  | nil => exact ⟨rfl, rfl⟩
  | cons x l ih =>
    obtain ⟨hr, hw⟩ := ih (s.insert (.setting (UInt32.ofNat x.2)) x.1)
    change (writeSetting x >>= fun _ => l.forM writeSetting).reads s = ∅ ∧
      (writeSetting x >>= fun _ => l.forM writeSetting).writes s = _
    rw [Host.reads_bind, Host.writes_bind, List.map_cons, List.toFinset_cons, ← hw]
    refine ⟨?_, rfl⟩
    change ∅ ∪ (l.forM writeSetting).reads _ = ∅
    rw [hr, Finset.empty_union]

def settingsOf (values : SdkVec I128) : List NaiveAdmin.DataKey :=
  values.toList.zipIdx.map fun x => .setting (UInt32.ofNat x.2)

theorem nodup_settingsOf (values : SdkVec I128) : (settingsOf values).Nodup := by
  refine (List.nodup_map_iff_inj_on ?_).mpr ?_
  · exact List.Nodup.of_map Prod.snd (by simpa using List.nodup_range')
  · intro x hx y hy h
    obtain ⟨hxi, -⟩ := NaiveAdmin.toNat_index hx
    obtain ⟨hyi, -⟩ := NaiveAdmin.toNat_index hy
    have hi : UInt32.ofNat x.2 = UInt32.ofNat y.2 := NaiveAdmin.DataKey.setting.inj h
    have hsnd : x.2 = y.2 := by rw [← hxi, ← hyi, hi]
    have hfst : some x.1 = some y.1 := by
      rw [← List.mk_mem_zipIdx_iff_getElem?.mp hx, hsnd]
      exact List.mk_mem_zipIdx_iff_getElem?.mp hy
    exact Prod.ext (Option.some.inj hfst) hsnd

theorem touched_setConfig (env : Env Address) (values : SdkVec I128) (s : NaiveAdmin.Ledger) :
    (NaiveAdmin.dispatch env (.setConfig values)).reads s = ∅ ∧
      (NaiveAdmin.dispatch env (.setConfig values)).writes s = (settingsOf values).toFinset := by
  obtain ⟨hr, hw⟩ := touched_forM values.toList.zipIdx s
  change (NaiveAdmin.setConfig values >>= fun _ => pure _).reads s = ∅ ∧
    (NaiveAdmin.setConfig values >>= fun _ => pure _).writes s = _
  rw [Host.reads_bind, Host.writes_bind]
  simp only [NaiveAdmin.setConfig, hr, hw, Finset.empty_union]
  constructor <;> split <;> simp [settingsOf]

/-- The footprints that `set_config` documents are exact: on every ledger a call
reads nothing, and writes as many keys of `NaiveAdmin` as there are settings
and one key of `BatchedAdmin`. -/
structure Width (env : Env Address) (values : SdkVec I128) (config : BatchedAdmin.Config)
    (s : NaiveAdmin.Ledger) (t : BatchedAdmin.Ledger) : Prop where
  naive : touched (NaiveAdmin.dispatch env (.setConfig values)) s =
    NaiveAdmin.footprint (.setConfig values)
  naive_card : ((NaiveAdmin.dispatch env (.setConfig values)).writes s).card = values.length
  batched : touched (BatchedAdmin.dispatch env (.setConfig config)) t =
    BatchedAdmin.footprint (.setConfig config)
  batched_card : ((BatchedAdmin.dispatch env (.setConfig config)).writes t).card = 1

theorem mem_settingsOf {values : SdkVec I128} {k : NaiveAdmin.DataKey} :
    k ∈ settingsOf values ↔ ∃ i : UInt32, i.toNat < values.length ∧ k = .setting i := by
  rw [settingsOf, List.mem_map]
  constructor
  · rintro ⟨x, hx, rfl⟩
    obtain ⟨hi, hlt⟩ := NaiveAdmin.toNat_index hx
    exact ⟨_, by rwa [hi], rfl⟩
  · rintro ⟨i, hi, rfl⟩
    refine ⟨(values.toList[i.toNat], i.toNat), ?_, by rw [UInt32.ofNat_toNat]⟩
    exact List.mk_mem_zipIdx_iff_getElem?.mpr (List.getElem?_eq_getElem hi)

theorem width (env : Env Address) (values : SdkVec I128) (config : BatchedAdmin.Config)
    (s : NaiveAdmin.Ledger) (t : BatchedAdmin.Ledger) : Width env values config s t where
  naive := by
    obtain ⟨hr, hw⟩ := touched_setConfig env values s
    rw [touched, hr, hw, NaiveAdmin.footprint, Finset.coe_empty]
    congr 1
    ext k
    rw [Finset.mem_coe, List.mem_toFinset, mem_settingsOf]
    rfl
  naive_card := by
    rw [(touched_setConfig env values s).2, List.toFinset_card_of_nodup (nodup_settingsOf values),
      settingsOf, List.length_map, List.length_zipIdx]
    rfl
  batched := by
    have hr : (BatchedAdmin.dispatch env (.setConfig config)).reads t = ∅ := rfl
    have hw : (BatchedAdmin.dispatch env (.setConfig config)).writes t = {.config} := rfl
    rw [touched, hr, hw, BatchedAdmin.footprint, Finset.coe_empty, Finset.coe_singleton]
  batched_card := rfl

-- ---------------------------------------------------------------------------
-- What is read back
-- ---------------------------------------------------------------------------

def given (i : Invocation Address BatchedAdmin.Call) : Option BatchedAdmin.Config :=
  match i.call with
  | .setConfig config => some config
  | .getConfig | .feeBps => none

/-- The last configuration given, else the one the ledger held. -/
def current (s : BatchedAdmin.Ledger) (cs : List (Invocation Address BatchedAdmin.Call)) :
    BatchedAdmin.Config :=
  ((cs.filterMap given).getLast?.or (s.lookup .config)).getD .default

/-- After any run every reader finds the current configuration as a whole. -/
structure Whole (s : BatchedAdmin.Ledger) (cs : List (Invocation Address BatchedAdmin.Call)) :
    Prop where
  getConfig : ∀ env : Env Address, BatchedAdmin.step (final BatchedAdmin.step s cs)
    ⟨env, .getConfig⟩ = (.ok (.config (current s cs)), final BatchedAdmin.step s cs)
  feeBps : ∀ env : Env Address, BatchedAdmin.step (final BatchedAdmin.step s cs)
    ⟨env, .feeBps⟩ = (.ok (.feeBps (current s cs).feeBps), final BatchedAdmin.step s cs)

theorem lookup_run (s : BatchedAdmin.Ledger) (cs : List (Invocation Address BatchedAdmin.Call)) :
    (final BatchedAdmin.step s cs).lookup .config =
      (cs.filterMap given).getLast?.or (s.lookup .config) := by
  induction cs using List.reverseRecOn with
  | nil => rfl
  | append_singleton cs c ih =>
    obtain ⟨env, call⟩ := c
    rw [Run.final_snoc, Run.filterMap_snoc]
    cases call with
    | setConfig config =>
      change (Finmap.insert .config config (final BatchedAdmin.step s cs)).lookup .config = _
      rw [Finmap.lookup_insert]
      simp [given]
    | getConfig =>
      change (final BatchedAdmin.step s cs).lookup .config = _
      simpa [given] using ih
    | feeBps =>
      change (final BatchedAdmin.step s cs).lookup .config = _
      simpa [given] using ih

theorem whole (s : BatchedAdmin.Ledger) (cs : List (Invocation Address BatchedAdmin.Call)) :
    Whole s cs := by
  have hg (env : Env Address) (t : BatchedAdmin.Ledger) : BatchedAdmin.step t ⟨env, .getConfig⟩ =
      (.ok (.config ((t.lookup .config).getD .default)), t) := rfl
  have hf (env : Env Address) (t : BatchedAdmin.Ledger) : BatchedAdmin.step t ⟨env, .feeBps⟩ =
      (.ok (.feeBps ((t.lookup .config).getD .default).feeBps), t) := rfl
  constructor
  · intro env
    rw [hg, lookup_run]
    rfl
  · intro env
    rw [hf, lookup_run]
    rfl

theorem configurations :
    (∀ (env : Env Address) values config s t, Width env values config s t) ∧
      ∀ s (cs : List (Invocation Address BatchedAdmin.Call)), Whole s cs :=
  ⟨width, whole⟩

end Admin
