import Slipstream.Base.Tape
import Slipstream.Host.Footprint

/-!
# An event log with one tail

`NaiveEventLog` appends every message at one shared tail.
-/

namespace NaiveEventLog

open Host (Env Fault Footprint Invocation checked getOr)
open Run (final)

variable {Address Msg : Type}

inductive DataKey
  | tail
  | entry (index : U64)
  deriving DecidableEq

abbrev Value (Msg : Type) : DataKey → Type
  | .tail => U64
  | .entry _ => Msg

abbrev Ledger (Msg : Type) := Host.Store (Value Msg)

abbrev Program (Msg α : Type) := Host.Prog (Value Msg) Empty α

def append (msg : Msg) : Program Msg U64 := do
  let tail : U64 ← getOr DataKey.tail 0
  Host.set (DataKey.entry tail) msg
  let next ← checked (tail.add? 1)
  Host.set DataKey.tail next
  return tail

def entryCount : Program Msg U64 := getOr DataKey.tail 0

def get (index : U64) : Program Msg (Option Msg) := Host.get (DataKey.entry index)

inductive Call (Msg : Type)
  | append (msg : Msg)
  | entryCount
  | get (index : U64)

inductive Reply (Msg : Type)
  | number (value : U64)
  | entry (msg : Option Msg)
  deriving DecidableEq, Repr

def dispatch (_ : Env Address) : Call Msg → Program Msg (Reply Msg)
  | .append msg => do return .number (← append msg)
  | .entryCount => do return .number (← entryCount)
  | .get index => do return .entry (← get index)

abbrev step (s : Ledger Msg) (i : Invocation Address (Call Msg)) :
    Except (Fault Empty) (Reply Msg) × Ledger Msg := Host.step dispatch s i

-- ---------------------------------------------------------------------------
-- Footprints
-- ---------------------------------------------------------------------------

/-- An append is documented to write `{ Tail, Entry(tail) }`. The tail is known
only at run time, so an append covers every entry. -/
def footprint : Call Msg → Footprint DataKey
  | .append _ => { reads := ∅, writes := {k | k = .tail ∨ ∃ index, k = .entry index} }
  | .entryCount => { reads := {.tail}, writes := ∅ }
  | .get index => { reads := {.entry index}, writes := ∅ }

theorem covers (env : Env Address) (c : Call Msg) : (footprint c).Covers (dispatch env c) := by
  cases c with
  | append msg =>
    have ht : .tail ∈ (footprint (.append msg)).writes := .inl rfl
    have he (index : U64) : .entry index ∈ (footprint (.append msg)).writes := .inr ⟨index, rfl⟩
    refine Host.covers_bind ?_ fun _ => Host.covers_pure _
    refine Host.covers_bind (Host.covers_getOr (.inr ht) _) fun tail => ?_
    refine Host.covers_bind (Host.covers_set (he tail) _) fun _ => ?_
    refine Host.covers_bind (Host.covers_checked _) fun _ => ?_
    exact Host.covers_bind (Host.covers_set ht _) fun _ => Host.covers_pure _
  | entryCount =>
    exact Host.covers_bind (Host.covers_getOr (.inl rfl) _) fun _ => Host.covers_pure _
  | get index => exact Host.covers_bind (Host.covers_get (.inl rfl)) fun _ => Host.covers_pure _

-- ---------------------------------------------------------------------------
-- The ledger as a list
-- ---------------------------------------------------------------------------

def tailOf (s : Ledger Msg) : U64 := Host.valueAt s .tail 0

def entryOf (s : Ledger Msg) (index : U64) : Option Msg := s.lookup (.entry index)

/-- The ledger holds exactly these messages, in this order. -/
def Holds (s : Ledger Msg) (l : List Msg) : Prop := Tape.Holds (tailOf s) (entryOf s) l

variable {s s' : Ledger Msg} {l : List Msg}

theorem step_entryCount (env : Env Address) :
    step s ⟨env, .entryCount⟩ = (.ok (.number (tailOf s)), s) := rfl

theorem step_get (env : Env Address) (index : U64) :
    step s ⟨env, .get index⟩ = (.ok (.entry (entryOf s index)), s) := rfl

theorem holds_empty : Holds (∅ : Ledger Msg) [] := by
  refine Tape.holds_nil fun i => ?_
  simp [entryOf]

theorem append_ok {msg : Msg} {r : U64} :
    (append msg).run s = .ok (r, s') ↔ r = tailOf s ∧ ∃ next : U64,
      next.val = r.val + 1 ∧ s' = (s.insert (.entry r) msg).insert .tail next := by
  simp only [append, Host.bind_ok, Host.getOr_ok, Host.checked_ok, Host.set_ok,
    Ranged.add?_eq_some, Host.run_pure]
  constructor
  · rintro ⟨_, _, ⟨rfl, rfl⟩, _, _, rfl, next, _, ⟨hn, rfl⟩, _, _, rfl, hr⟩
    cases hr
    exact ⟨rfl, next, hn, rfl⟩
  · rintro ⟨rfl, next, hn, rfl⟩
    exact ⟨_, s, ⟨rfl, rfl⟩, (), _, rfl, next, _, ⟨hn, rfl⟩, (), _, rfl, rfl⟩

theorem Holds.append (h : Holds s l) {next : U64} (hn : next.val = (tailOf s).val + 1)
    (msg : Msg) : Holds ((s.insert (.entry (tailOf s)) msg).insert .tail next) (l ++ [msg]) := by
  have ht : tailOf ((s.insert (.entry (tailOf s)) msg).insert .tail next) = next := by
    simp [tailOf]
  have he : entryOf ((s.insert (.entry (tailOf s)) msg).insert .tail next) =
      Function.update (entryOf s) (tailOf s) (some msg) := by
    refine Eq.trans ?_ (Host.lookup_insert_update (fun _ _ => DataKey.entry.inj) s _ msg)
    funext i
    exact Finmap.lookup_insert_of_ne _ DataKey.noConfusion
  rw [Holds, ht, he]
  exact Tape.Holds.append h hn msg

theorem step_append (h : Holds s l) (hl : l.length + 1 < 2 ^ 64) (env : Env Address) (msg : Msg) :
    (step s ⟨env, .append msg⟩).1 = .ok (.number (tailOf s)) ∧
      Holds (step s ⟨env, .append msg⟩).2 (l ++ [msg]) := by
  have ht := h.tail
  obtain ⟨next, hn⟩ := Ranged.exists_succ.mpr (by omega : (tailOf s).val + 1 ≤ 2 ^ 64 - 1)
  have hd : (dispatch env (.append msg)).run s = .ok (.number (tailOf s), _) :=
    Host.bind_ok.mpr ⟨tailOf s, _, append_ok.mpr ⟨rfl, next, hn, rfl⟩, rfl⟩
  rw [step, Host.step, Host.invoke_of_ok hd]
  exact ⟨rfl, h.append hn msg⟩

/-- Every append writes the entry at the tail, at a full tail too. -/
theorem entry_mem_writes_append (s : Ledger Msg) (env : Env Address) (msg : Msg) :
    .entry (tailOf s) ∈ (dispatch env (.append msg)).writes s := by
  simp [dispatch, append, tailOf]

def appended (i : Invocation Address (Call Msg)) : Option Msg :=
  match i.call with
  | .append msg => some msg
  | _ => none

theorem holds_step (h : Holds s l) (i : Invocation Address (Call Msg))
    (hl : (l ++ (appended i).toList).length < 2 ^ 64) :
    Holds (step s i).2 (l ++ (appended i).toList) := by
  obtain ⟨env, call⟩ := i
  cases call with
  | append msg => exact (step_append h (by simpa [appended] using hl) env msg).2
  | entryCount => simpa [appended, step_entryCount] using h
  | get index => simpa [appended, step_get] using h

theorem holds_run (cs : List (Invocation Address (Call Msg)))
    (hl : (cs.filterMap appended).length < 2 ^ 64) :
    Holds (final step ∅ cs) (cs.filterMap appended) := by
  refine Run.prefix_induct (B := fun cs => (cs.filterMap appended).length < 2 ^ 64)
    (P := fun cs => Holds (final step ∅ cs) (cs.filterMap appended))
    (fun cs i => Run.length_filterMap_lt_of_snoc) holds_empty (fun cs i hb h => ?_) cs hl
  rw [Run.filterMap_snoc] at hb ⊢
  rw [Run.final_snoc]
  exact holds_step h i hb

end NaiveEventLog
