import Slipstream.Base.Run
import Mathlib.Data.List.TakeWhile

/-!
# Times cut into leases

A lease opens at a time and spans the times before its end; the first time
after it opens the next one. A machine that starts afresh with every lease
answers lease by lease.
-/

namespace Lease

/-- The leases of a sequence of times, each as the times that fall into it. -/
def cut (span : Nat) : List Nat → List (List Nat)
  | [] => []
  | u :: us =>
    (u :: us.takeWhile (· < u + span)) :: cut span (us.dropWhile (· < u + span))
termination_by us => us.length
decreasing_by exact Nat.lt_succ_of_le (List.length_dropWhile_le _ us)

/-- How many times a lease has, while it spans `now`. -/
def counted (span now : Nat) : List Nat → Nat
  | [] => 0
  | u :: us => if now < u + span then us.length + 1 else 0

/-- The times of the last lease, while it spans `now`. -/
def ongoing (span now : Nat) (us : List Nat) : Nat :=
  ((cut span us).getLast?.map (counted span now)).getD 0

variable {span : Nat}

@[simp] theorem cut_nil : cut span [] = [] := by rw [cut]

theorem cut_cons (u : Nat) (us : List Nat) : cut span (u :: us) =
    (u :: us.takeWhile (· < u + span)) :: cut span (us.dropWhile (· < u + span)) := by rw [cut]

theorem flatten_cut (us : List Nat) : (cut span us).flatten = us := by
  induction us using cut.induct span with
  | case1 => simp
  | case2 u us ih =>
    rw [cut_cons, List.flatten_cons, ih, List.cons_append, List.takeWhile_append_dropWhile]

theorem le_of_mem_head? {u w : Nat} {us : List Nat}
    (hw : w ∈ (us.dropWhile (· < u + span)).head?) : u + span ≤ w := by
  have hnot := List.head?_dropWhile_not (fun w => decide (w < u + span)) us
  rw [Option.mem_def.mp hw] at hnot
  simpa using hnot

theorem cut_ne_nil {us : List Nat} (h : us ≠ []) : cut span us ≠ [] := by
  obtain ⟨u, us, rfl⟩ := List.exists_cons_of_ne_nil h
  rw [cut_cons]
  exact List.cons_ne_nil _ _

section
variable {S O : Type*} {step : S → Nat → O × S}

/-- `Idle u` says that no lease reaches the time `u`. Where a lease opened on an
idle state answers `answer` and leaves what `Left` says, a whole run does so
lease by lease. -/
theorem run_cut (Idle : Nat → S → Prop) (answer : List Nat → List O) (Left : List Nat → S → Prop)
    (hopen : ∀ s u us, Idle u s → (∀ w ∈ us, w < u + span) →
      Run.outputs step s (u :: us) = answer (u :: us) ∧ Left (u :: us) (Run.final step s (u :: us)))
    (hidle : ∀ s u us w, Left (u :: us) s → u + span ≤ w → Idle w s)
    {s : S} {us : List Nat} (hs : ∀ u ∈ us.head?, Idle u s) :
    Run.outputs step s us = (cut span us).flatMap answer ∧
      ∀ lease ∈ (cut span us).getLast?, Left lease (Run.final step s us) := by
  induction us using cut.induct span generalizing s with
  | case1 => simp
  | case2 u us ih =>
    obtain ⟨ho, hl⟩ := hopen s u (us.takeWhile (· < u + span)) (hs u rfl) fun w hw => by
      simpa using List.mem_takeWhile_imp hw
    have hsplit : u :: us = (u :: us.takeWhile (· < u + span)) ++ us.dropWhile (· < u + span) := by
      rw [List.cons_append, List.takeWhile_append_dropWhile]
    have hnext : ∀ w ∈ (us.dropWhile (· < u + span)).head?,
        Idle w (Run.final step s (u :: us.takeWhile (· < u + span))) := by
      intro w hw
      exact hidle _ u _ w hl (le_of_mem_head? hw)
    obtain ⟨ho', hl'⟩ := ih hnext
    rw [cut_cons, List.flatMap_cons, ← ho, ← ho']
    constructor
    · nth_rewrite 1 [hsplit]
      exact Run.outputs_append ..
    · rw [hsplit, Run.final_append]
      intro lease hlease
      rw [List.getLast?_cons] at hlease
      cases hc : (cut span (us.dropWhile (· < u + span))).getLast? with
      | none =>
        have hrest : us.dropWhile (· < u + span) = [] := by
          by_contra hne
          exact cut_ne_nil hne (List.getLast?_eq_none_iff.mp hc)
        rw [hc] at hlease
        cases hlease
        rw [hrest]
        exact hl
      | some last =>
        rw [hc] at hlease
        cases hlease
        exact hl' last hc

end

end Lease
