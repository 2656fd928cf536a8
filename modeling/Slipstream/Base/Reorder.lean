import Slipstream.Base.Run
import Mathlib.Data.List.FinRange
import Mathlib.Data.Fintype.EquivFin

/-!
# Reordering a run

Two calls commute when swapping them changes neither answer nor the state
they lead to. A permutation of a run that keeps the order of every pair that
conflicts, where calls that do not conflict commute, gives every call the
same answer and ends in the same state.

The proof works on lists of labels, so that equal calls at different places
of a run stay apart.
-/

namespace Run

variable {S C O ι : Type*} (step : S → C → O × S)

def Commute (c d : C) : Prop :=
  ∀ s, (step s c).1 = (step (step s d).2 c).1 ∧ (step s d).1 = (step (step s c).2 d).1 ∧
    (step (step s c).2 d).2 = (step (step s d).2 c).2

def answers (call : ι → C) (s : S) (l : List ι) : List (ι × O) :=
  l.zip (outputs step s (l.map call))

@[simp] theorem answers_cons (call : ι → C) (s : S) (x : ι) (l : List ι) :
    answers step call s (x :: l) =
      (x, (step s (call x)).1) :: answers step call (step s (call x)).2 l := rfl

variable {step} {call : ι → C}

theorem answers_append (s : S) (l m : List ι) : answers step call s (l ++ m) =
    answers step call s l ++ answers step call (final step s (l.map call)) m := by
  induction l generalizing s with
  | nil => rfl
  | cons x l ih => exact congrArg (_ :: ·) (ih _)

/-- A call that commutes with all calls before it may be made first. -/
theorem move_to_front {x : ι} {l r : List ι} (s : S)
    (hc : ∀ a ∈ l, Commute step (call a) (call x)) :
    final step s ((l ++ x :: r).map call) = final step s ((x :: (l ++ r)).map call) ∧
      (answers step call s (l ++ x :: r)).Perm (answers step call s (x :: (l ++ r))) := by
  induction l generalizing s with
  | nil => exact ⟨rfl, .refl _⟩
  | cons a l ih =>
    obtain ⟨hx, ha, hs⟩ := hc a List.mem_cons_self s
    obtain ⟨hf, hp⟩ := ih (step s (call a)).2 fun b hb => hc b (List.mem_cons_of_mem _ hb)
    constructor
    · simpa [hs] using hf
    · refine (hp.cons (a, (step s (call a)).1)).trans ?_
      simp only [List.cons_append, answers_cons, ← ha, hs, ← hx]
      exact .swap ..

theorem mem_answers {s : S} {l : List ι} {x : ι} {o : O} :
    (x, o) ∈ answers step call s l ↔
      ∃ k : Nat, l[k]? = some x ∧ (outputs step s (l.map call))[k]? = some o := by
  simp only [answers, List.mem_iff_getElem?, List.getElem?_zip_eq_some]

variable {conflict : C → C → Prop}

/-- The induction is on the ordered list: its first label is made first in
the other list too, past calls it does not conflict with. -/
theorem reorder_of {r : ι → ι → Prop} (hr : ∀ a b, r a b → ¬ r b a)
    (hcomm : ∀ c d, ¬ conflict c d → Commute step c d) {xs ys : List ι} (s : S)
    (hx : xs.Pairwise r) (hp : ys.Perm xs)
    (ho : ys.Pairwise fun a b => conflict (call a) (call b) → r a b) :
    final step s (ys.map call) = final step s (xs.map call) ∧
      (answers step call s ys).Perm (answers step call s xs) := by
  induction xs generalizing s ys with
  | nil => rw [hp.eq_nil]; exact ⟨rfl, .refl _⟩
  | cons x xs ih =>
    obtain ⟨l, m, rfl⟩ := List.append_of_mem (hp.mem_iff.mpr List.mem_cons_self)
    have hrest : (l ++ m).Perm xs := (List.perm_middle.symm.trans hp).cons_inv
    have hlt : ∀ a ∈ l ++ m, r x a := fun a ha =>
      (List.pairwise_cons.mp hx).1 a (hrest.mem_iff.mp ha)
    have hfree : ∀ a ∈ l, Commute step (call a) (call x) := by
      intro a ha
      refine hcomm _ _ fun hc => ?_
      have hax : r a x := (List.pairwise_append.mp ho).2.2 a ha x List.mem_cons_self hc
      exact absurd hax (hr x a (hlt a (List.mem_append_left _ ha)))
    have hord : (l ++ m).Pairwise fun a b => conflict (call a) (call b) → r a b :=
      ho.sublist ((List.sublist_cons_self x m).append_left l)
    obtain ⟨hf, ha⟩ := move_to_front (r := m) s hfree
    obtain ⟨hf', ha'⟩ := ih (step s (call x)).2 (List.pairwise_cons.mp hx).2 hrest hord
    exact ⟨hf.trans hf', ha.trans (ha'.cons _)⟩

theorem reorder [LinearOrder ι] (hcomm : ∀ c d, ¬ conflict c d → Commute step c d)
    {xs ys : List ι} (s : S) (hx : xs.Pairwise (· < ·)) (hp : ys.Perm xs)
    (ho : ys.Pairwise fun a b => conflict (call a) (call b) → a < b) :
    final step s (ys.map call) = final step s (xs.map call) ∧
      (answers step call s ys).Perm (answers step call s xs) :=
  reorder_of (fun _ _ => lt_asymm) hcomm s hx hp ho

/-- Every run of `n` calls from any state may be permuted along its conflicts:
where call `π k` moves to place `k`, the state reached and every call's answer
are the same. -/
def Reorderable (step : S → C → O × S) (conflict : C → C → Prop) : Prop :=
  ∀ (s : S) (n : Nat) (call : Fin n → C) (π : Equiv.Perm (Fin n)),
    (∀ k l, k < l → conflict (call (π k)) (call (π l)) → π k < π l) →
      final step s (List.ofFn (call ∘ π)) = final step s (List.ofFn call) ∧
        ∀ k : Fin n, (outputs step s (List.ofFn (call ∘ π)))[k]? =
          (outputs step s (List.ofFn call))[π k]?

theorem reorderable_of_commute (hcomm : ∀ c d, ¬ conflict c d → Commute step c d) :
    Reorderable step conflict := by
  intro s n call π ho
  have hperm : ((List.finRange n).map π).Perm (List.finRange n) :=
    (List.perm_ext_iff_of_nodup ((List.nodup_finRange n).map π.injective)
      (List.nodup_finRange n)).mpr fun i => by simpa using π.surjective i
  have hord : ((List.finRange n).map π).Pairwise
      fun a b => conflict (call a) (call b) → a < b :=
    List.pairwise_map.mpr ((List.pairwise_lt_finRange n).imp (ho _ _))
  have hcalls : ((List.finRange n).map π).map call = List.ofFn (call ∘ π) := by
    rw [List.map_map, ← List.ofFn_eq_map]
  obtain ⟨hf, ha⟩ := reorder hcomm s (List.pairwise_lt_finRange n) hperm hord
  rw [hcalls, ← List.ofFn_eq_map] at hf
  refine ⟨hf, fun k => ?_⟩
  have hk : (k : Nat) < (outputs step s (List.ofFn (call ∘ π))).length := by simp
  have hm : (π k, (outputs step s (List.ofFn (call ∘ π)))[k]) ∈
      answers step call s ((List.finRange n).map π) :=
    mem_answers.mpr ⟨k, by simp, by rw [hcalls]; exact List.getElem?_eq_getElem hk⟩
  obtain ⟨j, hj, hout⟩ := mem_answers.mp (ha.mem_iff.mp hm)
  have hjk : j = π k := by
    obtain ⟨_, hj⟩ := List.getElem?_eq_some_iff.mp hj
    simpa using congrArg Fin.val hj
  rw [hjk, ← List.ofFn_eq_map] at hout
  exact (List.getElem?_eq_getElem hk).trans hout.symm

end Run
