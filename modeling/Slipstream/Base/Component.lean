import Slipstream.Base.Run

/-!
# A component of a machine

`view` shows a part of the state of a machine, and `call` tells which calls of
the machine reach that part, and as which calls of a smaller machine. Where
every call does to the part what the smaller machine does, or leaves it alone,
a run does to it what the smaller machine does on the calls that reach it.
-/

namespace Run

variable {S T C D O N : Type*}

/-- What a run hands out: what `out` finds in its calls and answers. -/
def handed (step : S → C → O × S) (out : C × O → Option N) (s : S) (cs : List C) : List N :=
  (cs.zip (outputs step s cs)).filterMap out

def reaching (step : S → C → O × S) (call : S → C → Option D) (s : S) : List C → List D
  | [] => []
  | c :: cs => (call s c).toList ++ reaching step call (step s c).2 cs

/-- A call that reaches the component does there what `sub` does, and any other
hands out nothing and leaves it alone. -/
structure Component (step : S → C → O × S) (sub : T → D → Option N × T) (view : S → T)
    (call : S → C → Option D) (out : C × O → Option N) : Prop where
  reached : ∀ s c d, call s c = some d →
    out (c, (step s c).1) = (sub (view s) d).1 ∧ view (step s c).2 = (sub (view s) d).2
  missed : ∀ s c, call s c = none → out (c, (step s c).1) = none ∧ view (step s c).2 = view s

variable {step : S → C → O × S} {sub : T → D → Option N × T} {view : S → T}
  {call : S → C → Option D} {out : C × O → Option N}

theorem handed_cons (s : S) (c : C) (cs : List C) : handed step out s (c :: cs) =
    (out (c, (step s c).1)).toList ++ handed step out (step s c).2 cs := by
  rw [handed, outputs_cons, List.zip_cons_cons, List.filterMap_cons]
  cases out (c, (step s c).1) <;> rfl

theorem reaching_filterMap (f : C → Option D) (s : S) (cs : List C) :
    reaching step (fun _ => f) s cs = cs.filterMap f := by
  induction cs generalizing s with
  | nil => rfl
  | cons c cs ih =>
    rw [reaching, ih, List.filterMap_cons]
    cases f c <;> rfl

theorem Component.run (h : Component step sub view call out) (s : S) (cs : List C) :
    handed step out s cs =
        (outputs sub (view s) (reaching step call s cs)).filterMap id ∧
      view (final step s cs) = final sub (view s) (reaching step call s cs) := by
  induction cs generalizing s with
  | nil => exact ⟨rfl, rfl⟩
  | cons c cs ih =>
    obtain ⟨hh, hf⟩ := ih (step s c).2
    rw [handed_cons, final_cons, reaching, hh, hf]
    cases hc : call s c with
    | none =>
      obtain ⟨ho, hv⟩ := h.missed s c hc
      rw [ho, hv]
      exact ⟨rfl, rfl⟩
    | some d =>
      obtain ⟨ho, hv⟩ := h.reached s c d hc
      rw [ho, hv, Option.toList_some, List.singleton_append, outputs_cons, final_cons,
        List.filterMap_cons]
      refine ⟨?_, rfl⟩
      cases (sub (view s) d).1 <;> rfl

/-- A view that some calls change as a smaller machine changes it, and the others
leave alone. -/
theorem final_filterMap {A : Type*} {sub : T → D → A × T} {f : C → Option D} (view : S → T)
    (h : ∀ s c, view (step s c).2 = (f c).elim (view s) fun d => (sub (view s) d).2)
    (s : S) (cs : List C) :
    view (final step s cs) = final sub (view s) (cs.filterMap f) := by
  induction cs generalizing s with
  | nil => rfl
  | cons c cs ih =>
    have hc := h s c
    rw [final_cons, ih, hc, List.filterMap_cons]
    cases f c <;> rfl

end Run
