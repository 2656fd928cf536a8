import Mathlib.Data.List.Induction
import Mathlib.Algebra.Group.Defs

/-!
# Runs of a deterministic machine

A machine answers each call with an output and a next state. `final` and
`outputs` are the state and the answers after a list of calls. Three rules
carry a fact about one step to every run: `final_induct` for a property of
the state, `prefix_induct` for a property of the calls made so far, and
`Simulates` for two machines that answer alike.
-/

namespace Run

variable {S T C O : Type*}

def final (step : S → C → O × S) (s : S) : List C → S
  | [] => s
  | c :: cs => final step (step s c).2 cs

def outputs (step : S → C → O × S) (s : S) : List C → List O
  | [] => []
  | c :: cs => (step s c).1 :: outputs step (step s c).2 cs

variable (step : S → C → O × S)

@[simp] theorem final_nil (s : S) : final step s [] = s := rfl

@[simp] theorem final_cons (s : S) (c : C) (cs : List C) :
    final step s (c :: cs) = final step (step s c).2 cs := rfl

@[simp] theorem outputs_nil (s : S) : outputs step s [] = [] := rfl

@[simp] theorem outputs_cons (s : S) (c : C) (cs : List C) :
    outputs step s (c :: cs) = (step s c).1 :: outputs step (step s c).2 cs := rfl

theorem final_append (s : S) (cs ds : List C) :
    final step s (cs ++ ds) = final step (final step s cs) ds := by
  induction cs generalizing s with
  | nil => rfl
  | cons c cs ih => exact ih _

@[simp] theorem final_snoc (s : S) (cs : List C) (c : C) :
    final step s (cs ++ [c]) = (step (final step s cs) c).2 := by
  rw [final_append, final_cons, final_nil]

theorem outputs_snoc (s : S) (cs : List C) (c : C) :
    outputs step s (cs ++ [c]) = outputs step s cs ++ [(step (final step s cs) c).1] := by
  induction cs generalizing s with
  | nil => rfl
  | cons d cs ih => exact congrArg ((step s d).1 :: ·) (ih _)

theorem outputs_append (s : S) (cs ds : List C) :
    outputs step s (cs ++ ds) = outputs step s cs ++ outputs step (final step s cs) ds := by
  induction cs generalizing s with
  | nil => rfl
  | cons c cs ih => exact congrArg ((step s c).1 :: ·) (ih _)

@[simp] theorem length_outputs (s : S) (cs : List C) :
    (outputs step s cs).length = cs.length := by
  induction cs generalizing s with
  | nil => rfl
  | cons c cs ih => simp [ih]

variable {step}

theorem final_induct {P : S → Prop} (hs : ∀ s c, P s → P (step s c).2) {s : S} (h : P s)
    (cs : List C) : P (final step s cs) := by
  induction cs generalizing s with
  | nil => exact h
  | cons c cs ih => exact ih (hs s c h)

/-- Induction from the last call, for runs whose prefixes stay within a bound
that the run itself stays within. -/
theorem prefix_induct {B P : List C → Prop} (hB : ∀ cs c, B (cs ++ [c]) → B cs) (h0 : P [])
    (hs : ∀ cs c, B (cs ++ [c]) → P cs → P (cs ++ [c])) (cs : List C) (hb : B cs) : P cs := by
  induction cs using List.reverseRecOn with
  | nil => exact h0
  | append_singleton cs c ih => exact hs cs c hb (ih (hB cs c hb))

/-- `P` holds of every call the run makes, in the state it is made in. -/
def EachStep (step : S → C → O × S) (s : S) (cs : List C) (P : S → C → Prop) : Prop :=
  ∀ pre c post, cs = pre ++ c :: post → P (final step s pre) c

/-- `P` holds of every state the run goes through, first and last included. -/
def EachState (step : S → C → O × S) (s : S) (cs : List C) (P : S → Prop) : Prop :=
  ∀ pre, pre <+: cs → P (final step s pre)

theorem eachStep_nil {P : S → C → Prop} {s : S} : EachStep step s [] P := by
  intro pre c post h
  simp at h

theorem eachStep_cons {P : S → C → Prop} {s : S} {c : C} {cs : List C} :
    EachStep step s (c :: cs) P ↔ P s c ∧ EachStep step (step s c).2 cs P := by
  constructor
  · intro h
    exact ⟨h [] c cs rfl, fun pre d post he => h (c :: pre) d post (congrArg (c :: ·) he)⟩
  · rintro ⟨hc, h⟩ pre d post he
    cases pre with
    | nil =>
      cases he
      exact hc
    | cons x pre =>
      cases he
      exact h pre d post rfl

theorem eachStep_congr {P Q : S → C → Prop} {s : S} {cs : List C} (h : ∀ s c, P s c ↔ Q s c) :
    EachStep step s cs P ↔ EachStep step s cs Q := by
  simp only [EachStep, h]

theorem eachState_nil {P : S → Prop} {s : S} : EachState step s [] P ↔ P s := by
  simp [EachState]

theorem eachState_cons {P : S → Prop} {s : S} {c : C} {cs : List C} :
    EachState step s (c :: cs) P ↔ P s ∧ EachState step (step s c).2 cs P := by
  simp only [EachState, List.prefix_cons_iff]
  constructor
  · intro h
    exact ⟨h [] (.inl rfl), fun pre hp => h (c :: pre) (.inr ⟨pre, rfl, hp⟩)⟩
  · rintro ⟨hs, h⟩ pre (rfl | ⟨pre, rfl, hp⟩)
    · exact hs
    · exact h pre hp

/-- Where `Q` tells exactly which calls keep `P`, a run keeps `P` throughout
exactly when all its calls meet `Q`. -/
theorem eachState_iff_eachStep {P : S → Prop} {Q : S → C → Prop}
    (h : ∀ s c, P s → (P (step s c).2 ↔ Q s c)) {s : S} (hs : P s) (cs : List C) :
    EachState step s cs P ↔ EachStep step s cs Q := by
  induction cs generalizing s with
  | nil => simp [eachState_nil, eachStep_nil, hs]
  | cons c cs ih =>
    rw [eachState_cons, eachStep_cons]
    constructor
    · rintro ⟨_, hr⟩
      have hn : P (step s c).2 := hr [] List.nil_prefix
      exact ⟨(h s c hs).mp hn, (ih hn).mp hr⟩
    · rintro ⟨hq, hr⟩
      exact ⟨hs, (ih ((h s c hs).mpr hq)).mpr hr⟩

section
variable {M : Type*} [AddMonoid M]

/-- The sum over a run of what each call counts for, given the state it was
made in, its answer and the state after it. -/
def tally (step : S → C → O × S) (f : S → C → O × S → M) (s : S) : List C → M
  | [] => 0
  | c :: cs => f s c (step s c) + tally step f (step s c).2 cs

@[simp] theorem tally_nil (f : S → C → O × S → M) (s : S) : tally step f s [] = 0 := rfl

@[simp] theorem tally_cons (f : S → C → O × S → M) (s : S) (c : C) (cs : List C) :
    tally step f s (c :: cs) = f s c (step s c) + tally step f (step s c).2 cs := rfl

theorem tally_snoc (f : S → C → O × S → M) (s : S) (cs : List C) (c : C) :
    tally step f s (cs ++ [c]) =
      tally step f s cs + f (final step s cs) c (step (final step s cs) c) := by
  induction cs generalizing s with
  | nil => simp
  | cons d cs ih => simp [ih, add_assoc]

end

theorem filterMap_snoc {D : Type*} (f : C → Option D) (cs : List C) (c : C) :
    (cs ++ [c]).filterMap f = cs.filterMap f ++ (f c).toList := by
  cases h : f c <;> simp [h]

theorem length_filterMap_lt_of_snoc {D : Type*} {f : C → Option D} {cs : List C} {c : C} {n : Nat}
    (h : ((cs ++ [c]).filterMap f).length < n) : (cs.filterMap f).length < n := by
  rw [filterMap_snoc, List.length_append] at h
  exact Nat.lt_of_le_of_lt (Nat.le_add_right ..) h

/-- Related states answer every call alike and stay related. -/
def Simulates (R : S → T → Prop) (step : S → C → O × S) (step' : T → C → O × T) : Prop :=
  ∀ s t c, R s t → (step s c).1 = (step' t c).1 ∧ R (step s c).2 (step' t c).2

theorem Simulates.run {R : S → T → Prop} {step' : T → C → O × T} (h : Simulates R step step')
    {s : S} {t : T} (hr : R s t) (cs : List C) :
    outputs step s cs = outputs step' t cs ∧ R (final step s cs) (final step' t cs) := by
  induction cs generalizing s t with
  | nil => exact ⟨rfl, hr⟩
  | cons c cs ih =>
    obtain ⟨ho, hn⟩ := h s t c hr
    obtain ⟨hos, hf⟩ := ih hn
    exact ⟨by rw [outputs_cons, outputs_cons, ho, hos], hf⟩

theorem Simulates.tally {R : S → T → Prop} {step' : T → C → O × T} (h : Simulates R step step')
    {M : Type*} [AddMonoid M] (f : C → O → M) {s : S} {t : T} (hr : R s t) (cs : List C) :
    Run.tally step (fun _ c r => f c r.1) s cs = Run.tally step' (fun _ c r => f c r.1) t cs := by
  induction cs generalizing s t with
  | nil => rfl
  | cons c cs ih =>
    obtain ⟨ho, hn⟩ := h s t c hr
    rw [tally_cons, tally_cons, ho, ih hn]

end Run
