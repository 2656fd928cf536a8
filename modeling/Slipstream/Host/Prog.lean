import Slipstream.Base.Run
import Mathlib.Data.Finmap

/-!
# Contract programs on a key-value ledger

A contract function is a `Prog`: a tree of storage reads and writes over the
typed keys of the contract, ending in a value or a fault. One program has
several readings: `run` executes it on a ledger, `reads` and `writes` are the
keys it touches on the way, and another storage class gives it its own
interpreter. `invoke` is a whole host call: a fault discards every write.
-/

namespace Host

/-- Why a call returned no value: a trap of the host or of the code, or an
error value of the contract's own error type, on which the host also rolls
the call back. -/
inductive Fault (E : Type)
  | unauthorised
  | overflow
  | assertion (message : String)
  | error (e : E)
  deriving DecidableEq, Repr

/-- What a call carries besides its arguments: who has authorised it. -/
structure Env (Address : Type) where
  auth : Finset Address

structure Invocation (Address Call : Type) where
  env : Env Address
  call : Call

/-- The entries of a contract; the value type of a key depends on the key. -/
abbrev Store {K : Type} (V : K → Type) := Finmap V

inductive Prog {K : Type} (V : K → Type) (E α : Type)
  | pure (a : α)
  | fail (f : Fault E)
  | get (k : K) (next : Option (V k) → Prog V E α)
  | set (k : K) (v : V k) (next : Prog V E α)

variable {K : Type} {V : K → Type} {E α β : Type}

namespace Prog

def bind : Prog V E α → (α → Prog V E β) → Prog V E β
  | .pure a, f => f a
  | .fail e, _ => .fail e
  | .get k next, f => .get k fun v => (next v).bind f
  | .set k v next, f => .set k v (next.bind f)

instance : Monad (Prog V E) where
  pure := .pure
  bind := .bind

end Prog

-- ---------------------------------------------------------------------------
-- What a contract can ask of its host
-- ---------------------------------------------------------------------------

def get (k : K) : Prog V E (Option (V k)) := .get k .pure

/-- `get(key).unwrap_or(default)`. -/
def getOr (k : K) (default : V k) : Prog V E (V k) := do return (← get k).getD default

def set (k : K) (v : V k) : Prog V E Unit := .set k v (.pure ())

def fail (f : Fault E) : Prog V E α := .fail f

/-- A checked operation of the code: it traps where there is no result. -/
def checked : Option α → Prog V E α
  | some a => .pure a
  | none => .fail .overflow

def assert (p : Prop) [Decidable p] (message : String) : Prog V E Unit :=
  if p then .pure () else .fail (.assertion message)

def requireAuth {Address : Type} [DecidableEq Address] (env : Env Address) (who : Address) :
    Prog V E Unit :=
  if who ∈ env.auth then .pure () else .fail .unauthorised

def upTo (n : UInt32) : List UInt32 := (List.range n.toNat).map UInt32.ofNat

-- ---------------------------------------------------------------------------
-- Execution
-- ---------------------------------------------------------------------------

variable [DecidableEq K]

def Prog.run : Prog V E α → Store V → Except (Fault E) (α × Store V)
  | .pure a, s => .ok (a, s)
  | .fail f, _ => .error f
  | .get k next, s => (next (s.lookup k)).run s
  | .set k v next, s => next.run (s.insert k v)

def valueAt (s : Store V) (k : K) (default : V k) : V k := (s.lookup k).getD default

/-- What is left of a computation that started in `s`: a fault discards every
write. -/
def settle {S : Type} (r : Except (Fault E) (α × S)) (s : S) : Except (Fault E) α × S :=
  match r with
  | .ok (a, s') => (.ok a, s')
  | .error f => (.error f, s)

def invoke (p : Prog V E α) (s : Store V) : Except (Fault E) α × Store V := settle (p.run s) s

def step {Address Call : Type} (dispatch : Env Address → Call → Prog V E α)
    (s : Store V) (i : Invocation Address Call) : Except (Fault E) α × Store V :=
  invoke (dispatch i.env i.call) s

@[simp] theorem valueAt_empty (k : K) (d : V k) : valueAt (∅ : Store V) k d = d := by
  simp [valueAt]

@[simp] theorem valueAt_insert_self (s : Store V) (k : K) (v d : V k) :
    valueAt (s.insert k v) k d = v := by
  simp [valueAt]

theorem valueAt_insert_of_ne (s : Store V) {j k : K} (h : k ≠ j) (v : V j) (d : V k) :
    valueAt (s.insert j v) k d = valueAt s k d := by
  simp [valueAt, Finmap.lookup_insert_of_ne _ h]

-- Keys of one kind, read together: a write replaces one of their entries.

section
variable {ι : Type} [DecidableEq ι] {key : ι → K} (hk : Function.Injective key) (s : Store V)
  (j : ι) (v : V (key j))
include hk

theorem lookup_insert_update : (fun i => (s.insert (key j) v).lookup (key i)) =
    Function.update (fun i => s.lookup (key i)) j (some v) := by
  funext i
  by_cases h : i = j
  · subst h
    rw [Finmap.lookup_insert, Function.update_self]
  · rw [Finmap.lookup_insert_of_ne _ (hk.ne h), Function.update_of_ne h]

theorem valueAt_insert_update (d : ∀ i, V (key i)) :
    (fun i => valueAt (s.insert (key j) v) (key i) (d i)) =
      Function.update (fun i => valueAt s (key i) (d i)) j v := by
  funext i
  by_cases h : i = j
  · subst h
    rw [valueAt_insert_self, Function.update_self]
  · rw [valueAt_insert_of_ne _ (hk.ne h), Function.update_of_ne h]

end

section
variable {ε : Type} (a : α) (e : ε) (f : α → Except ε β) (g : α → β)

@[simp] theorem ok_bind : (Except.ok a >>= f) = f a := rfl
@[simp] theorem error_bind : (Except.error e >>= f) = .error e := rfl
@[simp] theorem pure_ok : (pure a : Except ε α) = .ok a := rfl
@[simp] theorem map_ok : (Except.ok a : Except ε α).map g = .ok (g a) := rfl
@[simp] theorem map_error : (Except.error e : Except ε α).map g = .error e := rfl

theorem bind_eq_ok {x : Except ε α} {f : α → Except ε β} {b : β} :
    (x >>= f) = .ok b ↔ ∃ a, x = .ok a ∧ f a = .ok b := by
  cases x with
  | ok a =>
    constructor
    · exact fun h => ⟨a, rfl, h⟩
    · rintro ⟨_, ha, h⟩
      cases ha
      exact h
  | error e => simp

end

section
variable {s s' : Store V} {p : Prog V E α} {a : α} {f : Fault E}

@[simp] theorem run_pure : (pure a : Prog V E α).run s = .ok (a, s) := rfl

@[simp] theorem run_bind (f : α → Prog V E β) :
    (p >>= f).run s = match p.run s with
      | .ok (a, s') => (f a).run s'
      | .error e => .error e := by
  change (p.bind f).run s = _
  induction p generalizing s with
  | pure a => rfl
  | fail e => rfl
  | get k next ih => exact ih (s.lookup k)
  | set k v next ih => exact ih

@[simp] theorem run_map (f : α → β) :
    (f <$> p).run s = match p.run s with
      | .ok (a, s') => .ok (f a, s')
      | .error e => .error e := run_bind (fun a => pure (f a))

@[simp] theorem run_get (k : K) : (get k : Prog V E _).run s = .ok (s.lookup k, s) := rfl

@[simp] theorem run_getOr (k : K) (d : V k) :
    (getOr k d : Prog V E _).run s = .ok (valueAt s k d, s) := rfl

@[simp] theorem run_set (k : K) (v : V k) :
    (set k v : Prog V E Unit).run s = .ok ((), s.insert k v) := rfl

@[simp] theorem run_fail : (fail f : Prog V E α).run s = .error f := rfl

@[simp] theorem run_checked_some : (checked (some a) : Prog V E α).run s = .ok (a, s) := rfl

@[simp] theorem run_checked_none : (checked none : Prog V E α).run s = .error .overflow := rfl

@[simp] theorem run_assert (q : Prop) [Decidable q] (m : String) :
    (assert q m : Prog V E Unit).run s = if q then .ok ((), s) else .error (.assertion m) := by
  unfold assert
  split <;> rfl

@[simp] theorem run_requireAuth {Address : Type} [DecidableEq Address] (env : Env Address)
    (who : Address) : (requireAuth env who : Prog V E Unit).run s =
      if who ∈ env.auth then .ok ((), s) else .error .unauthorised := by
  unfold requireAuth
  split <;> rfl

-- What is left to run behind a read, a write or a check.

theorem run_ok_bind (h : p.run s = .ok (a, s')) (f : α → Prog V E β) :
    (p >>= f).run s = (f a).run s' := by
  rw [run_bind, h]

theorem run_checked_bind (o : Option α) (f : α → Prog V E β) : (checked o >>= f).run s =
    match o with
    | some a => (f a).run s
    | none => .error .overflow := by
  cases o <;> rfl

theorem run_assert_bind (q : Prop) [Decidable q] (m : String) (f : Unit → Prog V E β) :
    (assert q m >>= f).run s = if q then (f ()).run s else .error (.assertion m) := by
  unfold assert
  split <;> rfl

theorem run_requireAuth_bind {Address : Type} [DecidableEq Address] (env : Env Address)
    (who : Address) (f : Unit → Prog V E β) : (requireAuth env who >>= f).run s =
      if who ∈ env.auth then (f ()).run s else .error .unauthorised := by
  unfold requireAuth
  split <;> rfl

-- Success, read backwards: what each step of a run that returned did.

theorem bind_ok {f : α → Prog V E β} {r : β × Store V} :
    (p >>= f).run s = .ok r ↔ ∃ a s', p.run s = .ok (a, s') ∧ (f a).run s' = .ok r := by
  rw [run_bind]
  cases h : p.run s with
  | ok q =>
    constructor
    · exact fun hr => ⟨q.1, q.2, rfl, hr⟩
    · rintro ⟨a, s', ha, hr⟩
      cases ha
      exact hr
  | error e => simp

theorem getOr_ok {k : K} {d v : V k} :
    (getOr k d : Prog V E _).run s = .ok (v, s') ↔ v = valueAt s k d ∧ s' = s := by
  simp [eq_comm]

theorem set_ok {k : K} {v : V k} {u : Unit} :
    (set k v : Prog V E Unit).run s = .ok (u, s') ↔ s' = s.insert k v := by
  simp [eq_comm]

theorem checked_ok {o : Option α} :
    (checked o : Prog V E α).run s = .ok (a, s') ↔ o = some a ∧ s' = s := by
  cases o <;> simp [eq_comm]

theorem requireAuth_ok {Address : Type} [DecidableEq Address] {env : Env Address}
    {who : Address} {u : Unit} :
    (requireAuth env who : Prog V E Unit).run s = .ok (u, s') ↔ who ∈ env.auth ∧ s' = s := by
  by_cases h : who ∈ env.auth <;> simp [h, eq_comm]

theorem settle_cases {S : Type} (r : Except (Fault E) (α × S)) (s : S) :
    (∃ a s', r = .ok (a, s') ∧ settle r s = (.ok a, s')) ∨
      (∃ f, r = .error f ∧ settle r s = (.error f, s)) := by
  cases r with
  | ok p => exact .inl ⟨p.1, p.2, rfl, rfl⟩
  | error f => exact .inr ⟨f, rfl, rfl⟩

/-- What a host call does: it returns the program's value and state, or the
program's fault and the state it found. -/
theorem invoke_cases (p : Prog V E α) (s : Store V) :
    (∃ a s', p.run s = .ok (a, s') ∧ invoke p s = (.ok a, s')) ∨
      (∃ f, p.run s = .error f ∧ invoke p s = (.error f, s)) := settle_cases ..

theorem invoke_of_ok (h : p.run s = .ok (a, s')) : invoke p s = (.ok a, s') := by
  rw [invoke, h, settle]

theorem invoke_of_error (h : p.run s = .error f) : invoke p s = (.error f, s) := by
  rw [invoke, h, settle]

/-- An entry point that wraps what a function of the contract returns. -/
theorem invoke_map_cases (p : Prog V E α) (g : α → β) (s : Store V) :
    (∃ a s', p.run s = .ok (a, s') ∧ invoke (do return g (← p)) s = (.ok (g a), s')) ∨
      (∃ f, p.run s = .error f ∧ invoke (do return g (← p)) s = (.error f, s)) := by
  cases h : p.run s with
  | ok r =>
    refine .inl ⟨r.1, r.2, rfl, invoke_of_ok ?_⟩
    rw [run_bind, h]
    rfl
  | error f =>
    refine .inr ⟨f, rfl, invoke_of_error ?_⟩
    rw [run_bind, h]

theorem invoke_map_succeeds (g : α → β) :
    (∃ b, (invoke (do return g (← p)) s).1 = .ok b) ↔ ∃ a s', p.run s = .ok (a, s') := by
  obtain ⟨a, s', hr, hi⟩ | ⟨f, hr, hi⟩ := invoke_map_cases p g s
  · simp [hi, hr]
  · simp [hi, hr]

theorem invoke_rollback (h : (invoke p s).1 = .error f) : (invoke p s).2 = s := by
  obtain ⟨a, s', _, hi⟩ | ⟨_, _, hi⟩ := invoke_cases p s
  · simp [hi] at h
  · rw [hi]

end

/-- A contract refines a specification of its entry points over another state
when every program, read through `view`, computes what is specified. -/
theorem step_simulates {Address Call T : Type} {view : Store V → T}
    {dispatch : Env Address → Call → Prog V E α}
    {spec : Env Address → Call → T → Except (Fault E) (α × T)}
    (h : ∀ env c s, ((dispatch env c).run s).map (Prod.map id view) = spec env c (view s)) :
    Run.Simulates (fun s t => view s = t) (step dispatch)
      (fun t i => settle (spec i.env i.call t) t) := by
  rintro s _ i rfl
  simp only [← h]
  obtain ⟨a, s', hr, hi⟩ | ⟨f, hr, hi⟩ := invoke_cases (dispatch i.env i.call) s
  · simp [step, hi, hr, settle]
  · simp [step, hi, hr, settle]

end Host
