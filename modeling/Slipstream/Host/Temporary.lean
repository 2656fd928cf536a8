import Slipstream.Host.Prog

/-!
# Temporary storage

The same programs, read on storage whose entries expire. A new entry lives
for the minimum lifetime of the network, writing a live entry does not
prolong it, and an entry whose lifetime has passed reads as absent. Time is
the ledger number; it moves between calls.
-/

namespace Host

/-- How many ledgers a new temporary entry lives, its own included. -/
structure Lifetime where
  minTtl : Nat
  pos : 0 < minTtl

structure TempEntry (α : Type) where
  value : α
  liveUntil : Nat
  deriving DecidableEq, Repr

abbrev TempStore {K : Type} (V : K → Type) := Finmap fun k => TempEntry (V k)

variable {K : Type} {V : K → Type} {E α β : Type} [DecidableEq K]

namespace TempStore

/-- The entry under a key, if its lifetime has not passed. -/
def live (seq : Nat) (s : TempStore V) (k : K) : Option (TempEntry (V k)) :=
  (s.lookup k).filter fun e => seq ≤ e.liveUntil

def write (ttl : Lifetime) (seq : Nat) (s : TempStore V) (k : K) (v : V k) : TempStore V :=
  match s.live seq k with
  | some e => s.insert k { e with value := v }
  | none => s.insert k { value := v, liveUntil := seq + ttl.minTtl - 1 }

end TempStore

def Prog.runTemp (ttl : Lifetime) (seq : Nat) :
    Prog V E α → TempStore V → Except (Fault E) (α × TempStore V)
  | .pure a, s => .ok (a, s)
  | .fail f, _ => .error f
  | .get k next, s => (next ((s.live seq k).map TempEntry.value)).runTemp ttl seq s
  | .set k v next, s => next.runTemp ttl seq (s.write ttl seq k v)

structure TempState (V : K → Type) where
  seq : Nat
  entries : TempStore V

/-- What can happen: a call, or the network closing some ledgers. -/
inductive Event (Address Call : Type)
  | call (i : Invocation Address Call)
  | advance (ledgers : Nat)

def tempStep {Address Call : Type} (ttl : Lifetime)
    (dispatch : Env Address → Call → Prog V E α) (t : TempState V) :
    Event Address Call → Option (Except (Fault E) α) × TempState V
  | .call i =>
    let r := settle ((dispatch i.env i.call).runTemp ttl t.seq t.entries) t.entries
    (some r.1, { t with entries := r.2 })
  | .advance ledgers => (none, { t with seq := t.seq + ledgers })

section
variable {ttl : Lifetime} {seq : Nat} {s : TempStore V} {p : Prog V E α}

@[simp] theorem runTemp_pure (a : α) : (pure a : Prog V E α).runTemp ttl seq s = .ok (a, s) := rfl

@[simp] theorem runTemp_bind (f : α → Prog V E β) :
    (p >>= f).runTemp ttl seq s = match p.runTemp ttl seq s with
      | .ok (a, s') => (f a).runTemp ttl seq s'
      | .error e => .error e := by
  change (p.bind f).runTemp ttl seq s = _
  induction p generalizing s with
  | pure a => rfl
  | fail e => rfl
  | get k next ih => exact ih ((s.live seq k).map TempEntry.value)
  | set k v next ih => exact ih

@[simp] theorem runTemp_getOr (k : K) (d : V k) : (getOr k d : Prog V E _).runTemp ttl seq s =
    .ok (((s.live seq k).map TempEntry.value).getD d, s) := rfl

@[simp] theorem runTemp_set (k : K) (v : V k) :
    (set k v : Prog V E Unit).runTemp ttl seq s = .ok ((), s.write ttl seq k v) := rfl

@[simp] theorem runTemp_checked_some (a : α) :
    (checked (some a) : Prog V E α).runTemp ttl seq s = .ok (a, s) := rfl

@[simp] theorem runTemp_checked_none :
    (checked none : Prog V E α).runTemp ttl seq s = .error .overflow := rfl

@[simp] theorem runTemp_requireAuth {Address : Type} [DecidableEq Address] (env : Env Address)
    (who : Address) : (requireAuth env who : Prog V E Unit).runTemp ttl seq s =
      if who ∈ env.auth then .ok ((), s) else .error .unauthorised := by
  unfold requireAuth
  split <;> rfl

theorem lookup_write_of_ne {j k : K} (h : j ≠ k) (v : V k) :
    (s.write ttl seq k v).lookup j = s.lookup j := by
  unfold TempStore.write
  split <;> rw [Finmap.lookup_insert_of_ne _ h]

theorem live_of_le {k : K} {e : TempEntry (V k)} (he : s.lookup k = some e)
    (h : seq ≤ e.liveUntil) : s.live seq k = some e := by
  simp [TempStore.live, he, h]

theorem live_of_lt {k : K} {e : TempEntry (V k)} (he : s.lookup k = some e)
    (h : e.liveUntil < seq) : s.live seq k = none := by
  simp [TempStore.live, he, h]

theorem live_of_absent {k : K} (he : s.lookup k = none) : s.live seq k = none := by
  simp [TempStore.live, he]

theorem lookup_write_live {k : K} {e : TempEntry (V k)} (he : s.live seq k = some e) (v : V k) :
    (s.write ttl seq k v).lookup k = some { e with value := v } := by
  simp [TempStore.write, he]

theorem lookup_write_new {k : K} (he : s.live seq k = none) (v : V k) :
    (s.write ttl seq k v).lookup k =
      some { value := v, liveUntil := seq + ttl.minTtl - 1 } := by
  simp [TempStore.write, he]

end

end Host
