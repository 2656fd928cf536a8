import Mathlib.Algebra.Ring.Int.Defs
import Mathlib.Tactic.Common
import Mathlib.Order.Basic

/-!
# Machine integers with checked arithmetic

A `Ranged lo hi` is an integer that carries the proof of its range. The
checked operations compute the exact integer and answer `none` when it does
not fit, which is where overflow-checked code stops.
-/

structure Ranged (lo hi : Int) where
  val : Int
  lo_le : lo ≤ val
  le_hi : val ≤ hi
  deriving DecidableEq, Repr

namespace Ranged

variable {lo hi : Int}

theorem val_injective : Function.Injective (val : Ranged lo hi → Int) := by
  rintro ⟨a, _, _⟩ ⟨b, _, _⟩ h
  cases h
  rfl

@[simp] theorem val_inj {a b : Ranged lo hi} : a.val = b.val ↔ a = b :=
  val_injective.eq_iff

instance : LE (Ranged lo hi) := ⟨fun a b => a.val ≤ b.val⟩
instance : LT (Ranged lo hi) := ⟨fun a b => a.val < b.val⟩

theorem le_def {a b : Ranged lo hi} : a ≤ b ↔ a.val ≤ b.val := Iff.rfl
theorem lt_def {a b : Ranged lo hi} : a < b ↔ a.val < b.val := Iff.rfl

instance (a b : Ranged lo hi) : Decidable (a ≤ b) := Int.decLe a.val b.val
instance (a b : Ranged lo hi) : Decidable (a < b) := Int.decLt a.val b.val

def ofInt? (n : Int) : Option (Ranged lo hi) :=
  if h : lo ≤ n ∧ n ≤ hi then some ⟨n, h.1, h.2⟩ else none

theorem ofInt?_eq_some {n : Int} {a : Ranged lo hi} : ofInt? n = some a ↔ a.val = n := by
  unfold ofInt?
  split
  next h =>
    constructor
    · intro he
      cases Option.some.inj he
      rfl
    · intro he
      exact congrArg some (val_injective he.symm)
  next h =>
    refine ⟨fun he => (nomatch he), fun he => absurd ?_ h⟩
    exact he ▸ ⟨a.lo_le, a.le_hi⟩

theorem ofInt?_eq_none {n : Int} : (ofInt? n : Option (Ranged lo hi)) = none ↔ n < lo ∨ hi < n := by
  unfold ofInt?
  split
  next h => exact ⟨fun he => (nomatch he), by omega⟩
  next h => exact ⟨fun _ => by omega, fun _ => rfl⟩

def add? (a b : Ranged lo hi) : Option (Ranged lo hi) := ofInt? (a.val + b.val)

def sub? (a b : Ranged lo hi) : Option (Ranged lo hi) := ofInt? (a.val - b.val)

theorem add?_eq_some {a b c : Ranged lo hi} : a.add? b = some c ↔ c.val = a.val + b.val :=
  ofInt?_eq_some

theorem sub?_eq_some {a b c : Ranged lo hi} : a.sub? b = some c ↔ c.val = a.val - b.val :=
  ofInt?_eq_some

theorem add?_eq_none {a b : Ranged lo hi} :
    a.add? b = none ↔ a.val + b.val < lo ∨ hi < a.val + b.val := ofInt?_eq_none

theorem exists_val {n : Int} : (∃ a : Ranged lo hi, a.val = n) ↔ lo ≤ n ∧ n ≤ hi := by
  constructor
  · rintro ⟨a, rfl⟩
    exact ⟨a.lo_le, a.le_hi⟩
  · rintro ⟨hl, hh⟩
    exact ⟨⟨n, hl, hh⟩, rfl⟩

theorem exists_succ {a : Ranged lo hi} :
    (∃ b : Ranged lo hi, b.val = a.val + 1) ↔ a.val + 1 ≤ hi := by
  have h := a.lo_le
  rw [exists_val]
  omega

end Ranged

abbrev U64 := Ranged 0 (2 ^ 64 - 1)
abbrev I32 := Ranged (-2 ^ 31) (2 ^ 31 - 1)
abbrev I64 := Ranged (-2 ^ 63) (2 ^ 63 - 1)
abbrev I128 := Ranged (-2 ^ 127) (2 ^ 127 - 1)

namespace Ranged

instance : Zero U64 := ⟨⟨0, by decide, by decide⟩⟩
instance : One U64 := ⟨⟨1, by decide, by decide⟩⟩
instance : Zero I128 := ⟨⟨0, by decide, by decide⟩⟩

@[simp] theorem U64.val_zero : (0 : U64).val = 0 := rfl
@[simp] theorem U64.val_one : (1 : U64).val = 1 := rfl
@[simp] theorem I128.val_zero : (0 : I128).val = 0 := rfl

theorem U64.add?_one (a : U64) :
    (a.val + 1 ≤ 2 ^ 64 - 1 ∧ ∃ b, a.add? 1 = some b) ∨
      (2 ^ 64 - 1 < a.val + 1 ∧ a.add? 1 = none) := by
  cases h : a.add? 1 with
  | some b =>
    have hb := b.le_hi
    rw [add?_eq_some.mp h, U64.val_one] at hb
    exact .inl ⟨hb, b, rfl⟩
  | none =>
    have hlo := a.lo_le
    have ha := add?_eq_none.mp h
    rw [U64.val_one] at ha
    exact .inr ⟨by omega, rfl⟩

end Ranged
