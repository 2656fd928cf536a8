import Mathlib.Data.List.Infix

/-!
# Finding markers in a text

`find` is the first place a word stands in a text. A `Marker` is a word whose
first letter does not come back in it, so two occurrences never overlap.
`Free` texts do not hold the marker; the lemmas say when texts put together
stay free, and what `find` answers for them.
-/

namespace Search

variable {α : Type*} [DecidableEq α]

def find (w : List α) : List α → Option Nat
  | [] => if w = [] then some 0 else none
  | x :: t => if w <+: x :: t then some 0 else (find w t).map (· + 1)

theorem find_eq_none {w t : List α} : find w t = none ↔ ¬ w <:+: t := by
  induction t with
  | nil => simp [find]
  | cons x t ih =>
    rw [find, List.infix_cons_iff]
    split
    · next h => simp [h]
    · next h => simp [h, ih]

end Search

structure Marker (α : Type*) where
  head : α
  tail : List α
  fresh : head ∉ tail

namespace Marker

open Search (find)

variable {α : Type*} {m : Marker α} {a b f lit s t : List α}

def word (m : Marker α) : List α := m.head :: m.tail

theorem length_word (m : Marker α) : m.word.length = m.tail.length + 1 := rfl

def Free (m : Marker α) (t : List α) : Prop := ¬ m.word <:+: t

instance [DecidableEq α] (m : Marker α) (t : List α) : Decidable (m.Free t) := by
  unfold Free
  infer_instance

/-- A literal no occurrence reaches into: its first letter is none of the
marker's, and no occurrence starts in it. -/
def Separates (m : Marker α) : List α → Prop
  | [] => False
  | x :: lit => x ∉ m.word ∧ m.head ∉ lit

instance [DecidableEq α] (m : Marker α) (lit : List α) : Decidable (m.Separates lit) := by
  cases lit <;> unfold Separates <;> infer_instance

theorem free_nil : m.Free [] := by simp [Free, word]

theorem Free.of_prefix (h : m.Free t) (hs : s <+: t) : m.Free s :=
  fun hw => h (hw.trans hs.isInfix)

/-- An occurrence that starts before a first letter ends before it. -/
theorem prefix_of_append_head (ha : a ≠ []) (h : m.word <+: a ++ m.head :: b) : m.word <+: a := by
  rcases List.prefix_or_prefix_of_prefix h (List.prefix_append a _) with h' | ⟨r, hr⟩
  · exact h'
  cases r with
  | nil => exact ⟨[], by rw [← hr, List.append_nil, List.append_nil]⟩
  | cons y r =>
    obtain ⟨c, hc⟩ := h
    rw [← hr, List.append_assoc, List.append_cancel_left_eq, List.cons_append,
      List.cons.injEq] at hc
    obtain ⟨z, a, rfl⟩ := List.exists_cons_of_ne_nil ha
    have htail : a ++ y :: r = m.tail := (List.cons.inj hr).2
    exact absurd (htail ▸ hc.1 ▸ List.mem_append_right a List.mem_cons_self) m.fresh

theorem free_append_head : m.Free (a ++ m.head :: b) ↔ m.Free a ∧ m.Free (m.head :: b) := by
  constructor
  · intro h
    exact ⟨h.of_prefix (List.prefix_append ..),
      fun hw => h (List.infix_append_of_infix_right hw)⟩
  · rintro ⟨ha, hb⟩
    induction a with
    | nil => exact hb
    | cons x a ih =>
      intro hw
      rcases List.infix_cons_iff.mp hw with hp | hi
      · exact ha (prefix_of_append_head (List.cons_ne_nil x a) hp).isInfix
      · exact ih (fun h => ha (List.infix_cons h)) hi

theorem free_plain_append (h : m.head ∉ lit) : m.Free (lit ++ b) ↔ m.Free b := by
  induction lit with
  | nil => rfl
  | cons x lit ih =>
    rw [← ih fun hx => h (List.mem_cons_of_mem x hx), Free, Free, List.cons_append,
      List.infix_cons_iff]
    have hp : ¬ m.word <+: x :: (lit ++ b) := by
      intro hp
      have hx : m.head = x := (List.cons_prefix_cons.mp hp).1
      exact h (hx ▸ List.mem_cons_self)
    simp [hp]

theorem free_append_separated (h : m.Separates lit) :
    m.Free (f ++ (lit ++ b)) ↔ m.Free f ∧ m.Free b := by
  cases lit with
  | nil => exact h.elim
  | cons x lit =>
    have hlit : m.head ∉ x :: lit :=
      fun hm => (List.mem_cons.mp hm).elim (fun he => h.1 (he ▸ List.mem_cons_self)) h.2
    rw [← free_plain_append (b := b) hlit]
    constructor
    · intro hw
      exact ⟨hw.of_prefix (List.prefix_append ..),
        fun hi => hw (List.infix_append_of_infix_right hi)⟩
    · rintro ⟨hf, hb⟩ hw
      rcases List.infix_append_iff_ne_nil.mp hw with hi | hi | ⟨l₁, l₂, -, h₂, hl, -, hp⟩
      · exact hf hi
      · exact hb hi
      · -- the part inside the literal would hold its first letter
        obtain ⟨y, l₂, rfl⟩ := List.exists_cons_of_ne_nil h₂
        have hy : y = x := (List.cons_prefix_cons.mp hp).1
        exact h.1 (hl ▸ hy ▸ List.mem_append_right l₁ List.mem_cons_self)

-- A text put together from pieces, read from the front.

theorem free_plain_cons {ps : List (List α)} (h : m.head ∉ lit) :
    m.Free (lit :: ps).flatten ↔ m.Free ps.flatten := free_plain_append h

theorem free_cons_separated {ps : List (List α)} (h : m.Separates lit) :
    m.Free (f :: lit :: ps).flatten ↔ m.Free f ∧ m.Free ps.flatten := free_append_separated h

variable [DecidableEq α]

theorem find_word (ha : m.Free a) : find m.word (a ++ (m.word ++ b)) = some a.length := by
  induction a with
  | nil =>
    have hp : m.word <+: m.word ++ b := List.prefix_append ..
    rw [List.nil_append, word, List.cons_append, find, ← List.cons_append, ← word, if_pos hp]
    rfl
  | cons x a ih =>
    have hn : ¬ m.word <+: x :: (a ++ (m.word ++ b)) := fun hp =>
      ha (prefix_of_append_head (List.cons_ne_nil x a) hp).isInfix
    rw [List.cons_append, find, if_neg hn, ih fun h => ha (List.infix_cons h)]
    rfl

/-- Where the marker first stands cuts a text in one way. -/
theorem append_word_inj {c d : List α} (ha : m.Free a) (hc : m.Free c)
    (h : a ++ (m.word ++ b) = c ++ (m.word ++ d)) : a = c ∧ b = d := by
  have hfind := find_word (b := b) ha
  rw [h, find_word hc] at hfind
  obtain ⟨hac, hbd⟩ := List.append_inj h (Option.some.inj hfind).symm
  exact ⟨hac, List.append_cancel_left hbd⟩

theorem find_eq_some {n : Nat} (h : find m.word t = some n) :
    ∃ a b, t = a ++ (m.word ++ b) ∧ a.length = n ∧ m.Free a := by
  induction t generalizing n with
  | nil => simp [find, word] at h
  | cons x t ih =>
    rw [find] at h
    split at h
    · next hp =>
      cases h
      obtain ⟨b, hb⟩ := hp
      exact ⟨[], b, hb.symm, rfl, free_nil⟩
    · next hp =>
      obtain ⟨k, hk, rfl⟩ := Option.map_eq_some_iff.mp h
      obtain ⟨a, b, rfl, rfl, ha⟩ := ih hk
      refine ⟨x :: a, b, rfl, rfl, fun hw => ?_⟩
      rcases List.infix_cons_iff.mp hw with hw | hw
      · exact hp (List.prefix_append_of_prefix hw)
      · exact ha hw

theorem find_eq_none : find m.word t = none ↔ m.Free t := Search.find_eq_none

end Marker
