import Mathlib.Algebra.BigOperators.Ring.Finset
import Mathlib.Data.List.Basic
import Mathlib.Data.List.Induction

/-!
# Lines and columns of text

A text is a list of characters. `lines` cuts it the way a line reader does;
a line made of fields of given widths, with a separator between them, has
each field in the same span.
-/

namespace Layout

-- ---------------------------------------------------------------------------
-- Lengths
-- ---------------------------------------------------------------------------

def utf8Len (s : List Char) : Nat := (s.map Char.utf8Size).sum

theorem length_le_utf8Len (s : List Char) : s.length ≤ utf8Len s := by
  induction s with
  | nil => exact Nat.le_refl 0
  | cons c s ih =>
    have hc := Char.utf8Size_pos c
    rw [utf8Len, List.map_cons, List.sum_cons, ← utf8Len, List.length_cons]
    omega

theorem utf8Len_eq_length {s : List Char} (h : ∀ c ∈ s, c.utf8Size = 1) :
    utf8Len s = s.length := by
  rw [utf8Len, List.map_congr_left h, List.map_const', List.sum_replicate_nat, Nat.mul_one]

-- ---------------------------------------------------------------------------
-- Printed integers
-- ---------------------------------------------------------------------------

theorem toList_toString (n : Int) : (toString n).toList =
    if 0 ≤ n then Nat.toDigits 10 n.toNat else '-' :: Nat.toDigits 10 (-n).toNat := by
  rw [Int.toString_eq_repr, Int.repr_eq_if]
  split
  · exact Nat.toList_repr
  · rw [String.toList_append, Nat.toList_repr]
    rfl

theorem mem_toString {n : Int} {c : Char} (h : c ∈ (toString n).toList) :
    c = '-' ∨ c.isDigit = true := by
  have hd {m : Nat} (h : c ∈ Nat.toDigits 10 m) : c.isDigit = true :=
    Nat.isDigit_of_mem_toDigits (by decide) (by decide) h
  rw [toList_toString] at h
  split at h
  · exact .inr (hd h)
  · exact (List.mem_cons.mp h).imp_right hd

theorem toDigits_injective : Function.Injective (Nat.toDigits 10) := by
  intro n m h
  have hread := congrArg (Nat.ofDigitChars 10 · 0) h
  simpa only [Nat.ofDigitChars_ten_toDigits] using hread

theorem toString_injective {n m : Int} (h : (toString n).toList = (toString m).toList) :
    n = m := by
  have hminus (k : Nat) (ds : List Char) : Nat.toDigits 10 k ≠ '-' :: ds := by
    intro hk
    have hd : '-' ∈ Nat.toDigits 10 k := hk ▸ List.mem_cons_self
    exact absurd (Nat.isDigit_of_mem_toDigits (by decide) (by decide) hd) (by decide)
  rw [toList_toString, toList_toString] at h
  split at h
  · split at h
    · have := toDigits_injective h
      omega
    · exact absurd h (hminus _ _)
  · split at h
    · exact absurd h.symm (hminus _ _)
    · have := toDigits_injective (List.cons.inj h).2
      omega

theorem length_toString_le {n : Int} {k : Nat} (hk : 0 < k) (hlo : -10 ^ k < n) (hhi : n < 10 ^ k) :
    (toString n).toList.length ≤ k + 1 := by
  have hd {m : Nat} (h : m < 10 ^ k) : (Nat.toDigits 10 m).length ≤ k :=
    (Nat.length_toDigits_le_iff (by decide) hk).mpr h
  have hp : (10 : Int) ^ k = ((10 ^ k : Nat) : Int) := by norm_cast
  rw [toList_toString]
  split
  · have := hd (m := n.toNat) (by omega)
    omega
  · have := hd (m := (-n).toNat) (by omega)
    rw [List.length_cons]
    omega

theorem utf8Len_toString (n : Int) :
    utf8Len (toString n).toList = (toString n).toList.length := by
  refine utf8Len_eq_length fun c hc => ?_
  obtain rfl | hd := mem_toString hc
  · rfl
  · simp only [Char.isDigit, Bool.and_eq_true, decide_eq_true_eq] at hd
    exact Char.utf8Size_eq_one_iff.mpr (UInt32.le_trans hd.2 (by decide))

/-- A field ends at the first character that does not belong to it. -/
theorem field_inj {c : Char} {a b s t : List Char} (ha : c ∉ a) (hb : c ∉ b) :
    a ++ c :: s = b ++ c :: t ↔ a = b ∧ s = t := by
  induction a generalizing b with
  | nil =>
    cases b with
    | nil => simp
    | cons y b =>
      have hy : c ≠ y := fun he => hb (he ▸ List.mem_cons_self)
      simp [hy]
  | cons x a ih =>
    obtain ⟨hx, ha⟩ := not_or.mp (List.mem_cons.not.mp ha)
    cases b with
    | nil => simp [Ne.symm hx]
    | cons y b =>
      obtain ⟨-, hb⟩ := not_or.mp (List.mem_cons.not.mp hb)
      simp [ih ha hb, and_assoc]

-- ---------------------------------------------------------------------------
-- Columns
-- ---------------------------------------------------------------------------

/-- Blanks on the right up to a width, counted in characters. -/
def padRight (width : Nat) (s : List Char) : List Char :=
  s ++ List.replicate (width - s.length) ' '

def padLeft (width : Nat) (s : List Char) : List Char :=
  List.replicate (width - s.length) ' ' ++ s

/-- A field that holds `s` and blanks beside it. -/
def Padded (s field : List Char) : Prop :=
  ∃ l r, field = List.replicate l ' ' ++ s ++ List.replicate r ' '

theorem padded_padRight (width : Nat) (s : List Char) : Padded s (padRight width s) :=
  ⟨0, _, rfl⟩

theorem padded_padLeft (width : Nat) (s : List Char) : Padded s (padLeft width s) :=
  ⟨_, 0, (List.append_nil _).symm⟩

theorem length_padRight {width : Nat} {s : List Char} (h : s.length ≤ width) :
    (padRight width s).length = width := by
  rw [padRight, List.length_append, List.length_replicate]
  omega

theorem length_padLeft {width : Nat} {s : List Char} (h : s.length ≤ width) :
    (padLeft width s).length = width := by
  rw [padLeft, List.length_append, List.length_replicate]
  omega

def start (gap : Nat) (widths : List Nat) (i : Nat) : Nat :=
  ((widths.take i).map (· + gap)).sum

/-- What a line holds from an offset on, for a width. -/
def slice (line : List Char) (offset width : Nat) : List Char := (line.drop offset).take width

theorem start_succ (gap w : Nat) (widths : List Nat) (i : Nat) :
    start gap (w :: widths) (i + 1) = w + gap + start gap widths i := by
  simp [start]

theorem slice_intercalate (sep : List Char) {fields : List (List Char)} {i : Nat}
    (hi : i < fields.length) :
    slice (sep.intercalate fields) (start sep.length (fields.map List.length) i)
      fields[i].length = fields[i] := by
  induction fields generalizing i with
  | nil => exact absurd hi (Nat.not_lt_zero i)
  | cons f fields ih =>
    cases i with
    | zero =>
      cases fields with
      | nil => simp [slice, start]
      | cons g fields => simp [slice, start, List.append_assoc]
    | succ i =>
      have hi := Nat.lt_of_succ_lt_succ hi
      have hne : fields ≠ [] := List.ne_nil_of_length_pos (Nat.zero_lt_of_lt hi)
      rw [List.intercalate_cons_of_ne_nil hne, List.map_cons, start_succ, ← List.length_append,
        slice, List.drop_length_add_append]
      exact ih hi

theorem length_intercalate (sep : List Char) (fields : List (List Char)) :
    (sep.intercalate fields).length =
      (fields.map List.length).sum + (fields.length - 1) * sep.length := by
  induction fields with
  | nil => simp
  | cons f fields ih =>
    cases fields with
    | nil => simp
    | cons g fields =>
      rw [List.intercalate_cons_cons, List.length_append, List.length_append, ih]
      simp only [List.map_cons, List.sum_cons, List.length_cons, Nat.add_sub_cancel]
      rw [Nat.succ_mul]
      omega

theorem mem_intercalate {sep : List Char} {fields : List (List Char)} {c : Char} (hc : c ∉ sep) :
    c ∈ sep.intercalate fields ↔ ∃ f ∈ fields, c ∈ f := by
  induction fields with
  | nil => simp
  | cons f fields ih =>
    cases fields with
    | nil => simp
    | cons g fields =>
      rw [List.intercalate_cons_cons, List.mem_append, List.mem_append, ih, or_iff_left hc]
      simp

/-- The first field begins the line and the last one ends it. -/
theorem prefix_intercalate (sep f : List Char) (fields : List (List Char)) :
    f <+: sep.intercalate (f :: fields) := by
  cases fields with
  | nil => simp
  | cons g fields =>
    rw [List.intercalate_cons_cons, List.append_assoc]
    exact List.prefix_append f _

theorem suffix_intercalate (sep f : List Char) (fields : List (List Char)) :
    f <:+ sep.intercalate (fields ++ [f]) := by
  induction fields with
  | nil => simp
  | cons g fields ih =>
    rw [List.cons_append, List.intercalate_cons_of_ne_nil (by simp)]
    exact ih.trans (List.suffix_append _ _)

-- ---------------------------------------------------------------------------
-- Lines
-- ---------------------------------------------------------------------------

/-- The lines of a text, each without its line ending: a newline, or a
carriage return and a newline. -/
def lines : List Char → List (List Char)
  | [] => []
  | '\r' :: '\n' :: s => [] :: lines s
  | '\n' :: s => [] :: lines s
  | c :: s => match lines s with
    | [] => [[c]]
    | l :: ls => (c :: l) :: ls

def unlines (ls : List (List Char)) : List Char := ls.flatMap (· ++ ['\n'])

theorem lines_ne_nil {s : List Char} (h : s ≠ []) : lines s ≠ [] := by
  fun_cases lines s
  · exact absurd rfl h
  all_goals exact List.cons_ne_nil _ _

/-- A line for each newline, and one for what follows the last. -/
theorem length_lines (s : List Char) : (lines s).length =
    s.count '\n' + if s.getLastD '\n' = '\n' then 0 else 1 := by
  fun_induction lines s with
  | case1 => rfl
  | case2 s ih =>
    rw [List.length_cons, ih, List.getLastD_cons, List.getLastD_cons,
      List.count_cons_of_ne (by decide), List.count_cons_self]
    omega
  | case3 s ih =>
    rw [List.length_cons, ih, List.getLastD_cons, List.count_cons_self]
    omega
  | case4 c s hcr hc hs ih =>
    obtain rfl : s = [] := by_contra fun hne => lines_ne_nil hne hs
    rw [List.getLastD_cons, List.count_cons_of_ne hc, List.getLastD_nil, if_neg hc]
    rfl
  | case5 c s hcr hc l ls hs ih =>
    have hne : s ≠ [] := by
      rintro rfl
      cases hs
    have hlast : s.getLastD c = s.getLastD '\n' := by
      rw [List.getLastD_eq_getLast?, List.getLastD_eq_getLast?, List.getLast?_eq_some_getLast hne]
      rfl
    rw [List.getLastD_cons, List.count_cons_of_ne hc, hlast, ← ih, hs]
    rfl

theorem append_ne_newline {l s s' : List Char} (hl : '\n' ∉ l) (hne : l ≠ []) :
    l ++ s ≠ '\n' :: s' := by
  cases l with
  | nil => exact absurd rfl hne
  | cons d l =>
    intro he
    obtain ⟨rfl, -⟩ := List.cons.inj he
    exact hl List.mem_cons_self

theorem lines_push {c : Char} {l s : List Char} {ls : List (List Char)} (hc : c ≠ '\n')
    (hs : lines s = l :: ls) (hcr : c = '\r' → ∀ s', s ≠ '\n' :: s') :
    lines (c :: s) = (c :: l) :: ls := by
  rw [lines]
  · rw [hs]
  · exact fun s' hc => hcr hc s'
  · exact hc

def trimCr (l : List Char) : List Char := if l.getLast? = some '\r' then l.dropLast else l

theorem trimCr_of_ne {l : List Char} (h : l.getLast? ≠ some '\r') : trimCr l = l := if_neg h

theorem length_trimCr_lt {l : List Char} (h : l.getLast? = some '\r') :
    (trimCr l).length < l.length := by
  have hne : l ≠ [] := by
    rintro rfl
    cases h
  have hpos := List.length_pos_iff.mpr hne
  rw [trimCr, if_pos h, List.length_dropLast]
  omega

theorem trimCr_cons_cons (c d : Char) (l : List Char) :
    trimCr (c :: d :: l) = c :: trimCr (d :: l) := by
  unfold trimCr
  rw [List.getLast?_cons_cons]
  split <;> rfl

theorem lines_append_newline {l : List Char} (hl : '\n' ∉ l) (s : List Char) :
    lines (l ++ '\n' :: s) = trimCr l :: lines s := by
  induction l with
  | nil => rfl
  | cons c l ih =>
    obtain ⟨hc, hl⟩ := not_or.mp fun h => hl (List.mem_cons.mpr h)
    cases l with
    | nil =>
      by_cases hcr : c = '\r'
      · subst hcr
        rfl
      · have htrim : trimCr [c] = [c] := if_neg fun h => hcr (Option.some.inj h)
        rw [htrim]
        exact lines_push (Ne.symm hc) (ih hl) fun h => absurd h hcr
    | cons d l =>
      rw [trimCr_cons_cons]
      exact lines_push (Ne.symm hc) (ih hl) fun _ _ => append_ne_newline hl (List.cons_ne_nil d l)

theorem unlines_cons (l : List Char) (ls : List (List Char)) :
    unlines (l :: ls) = l ++ '\n' :: unlines ls := by
  simp [unlines]

theorem lines_unlines {ls : List (List Char)} (h : ∀ l ∈ ls, '\n' ∉ l) :
    lines (unlines ls) = ls.map trimCr := by
  induction ls with
  | nil => rfl
  | cons l ls ih =>
    obtain ⟨hl, hls⟩ := List.forall_mem_cons.mp h
    rw [unlines_cons, lines_append_newline hl, ih hls, List.map_cons]

theorem length_lines_unlines (ls : List (List Char)) :
    (lines (unlines ls)).length = ls.length + (ls.map (List.count '\n')).sum := by
  have hcount : (unlines ls).count '\n' = ls.length + (ls.map (List.count '\n')).sum := by
    induction ls with
    | nil => rfl
    | cons l ls ih =>
      rw [unlines_cons, List.count_append, List.count_cons_self, ih, List.map_cons,
        List.sum_cons, List.length_cons]
      omega
  have hlast : (unlines ls).getLastD '\n' = '\n' := by
    induction ls using List.reverseRecOn with
    | nil => rfl
    | append_singleton ls l _ => simp [unlines]
  rw [length_lines, hlast, if_pos rfl, hcount, Nat.add_zero]

/-- As many lines as were written, exactly when none holds a newline. -/
theorem length_lines_unlines_iff (ls : List (List Char)) :
    (lines (unlines ls)).length = ls.length ↔ ∀ l ∈ ls, '\n' ∉ l := by
  rw [length_lines_unlines, Nat.add_eq_left, List.sum_eq_zero_iff_forall_eq_nat]
  simp only [List.mem_map, forall_exists_index, and_imp, forall_apply_eq_imp_iff₂,
    List.count_eq_zero]

end Layout
