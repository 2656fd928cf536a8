import Slipstream.Harness.Commands
import Mathlib.Data.List.Sort
import Mathlib.Data.List.Lex

/-!
# Discovering the corpus

`discoverPatterns` finds the pattern directories below a directory. What it
returns is told by the entries alone: the file system may list them in any
order.
-/

namespace Harness

variable {ε : Type}

/-- An entry of a directory. Its name is missing where it is not Unicode. -/
structure Entry where
  name : Option Text
  isDir : Bool
  /-- `naive` is a directory below it. -/
  naive : Bool
  /-- `optimized` is a directory below it. -/
  optimized : Bool
  deriving DecidableEq, Repr

def entryName (e : Except ε Entry) : Option Text := e.toOption.bind Entry.name

/-- What reading a directory lists: an entry, or an error in place of one. A
name stands there once, and no name is a path. -/
structure Directory (ε : Type) where
  entries : List (Except ε Entry)
  distinct : (entries.filterMap entryName).Nodup
  separated : ∀ name ∈ entries.filterMap entryName, '/' ∉ name

-- ---------------------------------------------------------------------------
-- Names
-- ---------------------------------------------------------------------------

def asBytes (name : Text) : List Nat := (name.flatMap String.utf8EncodeChar).map UInt8.toNat

def isAsciiDigit (b : Nat) : Bool := 48 ≤ b && b ≤ 57

def isPatternName (name : Text) : Bool :=
  match asBytes name with
  | b₀ :: b₁ :: b₂ :: _ => isAsciiDigit b₀ && isAsciiDigit b₁ && b₂ == 45
  | _ => false

/-- `NN-<name>`. -/
def NamesPattern (name : Text) : Prop :=
  ∃ a b rest, name = a :: b :: '-' :: rest ∧ a.isDigit ∧ b.isDigit

/-- A character is its one byte, or begins with a byte that is no ASCII one. -/
theorem asBytes_cons (c : Char) (s : Text) :
    (c.toNat < 128 ∧ asBytes (c :: s) = c.toNat :: asBytes s) ∨
      (128 ≤ c.toNat ∧ ∃ b bs, 128 ≤ b ∧ asBytes (c :: s) = b :: bs) := by
  have hbytes : asBytes (c :: s) = (String.utf8EncodeChar c).map UInt8.toNat ++ asBytes s := by
    rw [asBytes, List.flatMap_cons, List.map_append, asBytes]
  have hval : c.val.toNat = c.toNat := rfl
  rw [hbytes]
  unfold String.utf8EncodeChar
  simp only [hval]
  by_cases hc : c.toNat < 128
  · refine .inl ⟨hc, ?_⟩
    rw [if_pos (by omega)]
    simp only [List.map_cons, List.map_nil, List.singleton_append, UInt8.toNat_ofNat']
    rw [Nat.mod_eq_of_lt (by omega)]
  · refine .inr ⟨by omega, ?_⟩
    rw [if_neg (by omega)]
    split
    · exact ⟨_, _, by rw [UInt8.toNat_ofNat']; omega, rfl⟩
    · split
      · exact ⟨_, _, by rw [UInt8.toNat_ofNat']; omega, rfl⟩
      · exact ⟨_, _, by rw [UInt8.toNat_ofNat']; omega, rfl⟩

theorem asBytes_inj {s t : Text} : asBytes s = asBytes t ↔ s = t := by
  constructor
  · intro h
    have hb : s.flatMap String.utf8EncodeChar = t.flatMap String.utf8EncodeChar :=
      List.map_injective_iff.mpr (fun _ _ => UInt8.toNat_inj.mp) h
    have hs : String.ofList s = String.ofList t :=
      String.toByteArray_inj.mp (congrArg List.toByteArray hb)
    exact String.ofList_inj.mp hs
  · exact congrArg asBytes

theorem asBytes_eq_cons {s : Text} {b : Nat} {bs : List Nat} (hb : b < 128) :
    asBytes s = b :: bs ↔ ∃ c t, s = c :: t ∧ c.toNat = b ∧ asBytes t = bs := by
  cases s with
  | nil => simp [asBytes]
  | cons c t =>
    obtain ⟨hc, h⟩ | ⟨hc, b', bs', hb', h⟩ := asBytes_cons c t
    · rw [h]
      simp
    · rw [h, List.cons_eq_cons]
      refine iff_of_false (fun he => by omega) ?_
      rintro ⟨_, _, he, hb, -⟩
      cases he
      omega

theorem isAsciiDigit_iff {c : Char} : isAsciiDigit c.toNat = true ↔ c.isDigit = true := by
  simp only [isAsciiDigit, Char.isDigit, Bool.and_eq_true, decide_eq_true_eq, ge_iff_le,
    UInt32.le_iff_toNat_le]
  rfl

theorem lt_of_isAsciiDigit {b : Nat} (h : isAsciiDigit b = true) : b < 128 := by
  simp only [isAsciiDigit, Bool.and_eq_true, decide_eq_true_eq] at h
  omega

theorem isPatternName_iff {name : Text} : isPatternName name = true ↔ NamesPattern name := by
  unfold isPatternName
  constructor
  · intro h
    split at h
    · next b₀ b₁ b₂ bs hbytes =>
      simp only [Bool.and_eq_true, beq_iff_eq] at h
      obtain ⟨⟨h₀, h₁⟩, rfl⟩ := h
      obtain ⟨a, _, rfl, rfl, htail⟩ := (asBytes_eq_cons (lt_of_isAsciiDigit h₀)).mp hbytes
      obtain ⟨b, _, rfl, rfl, hlast⟩ := (asBytes_eq_cons (lt_of_isAsciiDigit h₁)).mp htail
      obtain ⟨c, rest, rfl, hc, -⟩ := (asBytes_eq_cons (by decide)).mp hlast
      have hdash : c = '-' := Char.toNat_inj.mp hc
      exact ⟨a, b, rest, by rw [hdash], isAsciiDigit_iff.mp h₀, isAsciiDigit_iff.mp h₁⟩
    · cases h
  · rintro ⟨a, b, rest, rfl, ha, hb⟩
    have h₀ := isAsciiDigit_iff.mpr ha
    have h₁ := isAsciiDigit_iff.mpr hb
    have hrest : asBytes ('-' :: rest) = 45 :: asBytes rest :=
      (asBytes_eq_cons (by decide)).mpr ⟨_, _, rfl, rfl, rfl⟩
    have hbytes : asBytes (a :: b :: '-' :: rest) = a.toNat :: b.toNat :: 45 :: asBytes rest := by
      refine (asBytes_eq_cons (lt_of_isAsciiDigit h₀)).mpr ⟨a, _, rfl, rfl, ?_⟩
      exact (asBytes_eq_cons (lt_of_isAsciiDigit h₁)).mpr ⟨b, _, rfl, rfl, hrest⟩
    rw [hbytes]
    simp [h₀, h₁]

-- ---------------------------------------------------------------------------
-- Discovery
-- ---------------------------------------------------------------------------

/-- One pass of the loop: the pattern an entry adds, if it is one. -/
def discoverEntry (patternsDir : Path) : Except ε Entry → Option Pattern
  | .error _ => none
  | .ok entry =>
    if entry.isDir = false then none
    else match entry.name with
    | none => none
    | some name =>
      if isPatternName name = false then none
      else
        let path := joinPath patternsDir name
        let naive := joinPath path "naive".toList
        let optimized := joinPath path "optimized".toList
        some {
          name := name
          dir := path
          naive := if entry.naive then some naive else none
          optimized := if entry.optimized then some optimized else none }

/-- `a.name.cmp(&b.name)`, which compares the bytes. -/
def NamesBefore (a b : Pattern) : Prop := asBytes a.name ≤ asBytes b.name

instance : DecidableRel NamesBefore := fun a b =>
  inferInstanceAs (Decidable (asBytes a.name ≤ asBytes b.name))

/-- A directory that cannot be read has no patterns. -/
def discoverPatterns (patternsDir : Path) : Except ε (Directory ε) → List Pattern
  | .error _ => []
  | .ok dir => (dir.entries.filterMap (discoverEntry patternsDir)).insertionSort NamesBefore

-- ---------------------------------------------------------------------------
-- What is discovered
-- ---------------------------------------------------------------------------

def recorded (patternsDir : Path) (name : Text) (naive optimized : Bool) : Pattern where
  name := name
  dir := joinPath patternsDir name
  naive := if naive then some (joinPath (joinPath patternsDir name) "naive".toList) else none
  optimized :=
    if optimized then some (joinPath (joinPath patternsDir name) "optimized".toList) else none

theorem discoverEntry_eq_some {patternsDir : Path} {e : Except ε Entry} {p : Pattern} :
    discoverEntry patternsDir e = some p ↔ ∃ name naive optimized,
      e = .ok ⟨some name, true, naive, optimized⟩ ∧ NamesPattern name ∧
        p = recorded patternsDir name naive optimized := by
  cases e with
  | error e => simp [discoverEntry]
  | ok entry =>
    obtain ⟨name, isDir, naive, optimized⟩ := entry
    cases isDir with
    | false => simp [discoverEntry]
    | true => cases name with
      | none => simp [discoverEntry]
      | some name =>
        simp only [discoverEntry, Bool.true_eq_false, if_false]
        by_cases hn : isPatternName name = true
        · have hpat := isPatternName_iff.mp hn
          simp only [hn, Bool.true_eq_false, if_false, Option.some.injEq, Except.ok.injEq,
            Entry.mk.injEq, true_and]
          constructor
          · rintro rfl
            exact ⟨name, naive, optimized, ⟨rfl, rfl, rfl⟩, hpat, rfl⟩
          · rintro ⟨_, _, _, ⟨rfl, rfl, rfl⟩, -, rfl⟩
            rfl
        · have hpat : ¬ NamesPattern name := fun h => hn (isPatternName_iff.mpr h)
          rw [if_pos (by simpa using hn)]
          simp only [reduceCtorEq, false_iff]
          rintro ⟨_, _, _, he, h, -⟩
          cases he
          exact hpat h

/-- The patterns of a directory: one for each subdirectory `NN-<name>`, with
the sides it has, in the order of their names. -/
structure Discovered (patternsDir : Path) (dir : Directory ε) (patterns : List Pattern) :
    Prop where
  ordered : patterns.Pairwise fun a b => asBytes a.name < asBytes b.name
  mem_iff : ∀ p, p ∈ patterns ↔ ∃ name naive optimized,
    .ok ⟨some name, true, naive, optimized⟩ ∈ dir.entries ∧ NamesPattern name ∧
      p = recorded patternsDir name naive optimized

theorem mem_discoverPatterns {patternsDir : Path} {dir : Directory ε} {p : Pattern} :
    p ∈ discoverPatterns patternsDir (.ok dir) ↔ ∃ name naive optimized,
      .ok ⟨some name, true, naive, optimized⟩ ∈ dir.entries ∧ NamesPattern name ∧
        p = recorded patternsDir name naive optimized := by
  simp only [discoverPatterns, List.mem_insertionSort, List.mem_filterMap, discoverEntry_eq_some]
  constructor
  · rintro ⟨_, he, name, naive, optimized, rfl, hn, hp⟩
    exact ⟨name, naive, optimized, he, hn, hp⟩
  · rintro ⟨name, naive, optimized, he, hn, hp⟩
    exact ⟨_, he, name, naive, optimized, rfl, hn, hp⟩

theorem NamesBefore.total (a b : Pattern) : NamesBefore a b ∨ NamesBefore b a :=
  le_total (asBytes a.name) (asBytes b.name)

instance : Std.Total NamesBefore := ⟨NamesBefore.total⟩

instance : IsTrans Pattern NamesBefore := ⟨fun _ _ _ => le_trans⟩

theorem nodup_names (patternsDir : Path) (dir : Directory ε) :
    ((dir.entries.filterMap (discoverEntry patternsDir)).map Pattern.name).Nodup := by
  refine dir.distinct.sublist ?_
  generalize dir.entries = entries
  induction entries with
  | nil => exact List.Sublist.refl []
  | cons e entries ih =>
    cases hp : discoverEntry patternsDir e with
    | none =>
      rw [List.filterMap_cons_none hp, List.filterMap_cons]
      split
      · exact ih
      · exact ih.cons _
    | some p =>
      obtain ⟨name, naive, optimized, rfl, -, rfl⟩ := discoverEntry_eq_some.mp hp
      rw [List.filterMap_cons_some hp]
      exact ih.cons_cons name

theorem discovered_discoverPatterns (patternsDir : Path) (dir : Directory ε) :
    Discovered patternsDir dir (discoverPatterns patternsDir (.ok dir)) where
  ordered := by
    have hperm := List.perm_insertionSort NamesBefore
      (dir.entries.filterMap (discoverEntry patternsDir))
    have hle := List.pairwise_insertionSort NamesBefore
      (dir.entries.filterMap (discoverEntry patternsDir))
    have hne := List.pairwise_map.mp ((hperm.map Pattern.name).nodup_iff.mpr
      (nodup_names patternsDir dir))
    refine (hle.and hne).imp ?_
    rintro a b ⟨hab, hn⟩
    exact lt_of_le_of_ne hab fun he => hn (asBytes_inj.mp he)
  mem_iff _ := mem_discoverPatterns

theorem Discovered.names_nodup {patternsDir : Path} {dir : Directory ε} {patterns : List Pattern}
    (h : Discovered patternsDir dir patterns) : (patterns.map Pattern.name).Nodup := by
  refine List.pairwise_map.mpr (h.ordered.imp ?_)
  intro a b hlt he
  rw [he] at hlt
  exact lt_irrefl _ hlt

theorem Discovered.nodup {patternsDir : Path} {dir : Directory ε} {patterns : List Pattern}
    (h : Discovered patternsDir dir patterns) : patterns.Nodup := h.names_nodup.of_map

theorem Discovered.unique {patternsDir : Path} {dir dir' : Directory ε}
    {patterns patterns' : List Pattern} (h : Discovered patternsDir dir patterns)
    (h' : Discovered patternsDir dir' patterns')
    (hdir : ∀ e, e ∈ dir.entries ↔ e ∈ dir'.entries) : patterns = patterns' := by
  refine List.Perm.eq_of_pairwise (fun a b _ _ hab hba => ?_) h.ordered h'.ordered ?_
  · exact absurd hba (lt_asymm hab)
  · refine (List.perm_ext_iff_of_nodup h.nodup h'.nodup).mpr fun p => ?_
    simp only [h.mem_iff, h'.mem_iff, hdir]

/-- The entries alone decide what is discovered, not the order in which the
file system lists them. -/
theorem patterns_discovered (patternsDir : Path) (dir : Directory ε) :
    Discovered patternsDir dir (discoverPatterns patternsDir (.ok dir)) ∧
      ∀ dir' patterns, (∀ e, e ∈ dir'.entries ↔ e ∈ dir.entries) →
        Discovered patternsDir dir' patterns →
          patterns = discoverPatterns patternsDir (.ok dir) :=
  ⟨discovered_discoverPatterns patternsDir dir, fun _ _ hdir h =>
    h.unique (discovered_discoverPatterns patternsDir dir) hdir⟩

example : (discoverPatterns "p".toList (.ok ⟨[.ok ⟨some "02-b".toList, true, true, false⟩,
      .ok ⟨some "README.md".toList, false, false, false⟩, .error (),
      .ok ⟨some "01-a".toList, true, true, true⟩], by decide, by decide⟩)).map Pattern.dir =
    ["p/01-a".toList, "p/02-b".toList] := by decide

end Harness
