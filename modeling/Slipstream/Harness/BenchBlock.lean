import Slipstream.Base.Layout
import Slipstream.Harness.BenchMd

/-!
# What an update does to a text

`updatedText_replace` and `updatedText_append` are the two branches of an
update, told by where the markers first stand. `IsBlock` is all they need to
know of a rendered block: it is closed by the only closing marker it holds.
-/

namespace Harness

open Search (find)

-- ---------------------------------------------------------------------------
-- Rendered blocks
-- ---------------------------------------------------------------------------

def Unmarked (t : Text) : Prop := benchBegin.Free t ∧ benchEnd.Free t

instance (t : Text) : Decidable (Unmarked t) := by
  unfold Unmarked
  infer_instance

structure BenchProvenance.Unmarked (prov : BenchProvenance) : Prop where
  os : Harness.Unmarked prov.os
  arch : Harness.Unmarked prov.arch
  rustc : Harness.Unmarked prov.rustc
  slipstreamVersion : Harness.Unmarked prov.slipstreamVersion
  contractsSha : Harness.Unmarked prov.contractsSha
  coreSha : Harness.Unmarked prov.coreSha
  runTime : Harness.Unmarked prov.runTime
  command : Harness.Unmarked prov.command

def BenchProvenance.unknown : BenchProvenance :=
  let u := "unknown".toList
  ⟨u, u, u, u, u, u, u, u⟩

theorem unmarked_unknown : BenchProvenance.unknown.Unmarked :=
  have h : Unmarked "unknown".toList := by decide
  ⟨h, h, h, h, h, h, h, h⟩

/-- Opened by the one marker, closed by the other, which stands nowhere else. -/
def IsBlock (block : Text) : Prop :=
  ∃ body, block = benchBegin.word ++ (body ++ benchEnd.word) ∧
    benchEnd.Free (benchBegin.word ++ body)

theorem not_mem_toString (n : Int) : '<' ∉ (toString n).toList := by
  intro h
  obtain he | hd := Layout.mem_toString h
  · exact absurd he (by decide)
  · exact absurd hd (by decide)

theorem not_mem_signedDelta (n : I64) : '<' ∉ signedDelta n := by
  have h := not_mem_toString n.val
  unfold signedDelta
  split
  · simpa using h
  · exact h

/-- Neither marker stands in the body of a block, nor runs over its beginning. -/
theorem free_benchBody {m : Marker Char} (hm : m ∈ [benchBegin, benchEnd]) {opening pattern : Text}
    {prov : BenchProvenance} (delta : ContentionDelta) (ho : m.Free opening)
    (hp : Unmarked pattern) (hv : prov.Unmarked) :
    m.Free (opening ++ benchBody pattern delta prov) := by
  have hfree {t : Text} (h : Unmarked t) : m.Free t := by
    obtain rfl | rfl := List.mem_pair.mp hm
    · exact h.1
    · exact h.2
  have hhead : m.head = '<' := by
    obtain rfl | rfl := List.mem_pair.mp hm <;> rfl
  have hplain {t : Text} (h : '<' ∉ t) : m.head ∉ t := hhead ▸ h
  have hlit {lit : Text} (h : ∀ m ∈ [benchBegin, benchEnd], m.Separates lit) : m.Separates lit :=
    h m hm
  unfold benchBody
  rw [← List.flatten_cons]
  refine (Marker.free_cons_separated (hlit (by decide))).mpr ⟨ho, ?_⟩
  refine (Marker.free_cons_separated (hlit (by decide))).mpr ⟨hfree hp, ?_⟩
  refine (Marker.free_plain_cons (hplain (by decide))).mpr ?_
  refine (Marker.free_plain_cons (hplain (not_mem_signedDelta _))).mpr ?_
  refine (Marker.free_plain_cons (hplain (by decide))).mpr ?_
  refine (Marker.free_plain_cons (hplain (not_mem_signedDelta _))).mpr ?_
  refine (Marker.free_plain_cons (hplain (by decide))).mpr ?_
  refine (Marker.free_plain_cons (hplain (not_mem_signedDelta _))).mpr ?_
  refine (Marker.free_plain_cons (hplain (by decide))).mpr ?_
  refine (Marker.free_cons_separated (hlit (by decide))).mpr ⟨hfree hv.os, ?_⟩
  refine (Marker.free_cons_separated (hlit (by decide))).mpr ⟨hfree hv.arch, ?_⟩
  refine (Marker.free_cons_separated (hlit (by decide))).mpr ⟨hfree hv.rustc, ?_⟩
  refine (Marker.free_cons_separated (hlit (by decide))).mpr ⟨hfree hv.slipstreamVersion, ?_⟩
  refine (Marker.free_cons_separated (hlit (by decide))).mpr ⟨hfree hv.contractsSha, ?_⟩
  refine (Marker.free_cons_separated (hlit (by decide))).mpr ⟨hfree hv.coreSha, ?_⟩
  refine (Marker.free_cons_separated (hlit (by decide))).mpr ⟨hfree hv.runTime, ?_⟩
  exact (Marker.free_cons_separated (hlit (by decide))).mpr ⟨hfree hv.command, Marker.free_nil⟩

variable {pattern : Text} {prov : BenchProvenance}

theorem render_isBlock (delta : ContentionDelta) (hp : Unmarked pattern) (hv : prov.Unmarked) :
    IsBlock (renderBenchBlock pattern delta prov) :=
  ⟨benchBody pattern delta prov, rfl, free_benchBody (by simp) delta (by decide) hp hv⟩

theorem render_opened_once (delta : ContentionDelta) (hp : Unmarked pattern) (hv : prov.Unmarked) :
    benchBegin.Free (renderBenchBlock pattern delta prov).tail := by
  have hbody : benchBegin.Free (benchBody pattern delta prov) :=
    free_benchBody List.mem_cons_self delta Marker.free_nil hp hv
  have hclose : benchBegin.Free benchEnd.word := by decide
  exact (Marker.free_plain_append benchBegin.fresh).mpr
    (Marker.free_append_head.mpr ⟨hbody, hclose⟩)

-- ---------------------------------------------------------------------------
-- The two branches of an update
-- ---------------------------------------------------------------------------

/-- Where both markers stand, the text from the first opening marker up to the
first closing one gives way to the block. -/
theorem updatedText_replace {a b c d block : Text} (ha : benchBegin.Free a) (hc : benchEnd.Free c)
    (h : a ++ (benchBegin.word ++ b) = c ++ (benchEnd.word ++ d)) :
    updatedText (a ++ (benchBegin.word ++ b)) block = a ++ block ++ d := by
  have hfirst := Marker.find_word (b := b) ha
  have hlast := Marker.find_word (b := d) hc
  rw [← h] at hlast
  unfold updatedText
  simp only [hfirst, hlast]
  rw [List.take_left, h, ← List.append_assoc c, ← List.length_append, List.drop_left]

/-- What is put between a text and the block appended to it. -/
def separator (t : Text) : Text :=
  if t = [] then [] else if t.getLast? = some '\n' then ['\n'] else ['\n', '\n']

theorem updatedText_append {t block : Text} (h : benchBegin.Free t ∨ benchEnd.Free t) :
    updatedText t block = t ++ separator t ++ block ++ ['\n'] := by
  unfold updatedText separator
  split
  · next hb he =>
    rcases h with h | h
    · rw [Marker.find_eq_none.mpr h] at hb
      cases hb
    · rw [Marker.find_eq_none.mpr h] at he
      cases he
  · by_cases hn : t = []
    · simp [hn]
    · by_cases hl : t.getLast? = some '\n' <;> simp [hn, hl]

theorem free_separator {m : Marker Char} {t : Text} (hm : '\n' ∉ m.word) (h : m.Free t) :
    m.Free (t ++ separator t) := by
  have hsep (lit : Text) (hl : m.Separates lit) : m.Free (t ++ lit) := by
    rw [← List.append_nil lit]
    exact (Marker.free_append_separated hl).mpr ⟨h, Marker.free_nil⟩
  unfold separator
  split
  · rwa [List.append_nil]
  · have hhead : m.head ≠ '\n' := fun he => hm (he ▸ List.mem_cons_self)
    split
    · exact hsep _ ⟨hm, List.not_mem_nil⟩
    · exact hsep _ ⟨hm, by simpa using hhead⟩

theorem newline_not_mem_begin : '\n' ∉ benchBegin.word := by decide

theorem newline_not_mem_end : '\n' ∉ benchEnd.word := by decide

theorem Unmarked.separator {t : Text} (h : Unmarked t) : Unmarked (t ++ separator t) :=
  ⟨free_separator newline_not_mem_begin h.1, free_separator newline_not_mem_end h.2⟩

/-- A block on its own: an update of it keeps what stands around it. -/
theorem updatedText_block {pre post old block : Text} (hpre : Unmarked pre) (hold : IsBlock old) :
    updatedText (pre ++ (old ++ post)) block = pre ++ block ++ post := by
  obtain ⟨body, rfl, hbody⟩ := hold
  have hlast : benchEnd.Free (pre ++ (benchBegin.word ++ body)) :=
    Marker.free_append_head.mpr ⟨hpre.2, hbody⟩
  rw [List.append_assoc]
  exact updatedText_replace hpre.1 hlast (by simp only [List.append_assoc])

-- ---------------------------------------------------------------------------
-- On a file
-- ---------------------------------------------------------------------------

variable {ε : Type}

/-- An update would change the text; a missing file reads as an empty one. -/
def File.Stale (file : File ε) (block : Text) : Prop :=
  updatedText (file.content.getD []) block ≠ file.content.getD []

/-- What an update does: it fails to read, finds nothing to change, fails to
write, or writes. -/
theorem update_cases (file : File ε) (block : Text) :
    (∃ e, file.readError = some e ∧ updateBenchMd file block = (.error e, file)) ∨
    (file.readError = none ∧ ¬ file.Stale block ∧ updateBenchMd file block = (.ok false, file)) ∨
    (file.readError = none ∧ file.Stale block ∧ ∃ e left, file.writeError = some (e, left) ∧
      updateBenchMd file block = (.error e, { file with content := left })) ∨
    (file.readError = none ∧ file.Stale block ∧ file.writeError = none ∧
      updateBenchMd file block =
        (.ok true, { file with content := some (updatedText (file.content.getD []) block) })) := by
  obtain ⟨content, readError, writeError⟩ := file
  cases readError with
  | some e => exact .inl ⟨e, rfl, rfl⟩
  | none =>
    by_cases h : updatedText (content.getD []) block = content.getD []
    · refine .inr (.inl ⟨rfl, not_not_intro h, ?_⟩)
      cases content <;> exact if_pos h
    · cases writeError with
      | some w =>
        refine .inr (.inr (.inl ⟨rfl, h, w.1, w.2, rfl, ?_⟩))
        cases content <;> exact if_neg h
      | none =>
        refine .inr (.inr (.inr ⟨rfl, h, rfl, ?_⟩))
        cases content <;> exact if_neg h

/-- The file is read and needs a change, which is written. -/
def File.Rewrites (file : File ε) (block : Text) : Prop :=
  file.readError = none ∧ file.Stale block ∧ file.writeError = none

/-- The file cannot be read, or needs a change that cannot be written. -/
def File.Refuses (file : File ε) (block : Text) : Prop :=
  file.readError ≠ none ∨ (file.Stale block ∧ file.writeError ≠ none)

/-- The file is read and needs no change. -/
def File.Current (file : File ε) (block : Text) : Prop :=
  file.readError = none ∧ ¬ file.Stale block

theorem update_eq_true {file : File ε} {block : Text} :
    (updateBenchMd file block).1 = .ok true ↔ file.Rewrites block := by
  obtain ⟨e, hr, h⟩ | ⟨-, hs, h⟩ | ⟨-, -, e, left, hw, h⟩ | ⟨hr, hs, hw, h⟩ :=
    update_cases file block
  · simp [h, File.Rewrites, hr]
  · simp [h, File.Rewrites, hs]
  · simp [h, File.Rewrites, hw]
  · simp [h, File.Rewrites, hr, hs, hw]

theorem update_eq_false {file : File ε} {block : Text} :
    (updateBenchMd file block).1 = .ok false ↔ file.Current block := by
  obtain ⟨e, hr, h⟩ | ⟨hr, hs, h⟩ | ⟨-, hs, e, left, -, h⟩ | ⟨-, hs, -, h⟩ :=
    update_cases file block
  · simp [h, File.Current, hr]
  · simp [h, File.Current, hr, hs]
  · simp [h, File.Current, hs]
  · simp [h, File.Current, hs]

theorem update_eq_self {file : File ε} {block : Text} :
    updateBenchMd file block = (.ok false, file) ↔ file.Current block := by
  obtain ⟨e, hr, h⟩ | ⟨hr, hs, h⟩ | ⟨-, hs, e, left, -, h⟩ | ⟨-, hs, -, h⟩ :=
    update_cases file block
  · simp [h, File.Current, hr]
  · simp [h, File.Current, hr, hs]
  · simp [h, File.Current, hs]
  · simp [h, File.Current, hs]

theorem update_eq_error {file : File ε} {block : Text} :
    (∃ e, (updateBenchMd file block).1 = .error e) ↔ file.Refuses block := by
  obtain ⟨e, hr, h⟩ | ⟨hr, hs, h⟩ | ⟨hr, hs, e, left, hw, h⟩ | ⟨hr, hs, hw, h⟩ :=
    update_cases file block
  · simp [h, File.Refuses, hr]
  · simp [h, File.Refuses, hr, hs]
  · simp [h, File.Refuses, hr, hs, hw]
  · simp [h, File.Refuses, hr, hw]

theorem stale_none (block : Text) : (File.holding none : File ε).Stale block := by
  unfold File.Stale
  rw [File.holding, Option.getD_none, updatedText_append (.inl Marker.free_nil)]
  simp

/-- A missing file reads as an empty one, but is no longer missing afterwards. -/
theorem update_holding (content : Option Text) (block : Text) :
    updateBenchMd (File.holding content : File ε) block =
      (.ok (decide (some (updatedText (content.getD []) block) ≠ content)),
        File.holding (some (updatedText (content.getD []) block))) := by
  obtain ⟨e, he, -⟩ | ⟨-, hs, h⟩ | ⟨-, -, e, left, he, -⟩ | ⟨-, hs, -, h⟩ :=
    update_cases (File.holding content : File ε) block
  · cases he
  · cases content with
    | none => exact absurd (stale_none block) hs
    | some t =>
      have ht : updatedText t block = t := not_not.mp hs
      rw [h, Option.getD_some, ht, decide_eq_false (not_not_intro rfl)]
  · cases he
  · have hne : some (updatedText (content.getD []) block) ≠ content := by
      cases content with
      | none => exact nofun
      | some t => exact fun he => hs (Option.some.inj he)
    rw [h, decide_eq_true hne]
    rfl

end Harness
