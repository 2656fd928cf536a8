import Slipstream.Harness.BenchBlock

/-!
# When an update is idempotent

A second update with the same block finds the first one's block just when the
text held neither marker, or its first opening marker before its first closing
one. In every other arrangement the second update matches a marker that was
there before with one of the block, and the text changes again.
-/

namespace Harness

open Search (find)

/-- Neither marker, or both with the first opening one first. -/
def WellMarked (t : Text) : Prop :=
  match find benchBegin.word t, find benchEnd.word t with
  | none, none => True
  | some first, some last => first < last
  | _, _ => False

instance (t : Text) : Decidable (WellMarked t) := by
  unfold WellMarked
  split <;> infer_instance

variable {t a b c d block : Text}

theorem twice_of_unmarked (ht : Unmarked t) (hblock : IsBlock block) :
    updatedText (updatedText t block) block = updatedText t block := by
  have h : updatedText (t ++ separator t ++ (block ++ ['\n'])) block =
      t ++ separator t ++ block ++ ['\n'] := updatedText_block ht.separator hblock
  rwa [← List.append_assoc, ← updatedText_append (.inl ht.1)] at h

theorem twice_of_ordered (ha : Unmarked a) (hc : benchEnd.Free c) (hblock : IsBlock block)
    (h : a ++ (benchBegin.word ++ b) = c ++ (benchEnd.word ++ d)) :
    updatedText (updatedText (a ++ (benchBegin.word ++ b)) block) block =
      updatedText (a ++ (benchBegin.word ++ b)) block := by
  rw [updatedText_replace ha.1 hc h, List.append_assoc a block d, updatedText_block ha hblock,
    List.append_assoc]

/-- The stray opening marker is matched with the closing one of the block. -/
theorem twice_of_begin_only (ht : t = a ++ (benchBegin.word ++ b)) (ha : benchBegin.Free a)
    (he : benchEnd.Free t) (hblock : IsBlock block) :
    updatedText (updatedText t block) block ≠ updatedText t block := by
  obtain ⟨body, hshape, hbody⟩ := hblock
  have hnew : updatedText t block =
      a ++ (benchBegin.word ++ (b ++ (separator t ++ (block ++ ['\n'])))) := by
    rw [updatedText_append (.inr he)]
    nth_rewrite 1 [ht]
    simp only [List.append_assoc]
  have hlast : benchEnd.Free (t ++ separator t ++ (benchBegin.word ++ body)) :=
    Marker.free_append_head.mpr ⟨free_separator newline_not_mem_end he, hbody⟩
  have hmatch : a ++ (benchBegin.word ++ (b ++ (separator t ++ (block ++ ['\n'])))) =
      t ++ separator t ++ (benchBegin.word ++ body) ++ (benchEnd.word ++ ['\n']) := by
    nth_rewrite 2 [ht]
    simp only [hshape, List.append_assoc]
  intro h
  rw [hnew, updatedText_replace ha hlast hmatch] at h
  have hlen := congrArg List.length h
  simp only [List.length_append, Marker.length_word] at hlen
  omega

/-- The opening marker of the block is matched with the stray closing one. -/
theorem twice_of_end_only (ht : t = c ++ (benchEnd.word ++ d)) (hc : benchEnd.Free c)
    (hb : benchBegin.Free t) (hblock : IsBlock block) :
    updatedText (updatedText t block) block ≠ updatedText t block := by
  obtain ⟨body, hshape, -⟩ := hblock
  have hnew : updatedText t block =
      t ++ separator t ++ (benchBegin.word ++ (body ++ (benchEnd.word ++ ['\n']))) := by
    rw [updatedText_append (.inl hb), hshape]
    simp only [List.append_assoc]
  have hmatch : t ++ separator t ++ (benchBegin.word ++ (body ++ (benchEnd.word ++ ['\n']))) =
      c ++ (benchEnd.word ++ (d ++ (separator t ++ (block ++ ['\n'])))) := by
    nth_rewrite 1 [ht]
    simp only [hshape, List.append_assoc]
  intro h
  rw [hnew, updatedText_replace (free_separator newline_not_mem_begin hb) hc hmatch] at h
  have hlen := congrArg List.length h
  simp only [hshape, List.length_append, Marker.length_word] at hlen
  omega

/-- The opening marker is matched with the closing one before it again. -/
theorem twice_of_reversed {r : Text} (hc : benchEnd.Free c)
    (ha : benchBegin.Free (c ++ (benchEnd.word ++ r)))
    (ht : t = c ++ (benchEnd.word ++ r) ++ (benchBegin.word ++ b)) (hblock : IsBlock block) :
    updatedText (updatedText t block) block ≠ updatedText t block := by
  obtain ⟨body, hshape, -⟩ := hblock
  obtain ⟨d, hd⟩ : ∃ d, d = r ++ (benchBegin.word ++ b) := ⟨_, rfl⟩
  have hmatch : c ++ (benchEnd.word ++ r) ++ (benchBegin.word ++ b) =
      c ++ (benchEnd.word ++ d) := by
    simp only [hd, List.append_assoc]
  have hnew : updatedText t block = c ++ (benchEnd.word ++ r) ++
      (benchBegin.word ++ (body ++ (benchEnd.word ++ d))) := by
    rw [ht, updatedText_replace ha hc hmatch, hshape]
    simp only [List.append_assoc]
  have hmatch' : c ++ (benchEnd.word ++ r) ++ (benchBegin.word ++ (body ++ (benchEnd.word ++ d))) =
      c ++ (benchEnd.word ++ (r ++ (block ++ d))) := by
    simp only [hshape, List.append_assoc]
  intro h
  rw [hnew, updatedText_replace ha hc hmatch'] at h
  have hlen := congrArg List.length h
  simp only [hshape, List.length_append, Marker.length_word] at hlen
  omega

-- ---------------------------------------------------------------------------
-- Every text
-- ---------------------------------------------------------------------------

theorem begin_ne_end : benchBegin.word ++ b ≠ benchEnd.word ++ d := by
  intro h
  have hp : benchEnd.word <+: benchBegin.word := by
    refine List.prefix_of_prefix_length_le ?_ (List.prefix_append benchBegin.word b) (by decide)
    rw [h]
    exact List.prefix_append ..
  exact absurd hp (by decide)

/-- A closing marker that stands before an opening one ends before it. -/
theorem eq_append_of_lt (h : a ++ (benchBegin.word ++ b) = c ++ (benchEnd.word ++ d))
    (hlt : c.length < a.length) : ∃ r, a = c ++ (benchEnd.word ++ r) := by
  have hca : c <+: a := by
    refine List.prefix_of_prefix_length_le (h ▸ List.prefix_append ..)
      (List.prefix_append a (benchBegin.word ++ b)) (Nat.le_of_lt hlt)
  obtain ⟨s, rfl⟩ := hca
  rw [List.append_assoc, List.append_cancel_left_eq] at h
  have hs : s ≠ [] := by
    rintro rfl
    simp at hlt
  have hp : benchEnd.word <+: s ++ benchEnd.head :: (benchBegin.tail ++ b) :=
    ⟨d, h.symm⟩
  obtain ⟨r, hr⟩ := Marker.prefix_of_append_head hs hp
  exact ⟨r, by rw [hr]⟩

theorem twice_iff (hblock : IsBlock block) (t : Text) :
    updatedText (updatedText t block) block = updatedText t block ↔ WellMarked t := by
  unfold WellMarked
  cases hfirst : find benchBegin.word t with
  | none =>
    have hb := Marker.find_eq_none.mp hfirst
    cases hlast : find benchEnd.word t with
    | none =>
      exact iff_of_true (twice_of_unmarked ⟨hb, Marker.find_eq_none.mp hlast⟩ hblock) trivial
    | some last =>
      obtain ⟨c, d, ht, -, hc⟩ := Marker.find_eq_some hlast
      exact iff_of_false (twice_of_end_only ht hc hb hblock) id
  | some first =>
    obtain ⟨a, b, rfl, rfl, ha⟩ := Marker.find_eq_some hfirst
    cases hlast : find benchEnd.word (a ++ (benchBegin.word ++ b)) with
    | none =>
      exact iff_of_false (twice_of_begin_only rfl ha (Marker.find_eq_none.mp hlast) hblock) id
    | some last =>
      obtain ⟨c, d, h, rfl, hc⟩ := Marker.find_eq_some hlast
      rcases Nat.lt_trichotomy a.length c.length with hlt | heq | hgt
      · have hac : a <+: c := List.prefix_of_prefix_length_le (List.prefix_append ..)
          (h ▸ List.prefix_append c (benchEnd.word ++ d)) (Nat.le_of_lt hlt)
        exact iff_of_true (twice_of_ordered ⟨ha, hc.of_prefix hac⟩ hc hblock h) hlt
      · exact absurd (List.append_inj_right h heq) begin_ne_end
      · obtain ⟨r, rfl⟩ := eq_append_of_lt h hgt
        exact iff_of_false (twice_of_reversed hc ha rfl hblock) (Nat.lt_asymm hgt)

/-- The block stands in the text, behind no marker. -/
def HoldsBlock (block t : Text) : Prop := ∃ pre post, Unmarked pre ∧ t = pre ++ (block ++ post)

theorem updatedText_eq_self (hblock : IsBlock block) :
    updatedText t block = t ↔ HoldsBlock block t := by
  constructor
  · intro h
    have hgrow (h' : updatedText t block = t ++ separator t ++ block ++ ['\n']) : False := by
      have hlen := congrArg List.length (h.symm.trans h')
      simp only [List.length_append, List.length_singleton] at hlen
      omega
    cases hfirst : find benchBegin.word t with
    | none => exact (hgrow (updatedText_append (.inl (Marker.find_eq_none.mp hfirst)))).elim
    | some first =>
      cases hlast : find benchEnd.word t with
      | none => exact (hgrow (updatedText_append (.inr (Marker.find_eq_none.mp hlast)))).elim
      | some last =>
        obtain ⟨a, b, rfl, -, ha⟩ := Marker.find_eq_some hfirst
        obtain ⟨c, d, hcut, -, hc⟩ := Marker.find_eq_some hlast
        have hnew : updatedText (a ++ (benchBegin.word ++ b)) block = a ++ block ++ d :=
          updatedText_replace ha hc hcut
        rcases Nat.lt_trichotomy a.length c.length with hlt | heq | hgt
        · have hac : a <+: c := List.prefix_of_prefix_length_le (List.prefix_append ..)
            (hcut ▸ List.prefix_append c (benchEnd.word ++ d)) (Nat.le_of_lt hlt)
          exact ⟨a, d, ⟨ha, hc.of_prefix hac⟩, (h.symm.trans hnew).trans (List.append_assoc ..)⟩
        · exact absurd (List.append_inj_right hcut heq) begin_ne_end
        · -- the closing marker would stand before the block that it closes
          obtain ⟨r, rfl⟩ := eq_append_of_lt hcut hgt
          obtain ⟨body, rfl, -⟩ := hblock
          have hlen := congrArg List.length (h.symm.trans hnew)
          rw [hcut] at hlen
          simp only [List.length_append, Marker.length_word] at hlen
          omega
  · rintro ⟨pre, post, hpre, rfl⟩
    rw [updatedText_block hpre hblock, List.append_assoc]

-- ---------------------------------------------------------------------------
-- The file
-- ---------------------------------------------------------------------------

/-- A second update with the same block changes nothing, and says so. -/
def UpdatesOnce {ε : Type} (file : File ε) (block : Text) : Prop :=
  updateBenchMd (updateBenchMd file block).2 block = (.ok false, (updateBenchMd file block).2)

/-- The file can be read. Where it can be written, its markers are in order;
where it cannot, it holds the block, or does once the write has failed. -/
def File.Repeatable {ε : Type} (file : File ε) (block : Text) : Prop :=
  file.readError = none ∧ match file.writeError with
    | none => WellMarked (file.content.getD [])
    | some (_, left) => HoldsBlock block (file.content.getD []) ∨ HoldsBlock block (left.getD [])

variable {ε : Type} {file : File ε}

theorem repeatable_holding (content : Option Text) (block : Text) :
    (File.holding content : File ε).Repeatable block ↔ WellMarked (content.getD []) :=
  and_iff_right rfl

theorem stale_iff (hblock : IsBlock block) :
    ¬ file.Stale block ↔ HoldsBlock block (file.content.getD []) :=
  not_not.trans (updatedText_eq_self hblock)

theorem updatesOnce_iff (hblock : IsBlock block) :
    UpdatesOnce file block ↔ file.Repeatable block := by
  unfold UpdatesOnce File.Repeatable
  obtain ⟨e, hr, h⟩ | ⟨hr, hs, h⟩ | ⟨hr, hs, e, left, hw, h⟩ | ⟨hr, hs, hw, h⟩ :=
    update_cases file block
  · rw [h, update_eq_self, File.Current, hr]
    simp
  · rw [h, update_eq_self, File.Current]
    refine iff_of_true ⟨hr, hs⟩ ⟨hr, ?_⟩
    cases hw : file.writeError with
    | none =>
      refine (twice_iff hblock _).mp ?_
      rw [not_not.mp hs, not_not.mp hs]
    | some w => exact .inl ((stale_iff hblock).mp hs)
  · rw [h, update_eq_self, File.Current, stale_iff hblock, hw]
    have hcontent := mt (stale_iff hblock).mpr (not_not_intro hs)
    exact and_congr_right' (or_iff_right hcontent).symm
  · rw [h, update_eq_self, File.Current, hw]
    exact and_congr_right' (not_not.trans (twice_iff hblock _))

/-- For every file, the errors of reading and writing it included. -/
theorem update_idempotent_iff (file : File ε) (pattern : Text) (delta : ContentionDelta)
    (prov : BenchProvenance) (hp : Unmarked pattern) (hv : prov.Unmarked) :
    UpdatesOnce file (renderBenchBlock pattern delta prov) ↔
      file.Repeatable (renderBenchBlock pattern delta prov) :=
  updatesOnce_iff (render_isBlock delta hp hv)

theorem update_idempotent_iff_titled :
    let file : File Empty := File.holding (some "# Pattern\n".toList)
    let block := renderBenchBlock "01-alpha".toList ⟨⟨-1, by decide, by decide⟩,
      ⟨2, by decide, by decide⟩, ⟨-1, by decide, by decide⟩⟩ .unknown
    UpdatesOnce file block ↔ file.Repeatable block :=
  update_idempotent_iff _ _ _ _ (by decide) unmarked_unknown

/-- With the closing marker before the opening one, a second update changes the
file again. -/
theorem reversed_markers_repeat :
    ¬ UpdatesOnce (File.holding (some
        "<!-- BENCH-MEASURED-END -->\n<!-- BENCH-MEASURED-BEGIN -->\n".toList) : File Empty)
      (renderBenchBlock "01-alpha".toList ⟨⟨-1, by decide, by decide⟩, ⟨2, by decide, by decide⟩,
        ⟨-1, by decide, by decide⟩⟩ .unknown) := by
  rw [updatesOnce_iff (render_isBlock _ (by decide) unmarked_unknown), repeatable_holding]
  decide

end Harness
