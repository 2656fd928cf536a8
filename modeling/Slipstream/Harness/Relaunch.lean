import Slipstream.Harness.Corpus

/-!
# Measuring again

What a second launch finds to do after a first one. A block tells its deltas
and its provenance, so two blocks of one pattern are the same only where both
are; the time of the run is part of the provenance.
-/

namespace Harness

open Search (find)

-- ---------------------------------------------------------------------------
-- What a block tells
-- ---------------------------------------------------------------------------

def BenchProvenance.text (prov : BenchProvenance) : Text :=
  [prov.os, ", arch=".toList, prov.arch, ", rustc=".toList, prov.rustc, ", slipstream=".toList,
    prov.slipstreamVersion, ", contracts@".toList, prov.contractsSha, ", core@".toList,
    prov.coreSha, ", run=".toList, prov.runTime, ", command=`".toList, prov.command,
    "`_\n\n".toList].flatten

theorem signedDelta_injective {n m : I64} (h : signedDelta n = signedDelta m) : n = m := by
  have hplus (k : Int) (t : Text) : (toString k).toList ≠ '+' :: t := by
    intro hk
    have hmem : '+' ∈ (toString k).toList := hk ▸ List.mem_cons_self
    exact (Layout.mem_toString hmem).elim (by decide) (by decide)
  unfold signedDelta at h
  refine Ranged.val_inj.mp (Layout.toString_injective ?_)
  split at h
  · split at h
    · exact (List.cons.inj h).2
    · exact absurd h.symm (hplus _ _)
  · split at h
    · exact absurd h (hplus _ _)
    · exact h

theorem space_notMem_signedDelta (n : I64) : ' ' ∉ signedDelta n := by
  have h : ' ' ∉ (toString n.val).toList :=
    fun hmem => (Layout.mem_toString hmem).elim (by decide) (by decide)
  unfold signedDelta
  split
  · simpa using h
  · exact h

theorem literal_inj {lit : Text} {ps qs : List Text} :
    (lit :: ps).flatten = (lit :: qs).flatten ↔ ps.flatten = qs.flatten :=
  List.append_right_inj lit

theorem delta_inj {n m : I64} {lit : Text} {ps qs : List Text} :
    (signedDelta n :: (' ' :: lit) :: ps).flatten = (signedDelta m :: (' ' :: lit) :: qs).flatten ↔
      n = m ∧ ps.flatten = qs.flatten := by
  have h := Layout.field_inj (s := lit ++ ps.flatten) (t := lit ++ qs.flatten)
    (space_notMem_signedDelta n) (space_notMem_signedDelta m)
  rw [List.append_right_inj] at h
  exact h.trans (and_congr_left' ⟨signedDelta_injective, congrArg signedDelta⟩)

variable {pattern : Text} {delta delta' : ContentionDelta} {prov prov' : BenchProvenance}

theorem render_inj : renderBenchBlock pattern delta prov = renderBenchBlock pattern delta' prov' ↔
    delta = delta' ∧ prov.text = prov'.text := by
  unfold renderBenchBlock
  rw [List.append_right_inj, List.append_left_inj]
  unfold benchBody
  refine literal_inj.trans <| literal_inj.trans <| literal_inj.trans <| literal_inj.trans ?_
  refine delta_inj.trans ?_
  refine (and_congr_right' delta_inj).trans ?_
  refine (and_congr_right' (and_congr_right' delta_inj)).trans ?_
  obtain ⟨w, r, f⟩ := delta
  obtain ⟨w', r', f'⟩ := delta'
  rw [ContentionDelta.mk.injEq, and_assoc, and_assoc]
  rfl

-- ---------------------------------------------------------------------------
-- An update after another
-- ---------------------------------------------------------------------------

variable {t pre post block block' : Text}

/-- The block stands in the text that an update leaves, behind one marker at
most. -/
theorem updatedText_shape (t block : Text) : ∃ pre post,
    updatedText t block = pre ++ (block ++ post) ∧ (benchBegin.Free pre ∨ benchEnd.Free pre) := by
  have happend (h : benchBegin.Free t ∨ benchEnd.Free t) : ∃ pre post,
      updatedText t block = pre ++ (block ++ post) ∧
        (benchBegin.Free pre ∨ benchEnd.Free pre) :=
    ⟨t ++ separator t, ['\n'], by rw [updatedText_append h, List.append_assoc],
      h.imp (free_separator newline_not_mem_begin) (free_separator newline_not_mem_end)⟩
  cases hfirst : find benchBegin.word t with
  | none => exact happend (.inl (Marker.find_eq_none.mp hfirst))
  | some first =>
    cases hlast : find benchEnd.word t with
    | none => exact happend (.inr (Marker.find_eq_none.mp hlast))
    | some last =>
      obtain ⟨a, b, rfl, -, ha⟩ := Marker.find_eq_some hfirst
      obtain ⟨c, d, hcut, -, hc⟩ := Marker.find_eq_some hlast
      exact ⟨a, d, by rw [updatedText_replace ha hc hcut, List.append_assoc], .inl ha⟩

/-- Two blocks that end at one place, the second opened once. -/
theorem eq_of_append_block {pre' : Text} (hblock : IsBlock block) (hblock' : IsBlock block')
    (honce : benchBegin.Free block'.tail) (hpre' : benchBegin.Free pre')
    (h : pre ++ block = pre' ++ block') : block' = block := by
  obtain ⟨body, rfl, -⟩ := hblock
  obtain ⟨body', rfl, -⟩ := hblock'
  obtain ⟨x, hx, hb⟩ | ⟨x, hx, hb⟩ := List.append_eq_append_iff.mp h
  · cases x with
    | nil => exact hb.symm
    | cons y x =>
      have hp : benchBegin.word <+: y :: x ++ benchBegin.head :: (benchBegin.tail ++
          (body' ++ benchEnd.word)) := ⟨_, hb⟩
      have hin := (Marker.prefix_of_append_head (List.cons_ne_nil y x) hp).isInfix
      exact absurd (hin.trans ⟨pre, [], by rw [hx, List.append_nil]⟩) hpre'
  · cases x with
    | nil => exact hb
    | cons y x =>
      have hin : benchBegin.word <:+: (benchBegin.word ++ (body' ++ benchEnd.word)).tail := by
        rw [hb]
        exact List.infix_append_of_infix_right (List.prefix_append ..).isInfix
      exact absurd hin honce

theorem eq_of_updatedText (hblock : IsBlock block) (hblock' : IsBlock block')
    (honce : benchBegin.Free block'.tail)
    (h : updatedText (updatedText t block) block' = updatedText t block) : block' = block := by
  obtain ⟨pre', post', hpre', ht⟩ := (updatedText_eq_self hblock').mp h
  obtain ⟨pre, post, hs, hpre⟩ := updatedText_shape t block
  obtain ⟨body, hshape, hbody⟩ := id hblock
  obtain ⟨body', hshape', hbody'⟩ := id hblock'
  have heq : pre ++ (block ++ post) = pre' ++ (block' ++ post') := hs.symm.trans ht
  rcases hpre with hpre | hpre
  · have hopen : pre ++ (benchBegin.word ++ (body ++ (benchEnd.word ++ post))) =
        pre' ++ (benchBegin.word ++ (body' ++ (benchEnd.word ++ post'))) := by
      simpa only [hshape, hshape', List.append_assoc] using heq
    obtain ⟨rfl, -⟩ := Marker.append_word_inj hpre hpre'.1 hopen
    have hclose : benchBegin.word ++ body ++ (benchEnd.word ++ post) =
        benchBegin.word ++ body' ++ (benchEnd.word ++ post') := by
      simpa only [List.append_assoc] using List.append_cancel_left hopen
    have hbodies := (Marker.append_word_inj hbody hbody' hclose).1
    rw [hshape, hshape', List.append_cancel_left hbodies]
  · have hfree : benchEnd.Free (pre ++ (benchBegin.word ++ body)) :=
      Marker.free_append_head.mpr ⟨hpre, hbody⟩
    have hfree' : benchEnd.Free (pre' ++ (benchBegin.word ++ body')) :=
      Marker.free_append_head.mpr ⟨hpre'.2, hbody'⟩
    have hcut : pre ++ (benchBegin.word ++ body) ++ (benchEnd.word ++ post) =
        pre' ++ (benchBegin.word ++ body') ++ (benchEnd.word ++ post') := by
      simpa only [hshape, hshape', List.append_assoc] using heq
    have hends := (Marker.append_word_inj hfree hfree' hcut).1
    have hblocks : pre ++ block = pre' ++ block' := by
      simpa only [hshape, hshape', List.append_assoc] using congrArg (· ++ benchEnd.word) hends
    exact eq_of_append_block hblock hblock' honce hpre'.1 hblocks

theorem updatedText_settled_iff (hblock : IsBlock block) (hblock' : IsBlock block')
    (honce : benchBegin.Free block'.tail) (t : Text) :
    updatedText (updatedText t block) block' = updatedText t block ↔
      block' = block ∧ WellMarked t := by
  constructor
  · intro h
    obtain rfl := eq_of_updatedText hblock hblock' honce h
    exact ⟨rfl, (twice_iff hblock t).mp h⟩
  · rintro ⟨rfl, ht⟩
    exact (twice_iff hblock t).mpr ht

-- ---------------------------------------------------------------------------
-- A launch after another
-- ---------------------------------------------------------------------------

variable {ε : Type} (display : ε → Text)

theorem benchStep_settled_iff (content : Option Text) (m m' : Measurement) :
    (benchStep (benchStep (File.holding content : File ε) m).2 m').2 =
      (benchStep (File.holding content : File ε) m).2 ↔
        m'.block = m.block ∧ WellMarked (content.getD []) := by
  rw [benchStep_holding, benchStep_holding, holding_inj, Option.some.injEq, Option.getD_some]
  exact updatedText_settled_iff m.isBlock m'.isBlock
    (render_opened_once m'.delta m'.unmarkedPattern m'.unmarkedProv) _

section
variable {parse : Text → Except Text DiffReport} {l l' : Launch ε} {path : Path}
  {m m' : Measurement}

theorem System.Holds.separated {sys : System ε} {dir : Path} {name : Text}
    {naive optimized : Bool} (h : sys.Holds dir name naive optimized) :
    '/' ∉ name ∧ name ≠ [] := by
  obtain ⟨⟨a, b, rest, rfl, -, -⟩, entries, -, he⟩ := h
  exact ⟨entries.separated _ (mem_names he), List.cons_ne_nil _ _⟩

theorem Launch.measured_pattern (h : l.measured parse path = some m)
    (h' : l'.measured parse path = some m') : m'.pattern = m.pattern := by
  obtain ⟨dir, -, -, name, hh, rfl, -, rfl, -⟩ := l.measured_iff.mp h
  obtain ⟨dir', -, -, name', hh', hpath, -, rfl, -⟩ := l'.measured_iff.mp h'
  exact joinPath_inj hh'.separated.1 hh.separated.1 hh'.separated.2 hh.separated.2 hpath

theorem Launch.measured_block (h : l.measured parse path = some m)
    (h' : l'.measured parse path = some m') :
    m'.block = m.block ↔ m'.delta = m.delta ∧ m'.prov.text = m.prov.text := by
  unfold Measurement.block
  rw [Launch.measured_pattern h h']
  exact render_inj

/-- The same launch at another time. -/
def Launch.at (l : Launch ε) (time : Option Nat) : Launch ε where
  sys := { l.sys with time }
  unmarkedNames := l.unmarkedNames
  unmarkedProv dir hdir := { l.unmarkedProv dir hdir with runTime := unmarked_unixTs time }

theorem unixTs_injective : Function.Injective unixTs := by
  have hunknown (n : Nat) : unixTs (some n) ≠ unixTs none := by
    intro h
    have hu : 'u' ∈ (toString (n : Int)).toList := by
      change 'u' ∈ unixTs (some n)
      rw [h]
      decide
    exact (Layout.mem_toString hu).elim (by decide) (by decide)
  intro a b h
  cases a with
  | none =>
    cases b with
    | none => rfl
    | some n => exact absurd h.symm (hunknown n)
  | some n =>
    cases b with
    | none => exact absurd h (hunknown n)
    | some k => exact congrArg some (Int.ofNat.inj (Layout.toString_injective h))

theorem text_at (prov : BenchProvenance) (runTime : Text) :
    ({ prov with runTime } : BenchProvenance).text = prov.text ↔ runTime = prov.runTime := by
  simp only [BenchProvenance.text, List.flatten_cons, List.append_cancel_left_eq,
    List.append_cancel_right_eq]

theorem Launch.measured_at (h : l.measured parse path = some m) (time : Option Nat) :
    ∃ m', (l.at time).measured parse path = some m' ∧
      (m'.block = m.block ↔ time = l.sys.time) := by
  obtain ⟨dir, hdir, hlaunch, name, hh, hpath, hrep, hname, hprov⟩ := l.measured_iff.mp h
  have hunmarked := (l.at time).unmarkedProv dir hdir
  refine ⟨⟨m.pattern, m.delta, _, m.unmarkedPattern, hunmarked⟩, (l.at time).measured_iff.mpr
    ⟨dir, hdir, hlaunch, name, hh, hpath, hrep, hname, rfl⟩, ?_⟩
  refine render_inj.trans ((and_iff_right rfl).trans ?_)
  have htext := text_at m.prov (unixTs time)
  rw [hprov] at htext ⊢
  exact htext.trans unixTs_injective.eq_iff

end

/-- The files that a launch leaves of some that can be read and written. -/
def Launch.leaves (fmt : Formatter) (parse : Text → Except Text DiffReport) (l : Launch ε)
    (contents : Path → Option Text) : Disk ε :=
  (l.main display fmt parse (Disk.holding contents)).2

structure Refreshes (fmt : Formatter) (parse : Text → Except Text DiffReport)
    (display : ε → Text) (l : Launch ε) (contents : Path → Option Text) : Prop where
  kept : ∀ (l' : Launch ε) path m m', l.measured parse path = some m →
    l'.measured parse path = some m' →
      ((l'.main display fmt parse (l.leaves display fmt parse contents)).2 path =
          l.leaves display fmt parse contents path ↔
        m'.delta = m.delta ∧ m'.prov.text = m.prov.text ∧ WellMarked ((contents path).getD []))
  later : ∀ time path, time ≠ l.sys.time →
    (((l.at time).main display fmt parse (l.leaves display fmt parse contents)).2 path ≠
        l.leaves display fmt parse contents path ↔ ∃ m, l.measured parse path = some m)
  exits : ∀ time, time ≠ l.sys.time → l.sys.benchDir.isSome →
    (Exits ((l.at time).main display fmt parse (l.leaves display fmt parse contents)).1 0 ↔
      ∃ path m, l.measured parse path = some m)

section
variable {fmt : Formatter} {parse : Text → Except Text DiffReport} {l l' : Launch ε} {path : Path}
  {m m' : Measurement} {contents : Path → Option Text}

theorem leaves_kept_iff (h : l.measured parse path = some m)
    (h' : l'.measured parse path = some m') :
    (l'.main display fmt parse (l.leaves display fmt parse contents)).2 path =
        l.leaves display fmt parse contents path ↔
      m'.block = m.block ∧ WellMarked ((contents path).getD []) := by
  have hdisk : l.leaves display fmt parse contents path = _ :=
    main_apply display l (Disk.holding contents) path
  rw [main_apply, hdisk, h, h']
  exact benchStep_settled_iff (contents path) m m'

theorem leaves_changed_iff {time : Option Nat} (ht : time ≠ l.sys.time) :
    ((l.at time).main display fmt parse (l.leaves display fmt parse contents)).2 path ≠
        l.leaves display fmt parse contents path ↔ ∃ m, l.measured parse path = some m := by
  constructor
  · intro hne
    cases h' : (l.at time).measured parse path with
    | none =>
      rw [main_apply, h'] at hne
      exact absurd rfl hne
    | some m' =>
      obtain ⟨m, hm, -⟩ := Launch.measured_at h' l.sys.time
      exact ⟨m, hm⟩
  · rintro ⟨m, h⟩
    obtain ⟨m', h', hblock⟩ := Launch.measured_at h time
    rw [Ne, leaves_kept_iff display h h', hblock]
    exact fun hkept => ht hkept.1

end

theorem corpus_refreshes (fmt : Formatter) (parse : Text → Except Text DiffReport)
    (display : ε → Text) (l : Launch ε) (contents : Path → Option Text) :
    Refreshes fmt parse display l contents where
  kept l' path m m' h h' := by
    rw [leaves_kept_iff display h h', Launch.measured_block h h', and_assoc]
  later time path ht := leaves_changed_iff display ht
  exits time ht hbench := by
    obtain ⟨contents', hleaves⟩ : ∃ contents',
        l.leaves display fmt parse contents = Disk.holding contents' :=
      main_holding display l contents
    have htells : TellsRewrite fmt parse display (Disk.holding contents') (l.at time) :=
      tellsRewrite_holding display (l.at time) contents'
    rw [← hleaves] at htells
    have hchanged : ((l.at time).main display fmt parse (l.leaves display fmt parse contents)).2 ≠
        l.leaves display fmt parse contents ↔ ∃ path m, l.measured parse path = some m := by
      rw [Ne, funext_iff, not_forall]
      exact exists_congr fun path => leaves_changed_iff display ht
    exact ((and_iff_right hbench).symm.trans htells.symm).trans hchanged

/-- A second later the workstation rewrites the file, and exits with 0. -/
theorem corpus_refreshes_workstation :
    let contents : Path → Option Text := fun _ => some "# Pattern\n".toList
    let path := "patterns/01-alpha/BENCH.md".toList
    let left := benchOfWorkstation.leaves id .u16 decodeReport contents
    let again := (benchOfWorkstation.at (some 1700000001)).main id .u16 decodeReport left
    again.2 path ≠ left path ∧ Exits again.1 0 := by
  intro contents path left again
  have h := corpus_refreshes .u16 decodeReport id benchOfWorkstation contents
  have ht : some 1700000001 ≠ benchOfWorkstation.sys.time := by
    change some 1700000001 ≠ some 1700000000
    decide
  exact ⟨(h.later _ path ht).mpr ⟨_, measured_benchOfWorkstation⟩,
    (h.exits _ ht rfl).mpr ⟨path, _, measured_benchOfWorkstation⟩⟩

end Harness
