import Slipstream.Harness.BenchIdempotent
import Slipstream.Harness.BenchRuns
import Slipstream.Harness.Disk
import Slipstream.Harness.ExitStatus

/-!
# One run over the corpus

What a run of `bench` puts into each file, and how its exit code tells that it
changed one.
-/

namespace Harness

variable {ε : Type} {disk : Disk ε} {patterns : List Pattern} {p : Pattern} {path : Path}

-- ---------------------------------------------------------------------------
-- What a run measures
-- ---------------------------------------------------------------------------

/-- One run of `bench` over a corpus whose patterns have a `BENCH.md` each. No
name of a pattern and no field of the provenance holds a marker. -/
structure Session where
  setup : Setup
  prov : BenchProvenance
  patterns : List Pattern
  distinct : (patterns.map benchMdOf).Nodup
  unmarkedNames : ∀ p ∈ patterns, Unmarked p.name
  unmarkedProv : prov.Unmarked

def Session.bench (display : ε → Text) (disk : Disk ε) (s : Session) : Output × Disk ε :=
  benchOnDisk display s.setup s.prov s.patterns disk

/-- The block a run puts into the file at a path, if it is the `BENCH.md` of a
pattern that the run analysed. -/
def Session.measured (s : Session) (path : Path) : Option Measurement :=
  if s.setup.available = false then none
  else (s.patterns.attach.find? fun p => benchMdOf p.1 = path).bind fun p =>
    (runPattern s.setup.parse s.setup.runner p.1).delta.map fun delta =>
      ⟨p.1.name, delta, s.prov, s.unmarkedNames p.1 p.2, s.unmarkedProv⟩

theorem runPattern_delta {parse : Text → Except Text DiffReport} {runner : CoreRunner}
    {delta : ContentionDelta} :
    (runPattern parse runner p).delta = some delta ↔ Analyzes parse runner p delta := by
  obtain ⟨e, he, hr⟩ | ⟨-, d, hd, hr⟩ | ⟨-, hc, missing, -, hr⟩ := runPattern_cases parse runner p
  · rw [hr]
    exact iff_of_false nofun fun h => h.not_fails e he
  · rw [hr, Option.some.injEq]
    exact ⟨fun h => h ▸ hd, hd.unique⟩
  · rw [hr]
    exact iff_of_false nofun fun h => not_analyzed_of_incomplete hc ⟨delta, h⟩

/-- The pattern whose `BENCH.md` stands at a path. -/
theorem Session.find_eq_some (s : Session) {p : { p // p ∈ s.patterns }} :
    (s.patterns.attach.find? fun p => benchMdOf p.1 = path) = some p ↔ benchMdOf p.1 = path := by
  constructor
  · intro h
    simpa using List.find?_some h
  · rintro rfl
    cases hf : s.patterns.attach.find? fun q => benchMdOf q.1 = benchMdOf p.1 with
    | none => simpa using List.find?_eq_none.mp hf p (List.mem_attach _ p)
    | some q =>
      have hq : benchMdOf q.1 = benchMdOf p.1 := by simpa using List.find?_some hf
      exact congrArg some (Subtype.ext (List.inj_on_of_nodup_map s.distinct q.2 p.2 hq))

theorem Session.measured_iff (s : Session) {m : Measurement} : s.measured path = some m ↔
    s.setup.available = true ∧ ∃ p ∈ s.patterns, benchMdOf p = path ∧
      Analyzes s.setup.parse s.setup.runner p m.delta ∧ m.pattern = p.name ∧ m.prov = s.prov := by
  unfold Session.measured
  split
  · next ha => simp [ha]
  · next ha =>
    have hav : s.setup.available = true := by simpa using ha
    simp only [Option.bind_eq_some_iff, Option.map_eq_some_iff, s.find_eq_some, runPattern_delta,
      hav, true_and]
    constructor
    · rintro ⟨⟨p, hp⟩, hpath, delta, hd, rfl⟩
      exact ⟨p, hp, hpath, hd, rfl, rfl⟩
    · rintro ⟨p, hp, hpath, hd, hname, hprov⟩
      refine ⟨⟨p, hp⟩, hpath, m.delta, hd, ?_⟩
      obtain ⟨pattern, delta, prov, hup, huv⟩ := m
      subst hname hprov
      rfl

variable (display : ε → Text)

theorem bench_apply (s : Session) (disk : Disk ε) (path : Path) :
    (s.bench display disk).2 path =
      (s.measured path).elim (disk path) fun m => (benchStep (disk path) m).2 := by
  unfold Session.measured
  cases ha : s.setup.available with
  | false =>
    rw [if_pos rfl]
    exact congrFun (benchOnDisk_unavailable ha disk s.patterns).1 path
  | true =>
    rw [if_neg (by decide)]
    by_cases hpath : path ∈ s.patterns.map benchMdOf
    · obtain ⟨p, hp, rfl⟩ := List.mem_map.mp hpath
      have hf := s.find_eq_some.mpr (rfl : benchMdOf (⟨p, hp⟩ : { p // p ∈ s.patterns }).1 = _)
      rw [hf, Option.bind_some, Session.bench, benchOnDisk_of_mem ha disk s.distinct hp, benchFile]
      cases (runPattern s.setup.parse s.setup.runner p).delta <;> rfl
    · have hf : (s.patterns.attach.find? fun p => benchMdOf p.1 = path) = none := by
        refine List.find?_eq_none.mpr fun p _ hp => hpath ?_
        exact List.mem_map.mpr ⟨p.1, p.2, by simpa using hp⟩
      rw [hf]
      exact benchOnDisk_of_notMem disk hpath

-- ---------------------------------------------------------------------------
-- Files that can be read and written
-- ---------------------------------------------------------------------------

/-- A disk of files that can be read and written, some of them missing. -/
def Disk.holding (contents : Path → Option Text) : Disk ε :=
  fun path => File.holding (contents path)

theorem bench_holding (s : Session) (contents : Path → Option Text) :
    ∃ contents', (s.bench display (Disk.holding contents)).2 = Disk.holding contents' := by
  have hfile (path : Path) : ∃ content,
      (s.bench display (Disk.holding contents)).2 path = File.holding content := by
    rw [bench_apply]
    cases s.measured path with
    | none => exact ⟨contents path, rfl⟩
    | some m => exact ⟨_, benchStep_holding (contents path) m⟩
  choose contents' hcontents using hfile
  exact ⟨contents', funext hcontents⟩

theorem holding_inj {content content' : Option Text} :
    (File.holding content : File ε) = File.holding content' ↔ content = content' :=
  ⟨congrArg File.content, congrArg File.holding⟩

theorem stale_holding {content : Option Text} {m : Measurement} :
    (File.holding content : File ε).Stale m.block ↔
      (benchStep (File.holding content : File ε) m).2 ≠ File.holding content := by
  rw [benchStep_holding, Ne, holding_inj]
  cases content with
  | none => exact iff_of_true (stale_none m.block) nofun
  | some t => rw [Option.some.injEq]; rfl

theorem bench_ne_iff (s : Session) (contents : Path → Option Text) :
    (s.bench display (Disk.holding contents)).2 ≠ (Disk.holding contents : Disk ε) ↔
      ∃ path m, s.measured path = some m ∧
        (File.holding (contents path) : File ε).Stale m.block := by
  rw [Ne, funext_iff, not_forall]
  refine exists_congr fun path => ?_
  rw [bench_apply]
  cases hm : s.measured path with
  | none => simp
  | some m =>
    simp only [Option.elim_some, Option.some.injEq, exists_eq_left']
    exact stale_holding.symm

theorem mem_sitesOf {disk : Disk ε} {site : Site ε} : site ∈ sitesOf disk patterns ↔
    site.pattern ∈ patterns ∧ site.benchMd = disk (benchMdOf site.pattern) := by
  rw [sitesOf, List.mem_map]
  constructor
  · rintro ⟨p, hp, rfl⟩
    exact ⟨hp, rfl⟩
  · rintro ⟨hp, hfile⟩
    exact ⟨site.pattern, hp, by rw [← hfile]⟩

theorem bench_code_iff (s : Session) (contents : Path → Option Text) :
    (s.bench display (Disk.holding contents : Disk ε)).1.code = 0 ↔
      ∃ path m, s.measured path = some m ∧
        (File.holding (contents path) : File ε).Stale m.block := by
  cases ha : s.setup.available with
  | false =>
    rw [Session.bench, (benchOnDisk_unavailable ha _ _).2]
    refine iff_of_false (by decide) ?_
    rintro ⟨path, m, hm, -⟩
    cases ha.symm.trans (s.measured_iff.mp hm).1
  | true =>
    by_cases hne : sitesOf (Disk.holding contents : Disk ε) s.patterns = []
    · rw [Session.bench, benchOnDisk, hne, benchCmd, if_neg (by simp [ha]), if_pos rfl]
      refine iff_of_false (by simp [noPatterns]) ?_
      rintro ⟨path, m, hm, -⟩
      obtain ⟨-, p, hp, -⟩ := s.measured_iff.mp hm
      rw [List.map_eq_nil_iff.mp hne] at hp
      cases hp
    · rw [Session.bench, benchOnDisk, benchCmd_exits display s.prov ha hne]
      constructor
      · rintro ⟨site, hs, delta, hd, -, hstale, -⟩
        obtain ⟨hp, hfile⟩ := mem_sitesOf.mp hs
        refine ⟨_, ⟨site.pattern.name, delta, s.prov, s.unmarkedNames _ hp, s.unmarkedProv⟩,
          s.measured_iff.mpr ⟨ha, site.pattern, hp, rfl, hd, rfl, rfl⟩, ?_⟩
        rw [hfile] at hstale
        exact hstale
      · rintro ⟨path, m, hm, hstale⟩
        obtain ⟨-, p, hp, rfl, hd, hname, hprov⟩ := s.measured_iff.mp hm
        refine ⟨⟨p, Disk.holding contents (benchMdOf p)⟩, mem_sitesOf.mpr ⟨hp, rfl⟩,
          m.delta, hd, rfl, ?_, rfl⟩
        rw [← hname, ← hprov]
        exact hstale

theorem benchStep_twice (content : Option Text) (m : Measurement) :
    (benchStep (benchStep (File.holding content : File ε) m).2 m).2 =
      (benchStep (File.holding content : File ε) m).2 ↔ WellMarked (content.getD []) := by
  rw [benchStep_holding, benchStep_holding, holding_inj, Option.some.injEq, Option.getD_some]
  exact twice_iff m.isBlock _

end Harness
