import Slipstream.Base.Component
import Slipstream.Harness.ExitCodes
import Slipstream.Harness.Session

/-!
# Measuring the corpus again and again

The binary is launched any number of times on the files that the launches
before it left; the corpus, the core and the clock may change in between. What
becomes of one file is told by the runs of `bench` that analysed its pattern.
-/

namespace Harness

open Run (EachStep final)

variable {ε : Type} (display : ε → Text)

-- ---------------------------------------------------------------------------
-- Launches of the binary
-- ---------------------------------------------------------------------------

def System.benchDir (sys : System ε) : Option Path :=
  match sys.argv.tail with
  | [] => none
  | first :: args => if first = "bench".toList then some (patternsDirOf args) else none

/-- A name is put behind the directory and, where there is none yet, a slash. -/
theorem joinPath_eq (dir : Path) : ∃ root s, '/' :: root = s ++ ['/'] ∧
    ∀ name, joinPath dir name = root ++ name := by
  obtain rfl | ⟨parent, c, rfl⟩ := List.eq_nil_or_concat dir
  · exact ⟨[], [], rfl, fun _ => rfl⟩
  · by_cases hc : c = '/'
    · exact ⟨parent ++ ['/'], '/' :: parent, rfl, by simp [joinPath, hc]⟩
    · exact ⟨parent ++ [c] ++ ['/'], '/' :: (parent ++ [c]), rfl, by simp [joinPath, hc]⟩

/-- A file tells the name of the directory it stands in. -/
theorem joinPath_inj {dir dir' a b name : Text} (ha : '/' ∉ a) (hb : '/' ∉ b) (hane : a ≠ [])
    (hbne : b ≠ []) (h : joinPath (joinPath dir a) name = joinPath (joinPath dir' b) name) :
    a = b := by
  have hinner (dir c : Text) (hc : '/' ∉ c) (hne : c ≠ []) : ∃ s,
      '/' :: joinPath (joinPath dir c) name = s ++ '/' :: c ++ '/' :: name := by
    obtain ⟨root, s, hroot, hjoin⟩ := joinPath_eq dir
    have hlast : (root ++ c).getLast?.getD '/' ≠ '/' := by
      rw [List.getLast?_append_of_ne_nil _ hne, List.getLast?_eq_some_getLast hne]
      exact fun he => hc (he ▸ List.getLast_mem hne)
    refine ⟨s, ?_⟩
    rw [hjoin, joinPath, if_neg hlast, ← List.cons_append, ← List.cons_append, hroot,
      List.append_assoc s]
    rfl
  obtain ⟨s, hs⟩ := hinner dir a ha hane
  obtain ⟨t, ht⟩ := hinner dir' b hb hbne
  have hcut : s ++ '/' :: a = t ++ '/' :: b :=
    List.append_cancel_right (hs.symm.trans ((congrArg ('/' :: ·) h).trans ht))
  have hrev := congrArg List.reverse hcut
  simp only [List.reverse_append, List.reverse_cons, List.append_assoc, List.singleton_append]
    at hrev
  have hnames := (Layout.field_inj (by simpa using ha) (by simpa using hb)).mp hrev
  exact List.reverse_injective hnames.1

theorem mem_names {dir : Directory ε} {name : Text} {isDir naive optimized : Bool}
    (h : .ok ⟨some name, isDir, naive, optimized⟩ ∈ dir.entries) :
    name ∈ dir.entries.filterMap entryName := List.mem_filterMap.mpr ⟨_, h, rfl⟩

theorem nodup_benchMdOf (sys : System ε) (patternsDir : Path) :
    ((sys.patterns patternsDir).map benchMdOf).Nodup := by
  cases hdir : sys.readDir patternsDir with
  | error e => simp [System.patterns, hdir, discoverPatterns]
  | ok dir =>
    have hd := discovered_discoverPatterns patternsDir dir
    have hpat : sys.patterns patternsDir = discoverPatterns patternsDir (.ok dir) := by
      rw [System.patterns, hdir]
    rw [hpat]
    refine (List.nodup_map_iff_inj_on hd.nodup).mpr fun p hp q hq h => ?_
    refine List.inj_on_of_nodup_map hd.names_nodup hp hq ?_
    obtain ⟨_, _, _, hep, ⟨_, _, _, rfl, -, -⟩, rfl⟩ := (hd.mem_iff p).mp hp
    obtain ⟨_, _, _, heq, ⟨_, _, _, rfl, -, -⟩, rfl⟩ := (hd.mem_iff q).mp hq
    exact joinPath_inj (dir.separated _ (mem_names hep)) (dir.separated _ (mem_names heq))
      (List.cons_ne_nil _ _) (List.cons_ne_nil _ _) h

/-- A launch of the binary. Where it runs `bench`, no name of a pattern and no
field of the provenance holds a marker. -/
structure Launch (ε : Type) where
  sys : System ε
  unmarkedNames : ∀ dir, sys.benchDir = some dir → ∀ p ∈ sys.patterns dir, Unmarked p.name
  unmarkedProv : ∀ dir, sys.benchDir = some dir → (collectProvenance sys sys.bin dir).Unmarked

/-- No name of a pattern holds a marker, and nothing that the provenance is taken
from does. -/
structure System.Plain (sys : System ε) : Prop where
  names : ∀ dir, ∀ p ∈ sys.patterns dir, Unmarked p.name
  os : Unmarked sys.os
  arch : Unmarked sys.arch
  command : Unmarked ([' '].intercalate sys.argv)
  outputs : ∀ prog args output, sys.exec prog args = .ok output → Unmarked output.stdout

theorem unmarked_of_notMem {t : Text} (h : '<' ∉ t) : Unmarked t := by
  rw [← List.append_nil t]
  exact ⟨(Marker.free_plain_append h).mpr Marker.free_nil,
    (Marker.free_plain_append h).mpr Marker.free_nil⟩

theorem Unmarked.trim {t : Text} (h : Unmarked t) : Unmarked (trim t) := by
  have hin : Harness.trim t <:+: t :=
    (List.rdropWhile_prefix _ _).isInfix.trans (List.dropWhile_suffix _).isInfix
  exact ⟨fun hw => h.1 (hw.trans hin), fun hw => h.2 (hw.trans hin)⟩

theorem unmarked_unixTs (time : Option Nat) : Unmarked (unixTs time) := by
  cases time with
  | none => decide
  | some n => exact unmarked_of_notMem (not_mem_toString n)

theorem System.Plain.sh {sys : System ε} (h : sys.Plain) (prog : Text) (args : List Text)
    {t : Text} (ht : Unmarked t) : Unmarked ((sh sys.exec prog args).getD t) := by
  unfold Harness.sh
  cases hexec : sys.exec prog args with
  | error e => exact ht
  | ok output =>
    simp only
    split
    · exact (h.outputs prog args output hexec).trim
    · exact ht

theorem System.Plain.provenance {sys : System ε} (h : sys.Plain) (bin : Text) (dir : Path) :
    (collectProvenance sys bin dir).Unmarked := by
  have hunknown : Unmarked "unknown".toList := by decide
  constructor
  · exact h.os
  · exact h.arch
  · exact h.sh _ _ hunknown
  · exact h.sh _ _ hunknown
  · exact h.sh _ _ hunknown
  · simp only [collectProvenance]
    split
    · decide
    · exact h.sh _ _ hunknown
  · exact unmarked_unixTs sys.time
  · exact h.command

def System.Plain.launch {sys : System ε} (h : sys.Plain) : Launch ε where
  sys := sys
  unmarkedNames dir _ := h.names dir
  unmarkedProv dir _ := h.provenance sys.bin dir

-- A machine with a core that reports on its one pattern, and without git.

def corpus : Directory Text where
  entries := [.ok ⟨some "README.md".toList, false, false, false⟩,
    .ok ⟨some "01-alpha".toList, true, true, true⟩]
  distinct := by decide
  separated := by decide

def succeeds (stdout : Text) : ProcessOutput := ⟨some ⟨0, by decide, by decide⟩, stdout, none, []⟩

def noSuchFile : Text := "No such file or directory (os error 2)".toList

def core (args : List Text) : Except Text ProcessOutput :=
  if args = ["--version".toList] then .ok (succeeds "slipstream 0.1.0\n".toList)
  else if args = ["diff".toList, "patterns/01-alpha/naive".toList,
      "patterns/01-alpha/optimized".toList, "--json".toList] then .ok (succeeds reportText)
  else .ok ⟨some ⟨2, by decide, by decide⟩, [], none, "error: unexpected argument".toList⟩

def runProgram (prog : Text) (args : List Text) : Except Text ProcessOutput :=
  if prog = "slipstream".toList then core args
  else if prog = "rustc".toList then .ok (succeeds "rustc 1.81.0\n".toList)
  else .error noSuchFile

def listDir (dir : Path) : Except Text (Directory Text) :=
  if dir = "patterns".toList then .ok corpus else .error noSuchFile

def workstation : System Text where
  argv := ["slipstream-harness".toList, "bench".toList]
  slipstreamBin := none
  slipstreamCoreDir := none
  exec := runProgram
  readDir := listDir
  os := "linux".toList
  arch := "x86_64".toList
  time := some 1700000000

theorem runProgram_core (args : List Text) : runProgram "slipstream".toList args = core args :=
  if_pos rfl

theorem workstation_core (args : List Text) : workstation.exec workstation.bin args = core args :=
  runProgram_core args

theorem listDir_patterns : listDir "patterns".toList = .ok corpus := if_pos rfl

theorem workstation_holds {dir : Path} {name : Text} {naive optimized : Bool} :
    workstation.Holds dir name naive optimized ↔
      dir = "patterns".toList ∧ name = "01-alpha".toList ∧ naive = true ∧ optimized = true := by
  constructor
  · rintro ⟨-, entries, hdir, hentry⟩
    simp only [workstation, listDir] at hdir
    split at hdir
    · next h =>
      cases hdir
      simpa [h, corpus] using hentry
    · cases hdir
  · rintro ⟨rfl, rfl, rfl, rfl⟩
    exact ⟨⟨'0', '1', _, rfl, by decide, by decide⟩, corpus, listDir_patterns, by simp [corpus]⟩

theorem workstation_plain : workstation.Plain where
  names dir p hp := by
    obtain ⟨name, naive, optimized, hh, rfl⟩ := mem_patterns.mp hp
    obtain ⟨-, rfl, -⟩ := workstation_holds.mp hh
    change Unmarked "01-alpha".toList
    decide
  os := by decide
  arch := by decide
  command := by decide
  outputs prog args output h := by
    simp only [workstation, runProgram, core] at h
    split at h
    · split at h
      · cases h
        decide
      · split at h
        · cases h
          exact unmarked_of_notMem (by decide)
        · cases h
          decide
    · split at h
      · cases h
        decide
      · cases h

def benchOfWorkstation : Launch Text := workstation_plain.launch

section
variable (fmt : Formatter) (parse : Text → Except Text DiffReport)

def Launch.main (disk : Disk ε) (l : Launch ε) : Option Output × Disk ε :=
  Harness.main parse fmt display l.sys disk

def Launch.session (l : Launch ε) : Option Session :=
  l.sys.benchDir.attach.map fun dir =>
    { setup := l.sys.setup parse dir.1
      prov := collectProvenance l.sys l.sys.bin dir.1
      patterns := l.sys.patterns dir.1
      distinct := nodup_benchMdOf l.sys dir.1
      unmarkedNames := l.unmarkedNames dir.1 dir.2
      unmarkedProv := l.unmarkedProv dir.1 dir.2 }

/-- The block a launch puts into the file at a path. -/
def Launch.measured (l : Launch ε) (path : Path) : Option Measurement :=
  (l.session parse).bind fun s => s.measured path

/-- The blocks that a sequence of launches puts into one file. -/
def measurements (launches : List (Launch ε)) (path : Path) : List Measurement :=
  launches.filterMap fun l => l.measured parse path

theorem main_of_bench {sys : System ε} {dir : Path} (h : sys.benchDir = some dir)
    (disk : Disk ε) : Harness.main parse fmt display sys disk =
      let r := benchOnDisk display (sys.setup parse dir) (collectProvenance sys sys.bin dir)
        (sys.patterns dir) disk
      (some r.1, r.2) := by
  cases hargv : sys.argv.tail with
  | nil =>
    rw [System.benchDir, hargv] at h
    cases h
  | cons first args =>
    rw [System.benchDir, hargv] at h
    by_cases hfirst : first = "bench".toList
    · have hdir : patternsDirOf args = dir := Option.some.inj ((if_pos hfirst).symm.trans h)
      have hne : "bench".toList ≠ "all".toList := by decide
      rw [Harness.main, hargv]
      simp only [hfirst, hne, if_false, if_true, hdir]
      rfl
    · cases (if_neg hfirst).symm.trans h

theorem main_of_other {sys : System ε} (h : sys.benchDir = none) (disk : Disk ε) :
    (Harness.main parse fmt display sys disk).2 = disk := by
  cases hargv : sys.argv.tail with
  | nil => rw [Harness.main, hargv]
  | cons first args =>
    rw [System.benchDir, hargv] at h
    have hbench : first ≠ "bench".toList := by
      intro hfirst
      cases (if_pos hfirst).symm.trans h
    rw [Harness.main, hargv]
    by_cases hall : first = "all".toList
    · simp only [hall, if_true]
    · simp only [hall, hbench, if_false]

variable {fmt parse}

theorem main_of_session {l : Launch ε} {s : Session} (h : l.session parse = some s)
    (disk : Disk ε) : l.main display fmt parse disk =
      (some (s.bench display disk).1, (s.bench display disk).2) := by
  obtain ⟨⟨dir, hdir⟩, -, rfl⟩ := Option.map_eq_some_iff.mp h
  exact main_of_bench display fmt parse hdir disk

theorem main_of_no_session {l : Launch ε} (h : l.session parse = none) (disk : Disk ε) :
    (l.main display fmt parse disk).2 = disk := by
  have hdir : l.sys.benchDir = none := by simpa using Option.map_eq_none_iff.mp h
  exact main_of_other display fmt parse hdir disk

theorem Launch.measured_iff (l : Launch ε) {path : Path} {m : Measurement} :
    l.measured parse path = some m ↔ ∃ dir, l.sys.benchDir = some dir ∧ l.sys.Launches ∧
      ∃ name, l.sys.Holds dir name true true ∧
        joinPath (joinPath dir name) "BENCH.md".toList = path ∧
          l.sys.ReportsPair parse (joinPath dir name) m.delta ∧ m.pattern = name ∧
            m.prov = collectProvenance l.sys l.sys.bin dir := by
  unfold Launch.measured
  rw [Option.bind_eq_some_iff]
  constructor
  · rintro ⟨s, hs, hm⟩
    obtain ⟨⟨dir, hdir⟩, -, rfl⟩ := Option.map_eq_some_iff.mp hs
    obtain ⟨ha, p, hp, hpath, hd, hname, hprov⟩ := (Session.measured_iff _).mp hm
    obtain ⟨name, naive, optimized, hh, rfl⟩ := mem_patterns.mp hp
    obtain ⟨rfl, rfl, hrep⟩ := analyzes_recorded.mp hd
    exact ⟨dir, hdir, (available_iff _ _ _).mp ha, name, hh, hpath, hrep, hname, hprov⟩
  · rintro ⟨dir, hdir, hlaunch, name, hh, hpath, hrep, hname, hprov⟩
    have hattach : l.sys.benchDir.attach = some ⟨dir, hdir⟩ := by simp [hdir]
    refine ⟨_, Option.map_eq_some_iff.mpr ⟨_, hattach, rfl⟩, (Session.measured_iff _).mpr ?_⟩
    exact ⟨(available_iff _ _ _).mpr hlaunch, _, mem_patterns.mpr ⟨name, true, true, hh, rfl⟩,
      hpath, analyzes_recorded.mpr ⟨rfl, rfl, hrep⟩, hname, hprov⟩

def measuredOnWorkstation : Measurement where
  pattern := "01-alpha".toList
  delta := contentionDelta decoded
  prov := collectProvenance workstation workstation.bin "patterns".toList
  unmarkedPattern := by decide
  unmarkedProv := workstation_plain.provenance _ _

theorem measured_benchOfWorkstation :
    benchOfWorkstation.measured decodeReport "patterns/01-alpha/BENCH.md".toList =
      some measuredOnWorkstation := by
  refine (Launch.measured_iff _).mpr ⟨"patterns".toList, by decide, ?_, "01-alpha".toList,
    workstation_holds.mpr ⟨rfl, rfl, rfl, rfl⟩, by decide, ?_, rfl, rfl⟩
  · exact ⟨_, (workstation_core _).trans (if_pos rfl)⟩
  · refine ⟨succeeds reportText, decoded, ?_, rfl, rfl, decodeReport_reportText, rfl⟩
    change workstation.exec workstation.bin _ = _
    rw [workstation_core, core, if_neg (by decide), if_pos (by decide)]

/-- What a launch does to one file. -/
theorem main_apply (l : Launch ε) (disk : Disk ε) (path : Path) :
    (l.main display fmt parse disk).2 path =
      (l.measured parse path).elim (disk path) fun m => (benchStep (disk path) m).2 := by
  unfold Launch.measured
  cases h : l.session parse with
  | none => rw [main_of_no_session display h]; rfl
  | some s => rw [main_of_session display h]; exact bench_apply display s disk path

end

-- ---------------------------------------------------------------------------
-- Every sequence of launches
-- ---------------------------------------------------------------------------

section
variable {fmt : Formatter} {parse : Text → Except Text DiffReport}

theorem final_apply (disk : Disk ε) (launches : List (Launch ε)) (path : Path) :
    final (Launch.main display fmt parse) disk launches path =
      final benchStep (disk path) (measurements parse launches path) :=
  Run.final_filterMap (fun disk : Disk ε => disk path)
    (fun disk l => main_apply display l disk path) disk launches

theorem main_holding (l : Launch ε) (contents : Path → Option Text) :
    ∃ contents', (l.main display fmt parse (Disk.holding contents)).2 = Disk.holding contents' := by
  cases h : l.session parse with
  | none => exact ⟨contents, main_of_no_session display h _⟩
  | some s =>
    rw [main_of_session display h]
    exact bench_holding display s contents

/-- A launch changes a file exactly when it is one of `bench` that exits with 0. -/
def TellsRewrite (fmt : Formatter) (parse : Text → Except Text DiffReport) (display : ε → Text)
    (disk : Disk ε) (l : Launch ε) : Prop :=
  (l.main display fmt parse disk).2 ≠ disk ↔
    l.sys.benchDir.isSome ∧ Exits (l.main display fmt parse disk).1 0

theorem tellsRewrite_holding (l : Launch ε) (contents : Path → Option Text) :
    TellsRewrite fmt parse display (Disk.holding contents) l := by
  have hsome : l.sys.benchDir.isSome = (l.session parse).isSome := by simp [Launch.session]
  unfold TellsRewrite
  rw [hsome]
  cases h : l.session parse with
  | none =>
    refine iff_of_false (not_not_intro (main_of_no_session display h _)) ?_
    rintro ⟨hs, -⟩
    cases hs
  | some s =>
    rw [main_of_session display h, bench_ne_iff, exits_some, bench_code_iff]
    simp

/-- What a sequence of launches leaves: the files of patterns that no run of
`bench` analysed as they were, and in any other only the block of the last run
that did. -/
structure KeepsCorpus (fmt : Formatter) (parse : Text → Except Text DiffReport)
    (display : ε → Text) (disk : Disk ε) (launches : List (Launch ε)) : Prop where
  untouched : ∀ path, measurements parse launches path = [] →
    final (Launch.main display fmt parse) disk launches path = disk path
  replaced : ∀ path pre post (old : Measurement), Unmarked pre →
    disk path = File.holding (some (pre ++ (old.block ++ post))) →
      final (Launch.main display fmt parse) disk launches path =
        File.holding (some (pre ++ (((old :: measurements parse launches path).getLast
          (List.cons_ne_nil _ _)).block ++ post)))
  added : ∀ path content, Unmarked (content.getD []) → disk path = File.holding content →
    ∀ hm : measurements parse launches path ≠ [],
      final (Launch.main display fmt parse) disk launches path =
        File.holding (some (content.getD [] ++ separator (content.getD []) ++
          ((measurements parse launches path).getLast hm).block ++ ['\n']))
  /-- Where files can be read and written. -/
  tells : ∀ contents, disk = Disk.holding contents →
    EachStep (Launch.main display fmt parse) disk launches
      (TellsRewrite fmt parse display)

theorem corpus_kept (fmt : Formatter) (parse : Text → Except Text DiffReport)
    (display : ε → Text) (disk : Disk ε) (launches : List (Launch ε)) :
    KeepsCorpus fmt parse display disk launches where
  untouched path h := by rw [final_apply, h, Run.final_nil]
  replaced path pre post old hpre hdisk := by rw [final_apply, hdisk, final_block hpre]
  added path content hc hdisk hm := by rw [final_apply, hdisk, final_unmarked content hc hm]
  tells contents hdisk pre l post _ := by
    obtain ⟨contents', hpre⟩ : ∃ contents',
        final (Launch.main display fmt parse) disk pre = Disk.holding contents' := by
      refine Run.final_induct (P := fun disk => ∃ contents', disk = Disk.holding contents') ?_
        ⟨contents, hdisk⟩ pre
      rintro _ l ⟨contents', rfl⟩
      exact main_holding display l contents'
    rw [hpre]
    exact tellsRewrite_holding display l contents'

/-- The block of the first run gives way to the one that the workstation
measures. -/
theorem corpus_kept_workstation :
    let path := "patterns/01-alpha/BENCH.md".toList
    let old : Measurement := ⟨"01-alpha".toList, ⟨⟨0, by decide, by decide⟩,
      ⟨0, by decide, by decide⟩, ⟨0, by decide, by decide⟩⟩, .unknown, by decide, unmarked_unknown⟩
    let disk : Disk Text :=
      Disk.holding fun _ => some ("# Pattern\n".toList ++ (old.block ++ "notes".toList))
    KeepsCorpus .u16 decodeReport id disk [benchOfWorkstation] ∧
      final (Launch.main id .u16 decodeReport) disk [benchOfWorkstation] path =
        File.holding (some ("# Pattern\n".toList ++
          (measuredOnWorkstation.block ++ "notes".toList))) := by
  intro path old disk
  have h := corpus_kept .u16 decodeReport id disk [benchOfWorkstation]
  have hms : measurements decodeReport [benchOfWorkstation] path = [measuredOnWorkstation] := by
    simp only [measurements, List.filterMap_cons, List.filterMap_nil, path,
      measured_benchOfWorkstation]
  have hreplaced := h.replaced path _ _ old (by decide) rfl
  simp only [hms] at hreplaced
  exact ⟨h, hreplaced⟩

/-- The same launch again changes nothing exactly when every file that it
measures held its markers in order, or neither of them. -/
theorem corpus_settles (fmt : Formatter) (parse : Text → Except Text DiffReport)
    (display : ε → Text) (l : Launch ε) (contents : Path → Option Text) :
    let disk : Disk ε := (l.main display fmt parse (Disk.holding contents)).2
    (l.main display fmt parse disk).2 = disk ↔
      ∀ path m, l.measured parse path = some m → WellMarked ((contents path).getD []) := by
  intro disk
  rw [funext_iff]
  refine forall_congr' fun path => ?_
  have hdisk : disk path = _ := main_apply display l (Disk.holding contents) path
  rw [main_apply, hdisk]
  cases hm : l.measured parse path with
  | none => simp
  | some m =>
    simp only [Option.elim_some, Option.some.injEq, forall_eq']
    exact benchStep_twice (contents path) m

theorem corpus_settles_workstation :
    let contents : Path → Option Text := fun _ => some "# Pattern\n".toList
    let disk := (benchOfWorkstation.main id .u16 decodeReport (Disk.holding contents)).2
    (benchOfWorkstation.main id .u16 decodeReport disk).2 = disk := by
  intro contents
  refine (corpus_settles .u16 decodeReport id benchOfWorkstation contents).mpr fun _ _ _ => ?_
  change WellMarked "# Pattern\n".toList
  decide

end

end Harness
