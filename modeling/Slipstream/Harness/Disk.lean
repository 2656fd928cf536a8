import Slipstream.Harness.Commands
import Mathlib.Data.List.Induction
import Mathlib.Logic.Function.Basic

/-!
# The files of a run

`bench` goes over the patterns and updates the `BENCH.md` of each on the disk.
Where every pattern has a `BENCH.md` of its own, no update sees another, and a
run is one over the files as it found them.
-/

namespace Harness

variable {ε : Type}

abbrev Disk (ε : Type) := Path → File ε

def benchMdOf (p : Pattern) : Path := joinPath p.dir "BENCH.md".toList

def sitesOf (disk : Disk ε) (patterns : List Pattern) : List (Site ε) :=
  patterns.map fun p => ⟨p, disk (benchMdOf p)⟩

/-- The disk once these files stand at the `BENCH.md` of these patterns. -/
def Disk.put (disk : Disk ε) : List Pattern → List (File ε) → Disk ε
  | p :: patterns, file :: files =>
    Disk.put (Function.update disk (benchMdOf p) file) patterns files
  | _, _ => disk

/-- The files of different patterns are different (`benchOnDisk_loop`), so each
update finds the file that the run began with. -/
def benchOnDisk (display : ε → Text) (setup : Setup) (prov : BenchProvenance)
    (patterns : List Pattern) (disk : Disk ε) : Output × Disk ε :=
  let r := benchCmd display setup prov (sitesOf disk patterns)
  (r.1, disk.put patterns r.2)

-- ---------------------------------------------------------------------------
-- One run
-- ---------------------------------------------------------------------------

def benchFile (prov : BenchProvenance) (p : Pattern) (r : PatternResult) (file : File ε) : File ε :=
  match r.delta with
  | none => file
  | some delta => (updateBenchMd file (renderBenchBlock p.name delta prov)).2

theorem benchOne_files (display : ε → Text) (prov : BenchProvenance) (progress : Progress ε)
    (site : Site ε) (r : PatternResult) : (benchOne display prov progress site r).files =
      progress.files ++ [benchFile prov site.pattern r site.benchMd] := by
  unfold benchOne benchFile
  cases r.delta with
  | none => rfl
  | some delta =>
    simp only
    split
    · next h => rw [h]
    · next h => rw [h]
    · next h => rw [h]

theorem benchLoop_files (display : ε → Text) (prov : BenchProvenance) (sites : List (Site ε))
    (results : List PatternResult) : (benchLoop display prov sites results).files =
      (sites.zip results).map fun x => benchFile prov x.1.pattern x.2 x.1.benchMd := by
  unfold benchLoop
  induction sites.zip results using List.reverseRecOn with
  | nil => rfl
  | append_singleton l x ih => rw [List.foldl_concat, benchOne_files, ih, List.map_append]; rfl

variable {disk : Disk ε} {patterns : List Pattern} {p : Pattern} {path : Path}

theorem put_of_notMem (disk : Disk ε) {path : Path} (files : List (File ε))
    (h : path ∉ patterns.map benchMdOf) : disk.put patterns files path = disk path := by
  induction patterns generalizing disk files with
  | nil => rfl
  | cons p patterns ih =>
    rw [List.map_cons, List.mem_cons, not_or] at h
    cases files with
    | nil => rfl
    | cons file files => rw [Disk.put, ih _ _ h.2, Function.update_of_ne h.1]

theorem put_of_mem (disk : Disk ε) (f : Pattern → File ε) (hd : (patterns.map benchMdOf).Nodup)
    (hp : p ∈ patterns) : disk.put patterns (patterns.map f) (benchMdOf p) = f p := by
  induction patterns generalizing disk with
  | nil => cases hp
  | cons q patterns ih =>
    rw [List.map_cons, List.nodup_cons] at hd
    rw [List.map_cons, Disk.put]
    obtain rfl | hp := List.mem_cons.mp hp
    · rw [put_of_notMem _ _ hd.1, Function.update_self]
    · exact ih _ hd.2 hp

theorem zip_sitesOf (disk : Disk ε) (patterns : List Pattern) (f : Pattern → PatternResult) :
    (sitesOf disk patterns).zip (patterns.map f) =
      patterns.map fun p => (⟨p, disk (benchMdOf p)⟩, f p) := by
  rw [sitesOf, List.zip_map']

theorem map_pattern_sitesOf (disk : Disk ε) (patterns : List Pattern) :
    (sitesOf disk patterns).map Site.pattern = patterns := by
  rw [sitesOf, List.map_map]
  exact List.map_id patterns

section
variable {display : ε → Text} {setup : Setup} {prov : BenchProvenance}

theorem benchCmd_files (ha : setup.available = true) (disk : Disk ε) (patterns : List Pattern) :
    (benchCmd display setup prov (sitesOf disk patterns)).2 = patterns.map fun p =>
      benchFile prov p (runPattern setup.parse setup.runner p) (disk (benchMdOf p)) := by
  rw [benchCmd, if_neg (by simp [ha])]
  split
  · next h =>
    have hnil : patterns = [] := List.map_eq_nil_iff.mp h
    rw [hnil]
    rfl
  · change (benchLoop display prov (sitesOf disk patterns) _).files = _
    rw [benchLoop_files, map_pattern_sitesOf, runAll, zip_sitesOf, List.map_map]
    rfl

theorem benchOnDisk_of_mem (ha : setup.available = true) (disk : Disk ε)
    (hd : (patterns.map benchMdOf).Nodup) (hp : p ∈ patterns) :
    (benchOnDisk display setup prov patterns disk).2 (benchMdOf p) =
      benchFile prov p (runPattern setup.parse setup.runner p) (disk (benchMdOf p)) := by
  rw [benchOnDisk, benchCmd_files ha]
  exact put_of_mem disk _ hd hp

theorem benchOnDisk_of_notMem (disk : Disk ε) (h : path ∉ patterns.map benchMdOf) :
    (benchOnDisk display setup prov patterns disk).2 path = disk path := put_of_notMem disk _ h

theorem put_sitesOf (disk : Disk ε) (patterns : List Pattern) :
    disk.put patterns ((sitesOf disk patterns).map Site.benchMd) = disk := by
  induction patterns generalizing disk with
  | nil => rfl
  | cons p patterns ih =>
    rw [sitesOf, List.map_cons, List.map_cons, Disk.put, Function.update_eq_self]
    exact ih disk

theorem benchOnDisk_unavailable (ha : setup.available = false) (disk : Disk ε)
    (patterns : List Pattern) : (benchOnDisk display setup prov patterns disk).2 = disk ∧
      (benchOnDisk display setup prov patterns disk).1.code = 2 := by
  rw [benchOnDisk, benchCmd, if_pos ha]
  exact ⟨put_sitesOf disk patterns, rfl⟩

/-- The loop as it goes over the disk, one file after the other. -/
def benchSequence (display : ε → Text) (prov : BenchProvenance)
    (l : List (Pattern × PatternResult)) (st : Progress ε × Disk ε) : Progress ε × Disk ε :=
  l.foldl (fun (progress, disk) (p, r) =>
    (benchOne display prov progress ⟨p, disk (benchMdOf p)⟩ r,
      Function.update disk (benchMdOf p) (benchFile prov p r (disk (benchMdOf p))))) st

theorem benchSequence_eq (f : Pattern → PatternResult) (hd : (patterns.map benchMdOf).Nodup)
    (progress : Progress ε) (disk : Disk ε) :
    benchSequence display prov (patterns.map fun p => (p, f p)) (progress, disk) =
      ((patterns.map fun p => ((⟨p, disk (benchMdOf p)⟩ : Site ε), f p)).foldl
          (fun progress x => benchOne display prov progress x.1 x.2) progress,
        disk.put patterns (patterns.map fun p => benchFile prov p (f p) (disk (benchMdOf p)))) := by
  induction patterns generalizing progress disk with
  | nil => rfl
  | cons p patterns ih =>
    rw [List.map_cons, List.nodup_cons] at hd
    -- The update of the first file is not seen by the ones after it.
    have hsame : ∀ q ∈ patterns, ∀ file,
        Function.update disk (benchMdOf p) file (benchMdOf q) = disk (benchMdOf q) := by
      intro q hq file
      refine Function.update_of_ne (fun he => hd.1 ?_) ..
      exact he ▸ List.mem_map_of_mem hq
    have hsites (file : File ε) : (patterns.map fun q => ((⟨q, Function.update disk (benchMdOf p)
        file (benchMdOf q)⟩ : Site ε), f q)) =
        patterns.map fun q => (⟨q, disk (benchMdOf q)⟩, f q) :=
      List.map_congr_left fun q hq => by rw [hsame q hq]
    have hfiles (file : File ε) : (patterns.map fun q => benchFile prov q (f q)
        (Function.update disk (benchMdOf p) file (benchMdOf q))) =
        patterns.map fun q => benchFile prov q (f q) (disk (benchMdOf q)) :=
      List.map_congr_left fun q hq => by rw [hsame q hq]
    rw [List.map_cons, benchSequence, List.foldl_cons, ← benchSequence, ih hd.2, hsites, hfiles]
    rfl

/-- Running over the files as the run found them is running over the disk. -/
theorem benchOnDisk_loop (ha : setup.available = true) (disk : Disk ε)
    (hd : (patterns.map benchMdOf).Nodup) :
    benchSequence display prov (patterns.zip (runAll setup.parse setup.runner patterns))
        ({ tally := ⟨0, 0, 0, 0⟩, files := [], stderr := [] }, disk) =
      (benchLoop display prov (sitesOf disk patterns) (runAll setup.parse setup.runner patterns),
        (benchOnDisk display setup prov patterns disk).2) := by
  have hzip : patterns.zip (runAll setup.parse setup.runner patterns) =
      patterns.map fun p => (p, runPattern setup.parse setup.runner p) := by
    rw [List.map_prod_left_eq_zip, runAll]
  rw [hzip, benchSequence_eq _ hd, benchLoop, runAll, zip_sitesOf, benchOnDisk, benchCmd_files ha]

end

end Harness
