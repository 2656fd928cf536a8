import Slipstream.Harness.ExitStatus
import Slipstream.Harness.Main

/-!
# What the binary exits with

The exit code of every command, told by what the machine holds: which
directories are there, what the core answers on them, and which files can be
rewritten.
-/

namespace Harness

open Layout (utf8Len)

variable {ε : Type}

def System.bin (sys : System ε) : Text := sys.slipstreamBin.getD "slipstream".toList

/-- The core can be launched, whatever it exits with. -/
def System.Launches (sys : System ε) : Prop :=
  ∃ output, sys.exec sys.bin ["--version".toList] = .ok output

def System.Reports (sys : System ε) (parse : Text → Except Text DiffReport)
    (naive optimized : Path) (delta : ContentionDelta) : Prop :=
  ∃ output report,
    sys.exec sys.bin ["diff".toList, naive, optimized, "--json".toList] = .ok output ∧
      output.success = true ∧ output.invalid = none ∧ parse output.stdout = .ok report ∧
        delta = contentionDelta report

def System.ReportsPair (sys : System ε) (parse : Text → Except Text DiffReport)
    (patternDir : Path) (delta : ContentionDelta) : Prop :=
  sys.Reports parse (joinPath patternDir "naive".toList) (joinPath patternDir "optimized".toList)
    delta

/-- A directory `NN-<name>` stands below the directory of the patterns, with or
without each of its sides. -/
def System.Holds (sys : System ε) (patternsDir : Path) (name : Text) (naive optimized : Bool) :
    Prop :=
  NamesPattern name ∧ ∃ dir, sys.readDir patternsDir = .ok dir ∧
    .ok ⟨some name, true, naive, optimized⟩ ∈ dir.entries

section
variable {sys : System ε} {parse : Text → Except Text DiffReport} {patternsDir : Path}

variable (sys parse patternsDir) in
theorem available_iff : (sys.setup parse patternsDir).available = true ↔ sys.Launches := by
  change (sys.exec sys.bin ["--version".toList]).isOk = true ↔ _
  unfold System.Launches
  cases sys.exec sys.bin ["--version".toList] <;> simp [Except.isOk, Except.toBool]

theorem run_eq_ok {exec : Text → List Text → Except Text ProcessOutput}
    {runner : SubprocessRunner} {args : List Text} {raw : Text} :
    runner.run exec args = .ok raw ↔ ∃ output, exec runner.bin args = .ok output ∧
      output.success = true ∧ output.invalid = none ∧ output.stdout = raw := by
  unfold SubprocessRunner.run
  cases exec runner.bin args with
  | error e => simp
  | ok output =>
    simp only [Except.ok.injEq, exists_eq_left']
    cases hs : output.success with
    | false => simp
    | true => cases output.invalid <;> simp

variable (patternsDir) in
theorem analyzePair_reports {naive optimized : Path} {delta : ContentionDelta} :
    analyzePair parse (sys.setup parse patternsDir).runner naive optimized = .ok delta ↔
      sys.Reports parse naive optimized delta := by
  rw [analyzePair_ok]
  change (∃ raw report, (SubprocessRunner.mk sys.bin).run sys.exec
    ["diff".toList, naive, optimized, "--json".toList] = .ok raw ∧ _) ↔ _
  simp only [run_eq_ok]
  constructor
  · rintro ⟨_, report, ⟨output, hexec, hs, hi, rfl⟩, hparse, hd⟩
    exact ⟨output, report, hexec, hs, hi, hparse, hd⟩
  · rintro ⟨output, report, hexec, hs, hi, hparse, hd⟩
    exact ⟨_, report, ⟨output, hexec, hs, hi, rfl⟩, hparse, hd⟩

theorem mem_patterns {p : Pattern} : p ∈ sys.patterns patternsDir ↔ ∃ name naive optimized,
    sys.Holds patternsDir name naive optimized ∧
      p = recorded patternsDir name naive optimized := by
  unfold System.patterns System.Holds
  cases hdir : sys.readDir patternsDir with
  | error e => simp [discoverPatterns]
  | ok dir =>
    rw [mem_discoverPatterns]
    simp only [Except.ok.injEq, exists_eq_left']
    refine exists_congr fun name => exists_congr fun naive => exists_congr fun optimized => ?_
    tauto

theorem patterns_eq_nil : sys.patterns patternsDir = [] ↔
    ∀ name naive optimized, ¬ sys.Holds patternsDir name naive optimized := by
  rw [List.eq_nil_iff_forall_not_mem]
  simp only [mem_patterns]
  constructor
  · exact fun h name naive optimized hh => h _ ⟨name, naive, optimized, hh, rfl⟩
  · rintro h p ⟨name, naive, optimized, hh, -⟩
    exact h name naive optimized hh

theorem analyzes_recorded {name : Text} {naive optimized : Bool} {delta : ContentionDelta} :
    Analyzes parse (sys.setup parse patternsDir).runner (recorded patternsDir name naive optimized)
        delta ↔
      naive = true ∧ optimized = true ∧
        sys.ReportsPair parse (joinPath patternsDir name) delta := by
  rw [analyzes_iff]
  simp only [recorded, analyzePair_reports, System.ReportsPair]
  cases naive <;> cases optimized <;> simp

-- ---------------------------------------------------------------------------
-- The batch commands
-- ---------------------------------------------------------------------------

theorem exits_some {o : Output} {code : Nat} : Exits (some o) code ↔ o.code = code := by
  simp [Exits]

theorem Exits.unique {out : Option Output} {code code' : Nat} (h : Exits out code)
    (h' : Exits out code') : code = code' := by
  obtain ⟨o, rfl, rfl⟩ := h
  exact exits_some.mp h'

def System.Idle (sys : System ε) (patternsDir : Path) : Prop :=
  ¬ sys.Launches ∨ ∀ name naive optimized, ¬ sys.Holds patternsDir name naive optimized

variable (parse) in
theorem idle_iff : sys.Idle patternsDir ↔
    (sys.setup parse patternsDir).available = false ∨ sys.patterns patternsDir = [] := by
  rw [System.Idle, ← available_iff sys parse patternsDir, patterns_eq_nil, Bool.not_eq_true]

variable (parse) in
theorem not_idle : ¬ sys.Idle patternsDir →
    (sys.setup parse patternsDir).available = true ∧ sys.patterns patternsDir ≠ [] := by
  rw [idle_iff parse, not_or, Bool.not_eq_false]
  exact id

variable {fmt : Formatter} {display : ε → Text} {disk : Disk ε} {prov : BenchProvenance}

theorem runAllCmd_idle {setup : Setup} {patterns : List Pattern}
    (h : setup.available = false ∨ patterns = []) : Exits (runAllCmd fmt setup patterns) 2 := by
  unfold runAllCmd
  split
  · exact ⟨_, rfl, rfl⟩
  · next ha =>
    rw [if_pos (h.resolve_left ha)]
    exact ⟨_, rfl, rfl⟩

theorem runAllCmd_codes {setup : Setup} {patterns : List Pattern} (ha : setup.available = true)
    (hne : patterns ≠ []) {code : Nat} (h : Exits (runAllCmd fmt setup patterns) code) :
    code = 0 ∨ code = 1 := by
  obtain ⟨o, ho, rfl⟩ := h
  rw [runAllCmd, if_neg (by simp [ha]), if_neg hne] at ho
  obtain ⟨table, -, hr⟩ := Option.bind_eq_some_iff.mp ho
  cases hr
  simp only
  split
  · exact .inr rfl
  · exact .inl rfl

variable (display prov) in
theorem benchCmd_idle {setup : Setup} {sites : List (Site ε)}
    (h : setup.available = false ∨ sites = []) :
    (benchCmd display setup prov sites).1.code = 2 := by
  unfold benchCmd
  split
  · rfl
  · next ha =>
    rw [if_pos (h.resolve_left ha)]
    rfl

variable (display prov) in
theorem benchCmd_codes {setup : Setup} {sites : List (Site ε)} (ha : setup.available = true)
    (hne : sites ≠ []) : (benchCmd display setup prov sites).1.code = 0 ∨
      (benchCmd display setup prov sites).1.code = 1 := by
  rw [benchCmd, if_neg (by simp [ha]), if_neg hne]
  simp only
  split
  · exact .inl rfl
  · exact .inr rfl

/-- What `all` exits with. It panics, which ends the process with 101 and not
with a code of its own, where a name or a failure is too wide for the table. -/
structure AllExits (fmt : Formatter) (parse : Text → Except Text DiffReport) (sys : System ε)
    (patternsDir : Path) (out : Option Output) : Prop where
  idle : Exits out 2 ↔ sys.Idle patternsDir
  clean : Exits out 0 ↔ ¬ sys.Idle patternsDir ∧ ∀ name naive optimized,
    sys.Holds patternsDir name naive optimized → fmt.Accepts (utf8Len name) ∧
      naive = true ∧ optimized = true ∧
        ∃ delta, sys.ReportsPair parse (joinPath patternsDir name) delta
  codes : ∀ code, Exits out code → code ≤ 2
  panics : out = none ↔ ¬ sys.Idle patternsDir ∧ ¬ fmt.AcceptsAll
    (columnWidths ((runAll parse (sys.setup parse patternsDir).runner
      (sys.patterns patternsDir)).map PatternResult.row))

theorem runAllCmd_allExits : AllExits fmt parse sys patternsDir
    (runAllCmd fmt (sys.setup parse patternsDir) (sys.patterns patternsDir)) := by
  by_cases hidle : sys.Idle patternsDir
  · have h2 : Exits (runAllCmd fmt (sys.setup parse patternsDir) (sys.patterns patternsDir)) 2 :=
      runAllCmd_idle ((idle_iff parse).mp hidle)
    obtain ⟨out, hout, -⟩ := id h2
    refine ⟨iff_of_true h2 hidle, ?_, fun code h => (h.unique h2).le, ?_⟩
    · refine iff_of_false (fun h => ?_) (fun h => h.1 hidle)
      cases h.unique h2
    · exact iff_of_false (hout ▸ nofun) fun h => h.1 hidle
  · obtain ⟨ha, hne⟩ := not_idle parse hidle
    have hcodes {code : Nat} := @runAllCmd_codes fmt _ _ ha hne code
    refine ⟨iff_of_false (fun h => ?_) hidle, ?_, fun code h => ?_,
      (runAllCmd_eq_none fmt ha hne).trans (and_iff_right hidle).symm⟩
    · rcases hcodes h with h | h <;> cases h
    · rw [runAllCmd_exits fmt ha _ hne, ← forall₂_and]
      simp only [hidle, not_false_eq_true, true_and, mem_patterns]
      constructor
      · intro h name naive optimized hh
        obtain ⟨hw, delta, hd⟩ := h _ ⟨name, naive, optimized, hh, rfl⟩
        obtain ⟨hn, ho, hr⟩ := analyzes_recorded.mp hd
        exact ⟨hw, hn, ho, delta, hr⟩
      · rintro h p ⟨name, naive, optimized, hh, rfl⟩
        obtain ⟨hw, hn, ho, delta, hr⟩ := h name naive optimized hh
        exact ⟨hw, delta, analyzes_recorded.mpr ⟨hn, ho, hr⟩⟩
    · rcases hcodes h with rfl | rfl <;> decide

/-- What `bench` exits with: 0 exactly when it rewrites some file. -/
structure BenchExits (parse : Text → Except Text DiffReport) (sys : System ε) (disk : Disk ε)
    (patternsDir : Path) (out : Option Output) : Prop where
  idle : Exits out 2 ↔ sys.Idle patternsDir
  updated : Exits out 0 ↔ ¬ sys.Idle patternsDir ∧
    ∃ name delta, sys.Holds patternsDir name true true ∧
      sys.ReportsPair parse (joinPath patternsDir name) delta ∧
        (disk (joinPath (joinPath patternsDir name) "BENCH.md".toList)).Rewrites
          (renderBenchBlock name delta (collectProvenance sys sys.bin patternsDir))
  codes : ∃ code ≤ 2, Exits out code

theorem updates_iff : (∃ site ∈ sitesOf disk (sys.patterns patternsDir),
      site.Updates (sys.setup parse patternsDir) prov File.Rewrites) ↔
    ∃ name delta, sys.Holds patternsDir name true true ∧
      sys.ReportsPair parse (joinPath patternsDir name) delta ∧
        (disk (joinPath (joinPath patternsDir name) "BENCH.md".toList)).Rewrites
          (renderBenchBlock name delta prov) := by
  constructor
  · rintro ⟨site, hs, delta, hd, hr⟩
    obtain ⟨p, hp, rfl⟩ := List.mem_map.mp hs
    obtain ⟨name, naive, optimized, hh, rfl⟩ := mem_patterns.mp hp
    obtain ⟨rfl, rfl, hrep⟩ := analyzes_recorded.mp hd
    exact ⟨name, delta, hh, hrep, hr⟩
  · rintro ⟨name, delta, hh, hrep, hr⟩
    have hp := mem_patterns.mpr ⟨name, true, true, hh, rfl⟩
    exact ⟨_, List.mem_map_of_mem hp, delta, analyzes_recorded.mpr ⟨rfl, rfl, hrep⟩, hr⟩

theorem benchOnDisk_benchExits : BenchExits parse sys disk patternsDir
    (some (benchOnDisk display (sys.setup parse patternsDir)
      (collectProvenance sys sys.bin patternsDir) (sys.patterns patternsDir) disk).1) := by
  have hnil : sitesOf disk (sys.patterns patternsDir) = [] ↔ sys.patterns patternsDir = [] :=
    List.map_eq_nil_iff
  obtain ⟨prov, hprov⟩ : ∃ prov, prov = collectProvenance sys sys.bin patternsDir := ⟨_, rfl⟩
  simp only [benchOnDisk, ← hprov]
  by_cases hidle : sys.Idle patternsDir
  · have h2 := benchCmd_idle display prov (((idle_iff parse).mp hidle).imp_right hnil.mpr)
    refine ⟨iff_of_true (exits_some.mpr h2) hidle, ?_, 2, le_rfl, exits_some.mpr h2⟩
    rw [exits_some, h2]
    exact iff_of_false (by decide) fun h => h.1 hidle
  · obtain ⟨ha, hne⟩ := not_idle parse hidle
    have hcodes := benchCmd_codes display prov ha (mt hnil.mp hne)
    refine ⟨iff_of_false (fun h => ?_) hidle, ?_, _, ?_, exits_some.mpr rfl⟩
    · rcases hcodes with h' | h' <;> cases h'.symm.trans (exits_some.mp h)
    · rw [exits_some, benchCmd_exits display _ ha (mt hnil.mp hne), updates_iff, ← hprov]
      simp only [hidle, not_false_eq_true, true_and]
    · rcases hcodes with h' | h' <;> rw [h'] <;> decide

-- ---------------------------------------------------------------------------
-- Every command
-- ---------------------------------------------------------------------------

variable (parse sys) in
theorem singleCmd_cases (patternDir : Path) :
    ((∃ delta, sys.ReportsPair parse patternDir delta) ∧
        (singleCmd parse sys patternDir).code = 0) ∨
      ((¬ ∃ delta, sys.ReportsPair parse patternDir delta) ∧
        (singleCmd parse sys patternDir).code = 1) := by
  have hpair (delta : ContentionDelta) : runPair parse sys patternDir = .ok delta ↔
      sys.ReportsPair parse patternDir delta := analyzePair_reports patternDir
  unfold singleCmd
  cases h : runPair parse sys patternDir with
  | ok delta => exact .inl ⟨⟨delta, (hpair delta).mp h⟩, rfl⟩
  | error e =>
    refine .inr ⟨?_, rfl⟩
    rintro ⟨delta, hd⟩
    cases h.symm.trans ((hpair delta).mpr hd)

structure ExitCodes (fmt : Formatter) (parse : Text → Except Text DiffReport)
    (display : ε → Text) (sys : System ε) (disk : Disk ε) : Prop where
  usage : sys.argv.tail = [] → Exits (main parse fmt display sys disk).1 2
  all : ∀ args, sys.argv.tail = "all".toList :: args →
    AllExits fmt parse sys (patternsDirOf args) (main parse fmt display sys disk).1
  bench : ∀ args, sys.argv.tail = "bench".toList :: args →
    BenchExits parse sys disk (patternsDirOf args) (main parse fmt display sys disk).1
  single : ∀ patternDir args, sys.argv.tail = patternDir :: args → patternDir ≠ "all".toList →
    patternDir ≠ "bench".toList →
      (Exits (main parse fmt display sys disk).1 0 ↔
        ∃ delta, sys.ReportsPair parse patternDir delta) ∧
      (Exits (main parse fmt display sys disk).1 1 ↔
        ¬ ∃ delta, sys.ReportsPair parse patternDir delta)

theorem exit_codes (fmt : Formatter) (parse : Text → Except Text DiffReport) (display : ε → Text)
    (sys : System ε) (disk : Disk ε) : ExitCodes fmt parse display sys disk where
  usage h := by
    rw [main, h]
    exact ⟨_, rfl, rfl⟩
  all args h := by
    rw [main, h]
    simp only [if_true]
    exact runAllCmd_allExits
  bench args h := by
    have hne : "bench".toList ≠ "all".toList := by decide
    rw [main, h]
    simp only [hne, if_false, if_true]
    exact benchOnDisk_benchExits
  single patternDir args h hall hbench := by
    rw [main, h]
    simp only [hall, hbench, if_false, exits_some]
    obtain ⟨hr, hc⟩ | ⟨hr, hc⟩ := singleCmd_cases sys parse patternDir
    · rw [hc]
      exact ⟨iff_of_true rfl hr, iff_of_false (by decide) (not_not_intro hr)⟩
    · rw [hc]
      exact ⟨iff_of_false (by decide) hr, iff_of_true rfl hr⟩

end

end Harness
