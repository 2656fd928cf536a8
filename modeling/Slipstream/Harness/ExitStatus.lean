import Slipstream.Harness.BenchBlock
import Slipstream.Harness.Commands
import Slipstream.Harness.TableShape

/-!
# What an exit code tells

`all` exits with 0 exactly when every pattern was analysed. `bench` exits with
0 exactly when some file was rewritten, whatever else failed on the way.
-/

namespace Harness

open Layout (utf8Len)

variable {ε : Type} {setup : Setup} {prov : BenchProvenance} {display : ε → Text}

-- ---------------------------------------------------------------------------
-- all
-- ---------------------------------------------------------------------------

def Exits (out : Option Output) (code : Nat) : Prop := ∃ o, out = some o ∧ o.code = code

variable {parse : Text → Except Text DiffReport} {runner : CoreRunner} {p : Pattern}

def Analyzed (parse : Text → Except Text DiffReport) (runner : CoreRunner) (p : Pattern) : Prop :=
  ∃ delta, Analyzes parse runner p delta

theorem Fails.not_analyzed {e : HarnessError} (h : Fails parse runner p e) :
    ¬ Analyzed parse runner p := fun ⟨_, ha⟩ => ha.not_fails e h

theorem not_analyzed_of_incomplete (h : p.isComplete = false) : ¬ Analyzed parse runner p := by
  rintro ⟨_, naive, optimized, _, _, hn, ho, -⟩
  rw [Pattern.isComplete, hn, ho] at h
  cases h

theorem runPattern_incomplete : ((runPattern parse runner p).missingSides ≠ [] ||
    (runPattern parse runner p).error.isSome) = true ↔ ¬ Analyzed parse runner p := by
  obtain ⟨e, he, hr⟩ | ⟨-, d, hd, hr⟩ | ⟨-, hc, missing, hm, hr⟩ := runPattern_cases parse runner p
  · simp [hr, he.not_analyzed]
  · have ha : Analyzed parse runner p := ⟨d, hd⟩
    simp [hr, ha]
  · simp [hr, not_analyzed_of_incomplete hc, missingLists_ne_nil missing hm]

theorem acceptsAll_of_analyzed {fmt : Formatter} {patterns : List Pattern}
    (h : ∀ p ∈ patterns, Analyzed parse runner p) :
    fmt.AcceptsAll (columnWidths ((runAll parse runner patterns).map PatternResult.row)) ↔
      ∀ p ∈ patterns, fmt.Accepts (utf8Len p.name) := by
  rw [acceptsAll_iff, runAll, List.forall_mem_map]
  refine forall₂_congr fun p hp => ?_
  obtain ⟨hname, ⟨e, he, -⟩ | ⟨-, hv⟩⟩ := runPattern_verdict parse runner p
  · exact absurd (h p hp) he.not_analyzed
  · rw [hname]
    exact and_iff_left (accepts_small (plainVerdicts_small _ hv).2)

theorem runAllCmd_eq (fmt : Formatter) (ha : setup.available = true) {patterns : List Pattern}
    (hne : patterns ≠ []) : runAllCmd fmt setup patterns =
      (renderTable fmt (runAll setup.parse setup.runner patterns)).map fun table =>
        { code := if (runAll setup.parse setup.runner patterns).any
            (fun r => r.missingSides ≠ [] || r.error.isSome) then 1 else 0
          stdout := table
          stderr := [summarize (runAll setup.parse setup.runner patterns)] } := by
  rw [runAllCmd, if_neg (by simp [ha]), if_neg hne]
  cases hr : renderTable fmt (runAll setup.parse setup.runner patterns) <;> simp only [hr] <;> rfl

/-- Rendering the table panics where a cell of it is too wide to be padded. -/
theorem runAllCmd_eq_none (fmt : Formatter) (ha : setup.available = true) {patterns : List Pattern}
    (hne : patterns ≠ []) : runAllCmd fmt setup patterns = none ↔
      ¬ fmt.AcceptsAll
        (columnWidths ((runAll setup.parse setup.runner patterns).map PatternResult.row)) := by
  rw [runAllCmd_eq fmt ha hne, Option.map_eq_none_iff]
  by_cases h : fmt.AcceptsAll
      (columnWidths ((runAll setup.parse setup.runner patterns).map PatternResult.row))
  · simp [renderTable_of_accepts h, h]
  · simp [renderTable_of_rejects h, h]

theorem runAllCmd_exits (fmt : Formatter) (ha : setup.available = true) (patterns : List Pattern)
    (hne : patterns ≠ []) : Exits (runAllCmd fmt setup patterns) 0 ↔
      (∀ p ∈ patterns, fmt.Accepts (utf8Len p.name)) ∧
        ∀ p ∈ patterns, Analyzed setup.parse setup.runner p := by
  have hall : (runAll setup.parse setup.runner patterns).any
      (fun r => r.missingSides ≠ [] || r.error.isSome) = false ↔
        ∀ p ∈ patterns, Analyzed setup.parse setup.runner p := by
    rw [List.any_eq_false, runAll, List.forall_mem_map]
    exact forall₂_congr fun p _ => runPattern_incomplete.not_left
  have hexit : Exits (runAllCmd fmt setup patterns) 0 ↔
      fmt.AcceptsAll
        (columnWidths ((runAll setup.parse setup.runner patterns).map PatternResult.row)) ∧
      ∀ p ∈ patterns, Analyzed setup.parse setup.runner p := by
    rw [runAllCmd_eq fmt ha hne, ← hall]
    by_cases hacc : fmt.AcceptsAll
        (columnWidths ((runAll setup.parse setup.runner patterns).map PatternResult.row))
    · rw [renderTable_of_accepts hacc]
      simp [Exits, hacc]
    · rw [renderTable_of_rejects hacc]
      simp [Exits, hacc]
  rw [hexit]
  exact and_congr_left fun h => acceptsAll_of_analyzed h

-- ---------------------------------------------------------------------------
-- bench
-- ---------------------------------------------------------------------------

/-- What became of one pattern of the loop: nothing, or what its update answered. -/
def outcome (prov : BenchProvenance) (x : Site ε × PatternResult) : Option (Except ε Bool) :=
  x.2.delta.map fun delta =>
    (updateBenchMd x.1.benchMd (renderBenchBlock x.1.pattern.name delta prov)).1

structure Tallied (tally : Tally) (os : List (Option (Except ε Bool))) : Prop where
  updated : tally.updated = os.countP fun o => o matches some (.ok true)
  unchanged : tally.unchanged = os.countP fun o => o matches some (.ok false)
  skipped : tally.skipped = os.countP fun o => o matches none
  failed : tally.failed = os.countP fun o => o matches some (.error _)

theorem tallied_benchOne {progress : Progress ε} {os : List (Option (Except ε Bool))}
    (h : Tallied progress.tally os) (x : Site ε × PatternResult) :
    Tallied (benchOne display prov progress x.1 x.2).tally (os ++ [outcome prov x]) := by
  obtain ⟨site, r⟩ := x
  obtain ⟨hu, hn, hs, hf⟩ := h
  unfold benchOne outcome
  cases hd : r.delta with
  | none => constructor <;> simp [List.countP_append, hu, hn, hs, hf]
  | some delta =>
    simp only [Option.map_some]
    obtain ⟨answer, file⟩ :=
      updateBenchMd site.benchMd (renderBenchBlock site.pattern.name delta prov)
    cases answer with
    | error e => constructor <;> simp [List.countP_append, hu, hn, hs, hf]
    | ok changed => cases changed with
      | true => constructor <;> simp [List.countP_append, hu, hn, hs, hf]
      | false => constructor <;> simp [List.countP_append, hu, hn, hs, hf]

theorem tallied_benchLoop (display : ε → Text) (prov : BenchProvenance) (sites : List (Site ε))
    (results : List PatternResult) :
    Tallied (benchLoop display prov sites results).tally
      ((sites.zip results).map (outcome prov)) := by
  unfold benchLoop
  induction sites.zip results using List.reverseRecOn with
  | nil => exact ⟨rfl, rfl, rfl, rfl⟩
  | append_singleton l x ih =>
    rw [List.foldl_append, List.map_append]
    exact tallied_benchOne ih x

/-- The pattern is analysed, and `P` holds of its file and the block for it. -/
def Site.Updates (setup : Setup) (prov : BenchProvenance) (P : File ε → Text → Prop)
    (site : Site ε) : Prop :=
  ∃ delta, Analyzes setup.parse setup.runner site.pattern delta ∧
    P site.benchMd (renderBenchBlock site.pattern.name delta prov)

/-- What became of a pattern, told by what its update answers. -/
theorem outcome_cases (prov : BenchProvenance) (site : Site ε) :
    (¬ Analyzed setup.parse setup.runner site.pattern ∧
        outcome prov (site, runPattern setup.parse setup.runner site.pattern) = none) ∨
      ∃ delta, Analyzes setup.parse setup.runner site.pattern delta ∧
        outcome prov (site, runPattern setup.parse setup.runner site.pattern) =
          some (updateBenchMd site.benchMd (renderBenchBlock site.pattern.name delta prov)).1 := by
  obtain ⟨e, he, hr⟩ | ⟨-, delta, hd, hr⟩ | ⟨-, hc, missing, -, hr⟩ :=
    runPattern_cases setup.parse setup.runner site.pattern
  · exact .inl ⟨he.not_analyzed, by rw [outcome, hr]; rfl⟩
  · exact .inr ⟨delta, hd, by rw [outcome, hr]; rfl⟩
  · exact .inl ⟨not_analyzed_of_incomplete hc, by rw [outcome, hr]; rfl⟩

/-- A counter of `bench` that goes by the answers of the updates. -/
theorem outcome_answers (q : Option (Except ε Bool) → Bool) {P : File ε → Text → Prop}
    (hnone : q none = false)
    (hq : ∀ file block, q (some (updateBenchMd file block).1) = true ↔ P file block)
    (prov : BenchProvenance) (site : Site ε) :
    q (outcome prov (site, runPattern setup.parse setup.runner site.pattern)) = true ↔
      site.Updates setup prov P := by
  obtain ⟨hn, ho⟩ | ⟨delta, hd, ho⟩ := outcome_cases prov site
  · rw [ho, hnone]
    refine iff_of_false Bool.false_ne_true ?_
    rintro ⟨delta, hd, -⟩
    exact hn ⟨delta, hd⟩
  · rw [ho, hq]
    constructor
    · exact fun hp => ⟨delta, hd, hp⟩
    · rintro ⟨delta', hd', hp⟩
      exact hd'.unique hd ▸ hp

theorem outcome_updated (site : Site ε) :
    (outcome prov (site, runPattern setup.parse setup.runner site.pattern) matches
      some (.ok true)) = true ↔ site.Updates setup prov File.Rewrites := by
  refine outcome_answers (fun o => o matches some (.ok true)) rfl (fun file block => ?_) prov site
  rw [← update_eq_true]
  split
  · next h => simpa using h
  · next h => simpa using h

theorem zip_runAll (setup : Setup) (sites : List (Site ε)) :
    sites.zip (runAll setup.parse setup.runner (sites.map Site.pattern)) =
      sites.map fun site => (site, runPattern setup.parse setup.runner site.pattern) := by
  rw [List.map_prod_left_eq_zip, runAll, List.map_map]
  rfl

theorem benchCmd_exits (display : ε → Text) (prov : BenchProvenance)
    (ha : setup.available = true) {sites : List (Site ε)} (hne : sites ≠ []) :
    (benchCmd display setup prov sites).1.code = 0 ↔
      ∃ site ∈ sites, site.Updates setup prov File.Rewrites := by
  have htally := (tallied_benchLoop display prov sites
    (runAll setup.parse setup.runner (sites.map Site.pattern))).updated
  have hcode : (benchCmd display setup prov sites).1.code = 0 ↔
      0 < (benchLoop display prov sites
        (runAll setup.parse setup.runner (sites.map Site.pattern))).tally.updated := by
    rw [benchCmd, if_neg (by simp [ha]), if_neg hne]
    simp
  rw [hcode, htally, List.countP_pos_iff, zip_runAll, List.map_map]
  simp only [List.mem_map, Function.comp_apply, exists_exists_and_eq_and, outcome_updated]

-- ---------------------------------------------------------------------------
-- Failures and exit codes
-- ---------------------------------------------------------------------------

/-- `all` exits with 0 exactly when every pattern has both sides and was
analysed without error; `bench` exits with 0 only if no pair failed and no
update returned an error. -/
structure NothingMasked (fmt : Formatter) (display : ε → Text) (setup : Setup)
    (prov : BenchProvenance) (sites : List (Site ε)) : Prop where
  all : Exits (runAllCmd fmt setup (sites.map Site.pattern)) 0 ↔
    ∀ site ∈ sites, Analyzed setup.parse setup.runner site.pattern
  failures : (benchCmd display setup prov sites).1.code = 0 →
    ∀ site ∈ sites, ∀ e, ¬ Fails setup.parse setup.runner site.pattern e
  updates : (benchCmd display setup prov sites).1.code = 0 →
    ∀ site ∈ sites, ∀ delta, Analyzes setup.parse setup.runner site.pattern delta →
      ∀ e, (updateBenchMd site.benchMd
        (renderBenchBlock site.pattern.name delta prov)).1 ≠ .error e

/-- A pair that fails, or a file that refuses its update. -/
def Site.Troubled (setup : Setup) (prov : BenchProvenance) (site : Site ε) : Prop :=
  (∃ e, Fails setup.parse setup.runner site.pattern e) ∨ site.Updates setup prov File.Refuses

theorem not_troubled {site : Site ε} : ¬ site.Troubled setup prov ↔
    (∀ e, ¬ Fails setup.parse setup.runner site.pattern e) ∧
      ∀ delta, Analyzes setup.parse setup.runner site.pattern delta →
        ∀ e, (updateBenchMd site.benchMd
          (renderBenchBlock site.pattern.name delta prov)).1 ≠ .error e := by
  simp only [Site.Troubled, Site.Updates, ← update_eq_error, not_or, not_exists, not_and, ne_eq]

/-- With the binary launchable, for every list of patterns, every answer of
the core and every state of the files. -/
theorem nothing_masked_iff (fmt : Formatter) (display : ε → Text) (prov : BenchProvenance)
    (ha : setup.available = true) {sites : List (Site ε)} (hne : sites ≠ []) :
    NothingMasked fmt display setup prov sites ↔
      ((∀ site ∈ sites, fmt.Accepts (utf8Len site.pattern.name)) ∨
        ∃ site ∈ sites, ¬ Analyzed setup.parse setup.runner site.pattern) ∧
      ¬ ((∃ site ∈ sites, site.Updates setup prov File.Rewrites) ∧
        ∃ site ∈ sites, site.Troubled setup prov) := by
  have hall := runAllCmd_exits fmt ha (sites.map Site.pattern) (by simpa using hne)
  rw [List.forall_mem_map, List.forall_mem_map] at hall
  have hbench := benchCmd_exits display prov ha hne
  constructor
  · intro h
    refine ⟨?_, ?_⟩
    · by_cases hany : ∀ site ∈ sites, Analyzed setup.parse setup.runner site.pattern
      · exact .inl (hall.mp (h.all.mpr hany)).1
      · simp only [not_forall] at hany
        obtain ⟨site, hs, hn⟩ := hany
        exact .inr ⟨site, hs, hn⟩
    · rintro ⟨hrew, site, hs, ht⟩
      have hc := hbench.mpr hrew
      exact not_troubled.mpr ⟨h.failures hc site hs, h.updates hc site hs⟩ ht
  · rintro ⟨hnames, hmask⟩
    have hclean (hc : (benchCmd display setup prov sites).1.code = 0) (site : Site ε)
        (hs : site ∈ sites) : ¬ site.Troubled setup prov :=
      fun ht => hmask ⟨hbench.mp hc, site, hs, ht⟩
    refine ⟨?_, fun hc site hs => (not_troubled.mp (hclean hc site hs)).1,
      fun hc site hs => (not_troubled.mp (hclean hc site hs)).2⟩
    rw [hall]
    constructor
    · exact fun h => h.2
    · intro h
      refine ⟨hnames.resolve_right ?_, h⟩
      rintro ⟨site, hs, hnot⟩
      exact hnot (h site hs)

/-- What the core prints of two sides, cut down to the fields that must be
there. -/
def reportText : Text :=
  ("\x7b\"left\":\x7b\x7d,\"right\":\x7b\x7d,\"summary\":" ++
    "\x7b\"storage_reads_delta\":8,\"storage_writes_delta\":-1\x7d\x7d").toList

def decoded : DiffReport :=
  ⟨⟨⟨0, by decide, by decide⟩, ⟨8, by decide, by decide⟩, ⟨-1, by decide, by decide⟩⟩⟩

def decodeReport (raw : Text) : Except Text DiffReport :=
  if raw = reportText then .ok decoded else .error "expected value at line 1 column 1".toList

/-- A core that reports on the sides of `01-good` and cannot be launched on others. -/
def flaky : Setup where
  slipstreamBin := none
  available := true
  runner := ⟨fun naive optimized =>
    if naive = "patterns/01-good/naive".toList ∧ optimized = "patterns/01-good/optimized".toList
    then .ok reportText else .error (.spawn "boom".toList)⟩
  parse := decodeReport
  patternsDir := "patterns".toList

def good : Site Empty where
  pattern := {
    name := "01-good".toList
    dir := "patterns/01-good".toList
    naive := some "patterns/01-good/naive".toList
    optimized := some "patterns/01-good/optimized".toList }
  benchMd := File.holding none

def bad : Site Empty where
  pattern := {
    name := "02-bad".toList
    dir := "patterns/02-bad".toList
    naive := some "patterns/02-bad/naive".toList
    optimized := some "patterns/02-bad/optimized".toList }
  benchMd := File.holding none

def halfDone : Site Empty where
  pattern := {
    name := "03-half".toList
    dir := "patterns/03-half".toList
    naive := some "patterns/03-half/naive".toList
    optimized := none }
  benchMd := File.holding none

theorem decodeReport_reportText : decodeReport reportText = .ok decoded := if_pos rfl

theorem analyzes_good :
    Analyzes flaky.parse flaky.runner good.pattern (contentionDelta decoded) :=
  ⟨_, _, reportText, decoded, rfl, rfl, by decide, decodeReport_reportText, rfl⟩

theorem nothing_masked_half :
    NothingMasked .u16 Empty.elim flaky .unknown [good, halfDone] := by
  refine (nothing_masked_iff .u16 Empty.elim .unknown rfl (List.cons_ne_nil _ _)).mpr
    ⟨.inl (by decide), ?_⟩
  have hfile : ∀ block, ¬ (File.holding none : File Empty).Refuses block := by
    simp [File.Refuses, File.holding]
  rintro ⟨-, site, hs, ⟨e, he⟩ | ⟨delta, -, hr⟩⟩
  · obtain rfl | rfl := List.mem_pair.mp hs
    · exact analyzes_good.not_fails e he
    · obtain ⟨_, _, _, ho, _⟩ := he
      cases ho
  · obtain rfl | rfl := List.mem_pair.mp hs
    · exact hfile _ hr
    · exact hfile _ hr

/-- The failure of one pattern is masked by the update of another. -/
theorem failure_masked : ¬ NothingMasked .u16 Empty.elim flaky .unknown [good, bad] := by
  intro h
  have hcode : (benchCmd Empty.elim flaky .unknown [good, bad]).1.code = 0 := by
    rw [benchCmd_exits Empty.elim .unknown rfl (List.cons_ne_nil _ _)]
    exact ⟨good, List.mem_cons_self, _, analyzes_good, rfl, stale_none _, rfl⟩
  refine h.failures hcode bad (by simp) (.spawn "boom".toList) ?_
  exact ⟨_, _, rfl, rfl, .inl (by decide)⟩

end Harness
