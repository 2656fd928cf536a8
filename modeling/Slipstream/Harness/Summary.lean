import Slipstream.Harness.ExitStatus

/-!
# What the summaries count

The lines in which the batch commands sum up. Each pattern is counted once, as
what became of it: `all` counts the patterns that were analysed, lack a side
and failed, `bench` the files that were rewritten, were current, were skipped
and refused their update.
-/

namespace Harness

variable {ε : Type} {parse : Text → Except Text DiffReport} {runner : CoreRunner}

-- ---------------------------------------------------------------------------
-- all
-- ---------------------------------------------------------------------------

/-- The counters of `all`. -/
inductive Kind
  | analyzed
  | missing
  | failed
  deriving DecidableEq, Repr

def kindOf (r : PatternResult) : Kind :=
  if r.delta.isSome then .analyzed else if r.missingSides ≠ [] then .missing else .failed

theorem tallyResults_eq (results : List PatternResult) : tallyResults results =
    (results.countP fun r => kindOf r = .analyzed, results.countP fun r => kindOf r = .missing,
      results.countP fun r => kindOf r = .failed) := by
  induction results using List.reverseRecOn with
  | nil => rfl
  | append_singleton results r ih =>
    unfold tallyResults at ih ⊢
    rw [List.foldl_concat, ih]
    simp only [List.countP_append, List.countP_singleton, kindOf]
    split
    · simp
    · split <;> simp

theorem length_tallyResults (results : List PatternResult) :
    (tallyResults results).1 + (tallyResults results).2.1 + (tallyResults results).2.2 =
      results.length := by
  rw [tallyResults_eq]
  induction results with
  | nil => rfl
  | cons r results ih =>
    simp only [List.length_cons, List.countP_cons] at ih ⊢
    cases kindOf r with
    | analyzed => simp; omega
    | missing => simp; omega
    | failed => simp; omega

theorem complete_of_fails {p : Pattern} {e : HarnessError} (h : Fails parse runner p e) :
    p.isComplete = true := by
  obtain ⟨naive, optimized, hn, ho, -⟩ := h
  rw [Pattern.isComplete, hn, ho]
  rfl

def Improves (parse : Text → Except Text DiffReport) (runner : CoreRunner) (p : Pattern) : Prop :=
  ∃ delta, Analyzes parse runner p delta ∧ delta.isImprovement = true

structure CountedAs (parse : Text → Except Text DiffReport) (runner : CoreRunner) (p : Pattern) :
    Prop where
  analyzed : kindOf (runPattern parse runner p) = .analyzed ↔ Analyzed parse runner p
  improves : (runPattern parse runner p).delta.any ContentionDelta.isImprovement = true ↔
    Improves parse runner p
  missing : kindOf (runPattern parse runner p) = .missing ↔ p.isComplete = false
  failed : kindOf (runPattern parse runner p) = .failed ↔ ∃ e, Fails parse runner p e

variable (parse runner) in
theorem runPattern_counted (p : Pattern) : CountedAs parse runner p := by
  obtain ⟨e, he, hr⟩ | ⟨hf, d, hd, hr⟩ | ⟨hf, hc, missing, hm, hr⟩ :=
    runPattern_cases parse runner p
  · have hk : kindOf (runPattern parse runner p) = .failed := by rw [hr]; rfl
    have hn := he.not_analyzed
    constructor
    · exact hk ▸ iff_of_false nofun hn
    · rw [hr]
      refine iff_of_false nofun ?_
      rintro ⟨d, hd, -⟩
      exact hn ⟨d, hd⟩
    · rw [hk, complete_of_fails he]
      exact iff_of_false nofun nofun
    · exact hk ▸ iff_of_true rfl ⟨e, he⟩
  · have hk : kindOf (runPattern parse runner p) = .analyzed := by rw [hr]; rfl
    constructor
    · exact hk ▸ iff_of_true rfl ⟨d, hd⟩
    · rw [hr]
      constructor
      · intro h
        exact ⟨d, hd, h⟩
      · rintro ⟨d', hd', h⟩
        exact hd'.unique hd ▸ h
    · refine hk ▸ iff_of_false nofun ?_
      intro hc
      exact not_analyzed_of_incomplete hc ⟨d, hd⟩
    · refine hk ▸ iff_of_false nofun ?_
      rintro ⟨e, he⟩
      exact hf e he
  · have hk : kindOf (runPattern parse runner p) = .missing := by
      rw [hr]
      exact if_pos (missingLists_ne_nil missing hm)
    have hn : ¬ Analyzed parse runner p := not_analyzed_of_incomplete hc
    constructor
    · exact hk ▸ iff_of_false nofun hn
    · rw [hr]
      refine iff_of_false nofun ?_
      rintro ⟨d, hd, -⟩
      exact hn ⟨d, hd⟩
    · exact hk ▸ iff_of_true rfl hc
    · refine hk ▸ iff_of_false nofun ?_
      rintro ⟨e, he⟩
      exact hf e he

variable (parse runner) in
theorem countP_runAll (patterns : List Pattern) (q : PatternResult → Prop) [DecidablePred q]
    {P : Pattern → Prop} [DecidablePred P] (h : ∀ p, q (runPattern parse runner p) ↔ P p) :
    ((runAll parse runner patterns).countP fun r => q r) = patterns.countP fun p => P p := by
  rw [runAll, List.countP_map]
  refine List.countP_congr fun p _ => ?_
  simpa using h p

open Classical in
theorem tallyResults_runAll (patterns : List Pattern) :
    tallyResults (runAll parse runner patterns) =
      (patterns.countP fun p => Analyzed parse runner p,
        patterns.countP fun p => p.isComplete = false,
        patterns.countP fun p => ∃ e, Fails parse runner p e) := by
  have hanalyzed := countP_runAll parse runner patterns (fun r => kindOf r = .analyzed)
    fun p => (runPattern_counted parse runner p).analyzed
  have hmissing := countP_runAll parse runner patterns (fun r => kindOf r = .missing)
    fun p => (runPattern_counted parse runner p).missing
  have hfailed := countP_runAll parse runner patterns (fun r => kindOf r = .failed)
    fun p => (runPattern_counted parse runner p).failed
  rw [tallyResults_eq, hanalyzed, hmissing, hfailed]

def allLine (analyzed improvements missing failed : Nat) : Text :=
  "summary: ".toList ++ printed analyzed ++ " analyzed (".toList ++ printed improvements ++
    " improvements), ".toList ++ printed missing ++ " missing sides, ".toList ++
    printed failed ++ " failed".toList

open Classical in
theorem summarize_runAll (patterns : List Pattern) : summarize (runAll parse runner patterns) =
    if ∃ p ∈ patterns, Analyzed parse runner p then
      allLine (patterns.countP fun p => Analyzed parse runner p)
        (patterns.countP fun p => Improves parse runner p)
        (patterns.countP fun p => p.isComplete = false)
        (patterns.countP fun p => ∃ e, Fails parse runner p e)
    else "summary: nothing was analyzed".toList := by
  have himproves := countP_runAll parse runner patterns
    (fun r => r.delta.any ContentionDelta.isImprovement = true)
    fun p => (runPattern_counted parse runner p).improves
  have hsome : (∃ p ∈ patterns, Analyzed parse runner p) ↔
      0 < patterns.countP fun p => Analyzed parse runner p := by
    simp [List.countP_pos_iff]
  simp only [Bool.decide_eq_true] at himproves
  unfold summarize
  rw [tallyResults_runAll, himproves]
  by_cases h : ∃ p ∈ patterns, Analyzed parse runner p
  · rw [if_pos h]
    exact if_pos (hsome.mp h)
  · rw [if_neg h]
    exact if_neg (mt hsome.mpr h)

open Classical in
/-- The lines of `all` below its table. -/
structure AllPrints (fmt : Formatter) (setup : Setup) (patterns : List Pattern) : Prop where
  panics : runAllCmd fmt setup patterns = none ↔ ¬ fmt.AcceptsAll
    (columnWidths ((runAll setup.parse setup.runner patterns).map PatternResult.row))
  analyzed : (∃ p ∈ patterns, Analyzed setup.parse setup.runner p) →
    ∀ out, runAllCmd fmt setup patterns = some out →
      out.stderr = [allLine (patterns.countP fun p => Analyzed setup.parse setup.runner p)
        (patterns.countP fun p => Improves setup.parse setup.runner p)
        (patterns.countP fun p => p.isComplete = false)
        (patterns.countP fun p => ∃ e, Fails setup.parse setup.runner p e)]
  nothing : (∀ p ∈ patterns, ¬ Analyzed setup.parse setup.runner p) →
    ∀ out, runAllCmd fmt setup patterns = some out →
      out.stderr = ["summary: nothing was analyzed".toList]
  every : (patterns.countP fun p => Analyzed setup.parse setup.runner p) +
    (patterns.countP fun p => p.isComplete = false) +
      (patterns.countP fun p => ∃ e, Fails setup.parse setup.runner p e) = patterns.length
  improved : (patterns.countP fun p => Improves setup.parse setup.runner p) ≤
    patterns.countP fun p => Analyzed setup.parse setup.runner p

variable {setup : Setup}

open Classical in
theorem allPrints (fmt : Formatter) (ha : setup.available = true) {patterns : List Pattern}
    (hne : patterns ≠ []) : AllPrints fmt setup patterns := by
  have hlines (out : Output) (h : runAllCmd fmt setup patterns = some out) :
      out.stderr = [summarize (runAll setup.parse setup.runner patterns)] := by
    rw [runAllCmd_eq fmt ha hne] at h
    obtain ⟨table, -, rfl⟩ := Option.map_eq_some_iff.mp h
    rfl
  refine ⟨runAllCmd_eq_none fmt ha hne, ?_, ?_, ?_, ?_⟩
  · intro hsome out h
    rw [hlines out h, summarize_runAll, if_pos hsome]
  · intro hnone out h
    have hn : ¬ ∃ p ∈ patterns, Analyzed setup.parse setup.runner p :=
      fun ⟨p, hp, hd⟩ => hnone p hp hd
    rw [hlines out h, summarize_runAll, if_neg hn]
  · have hlength := length_tallyResults (runAll setup.parse setup.runner patterns)
    rw [tallyResults_runAll, runAll, List.length_map] at hlength
    exact hlength
  · apply List.countP_mono_left
    intro p _ h
    obtain ⟨d, hd, -⟩ := of_decide_eq_true h
    exact decide_eq_true ⟨d, hd⟩

-- ---------------------------------------------------------------------------
-- bench
-- ---------------------------------------------------------------------------

variable {prov : BenchProvenance} {display : ε → Text}

theorem outcome_unchanged (site : Site ε) :
    (outcome prov (site, runPattern setup.parse setup.runner site.pattern) matches
      some (.ok false)) = true ↔ site.Updates setup prov File.Current := by
  refine outcome_answers (fun o => o matches some (.ok false)) rfl (fun file block => ?_) prov site
  rw [← update_eq_false]
  split
  · next h => simpa using h
  · next h => simpa using h

theorem outcome_skipped (site : Site ε) :
    (outcome prov (site, runPattern setup.parse setup.runner site.pattern) matches none) = true ↔
      ¬ Analyzed setup.parse setup.runner site.pattern := by
  obtain ⟨hn, ho⟩ | ⟨delta, hd, ho⟩ := outcome_cases prov site
  · rw [ho]
    exact iff_of_true rfl hn
  · rw [ho]
    exact iff_of_false Bool.false_ne_true (not_not_intro ⟨delta, hd⟩)

theorem outcome_failed (site : Site ε) :
    (outcome prov (site, runPattern setup.parse setup.runner site.pattern) matches
      some (.error _)) = true ↔ site.Updates setup prov File.Refuses := by
  refine outcome_answers (fun o => o matches some (.error _)) rfl (fun file block => ?_) prov site
  rw [← update_eq_error]
  cases (updateBenchMd file block).1 with
  | ok changed => simp
  | error e => simp

theorem length_eq_outcomes (os : List (Option (Except ε Bool))) {tally : Tally}
    (h : Tallied tally os) :
    tally.updated + tally.unchanged + tally.skipped + tally.failed = os.length := by
  obtain ⟨hu, hn, hs, hf⟩ := h
  rw [hu, hn, hs, hf]
  clear hu hn hs hf
  induction os with
  | nil => rfl
  | cons o os ih =>
    simp only [List.countP_cons, List.length_cons, ← ih]
    rcases o with _ | e | _ | _ <;> simp <;> omega

def refusal (display : ε → Text) (prov : BenchProvenance) (x : Site ε × PatternResult) :
    Option Text :=
  match outcome prov x with
  | some (.error e) => some ("error: could not update ".toList ++
      joinPath x.1.pattern.dir "BENCH.md".toList ++ ": ".toList ++ display e)
  | _ => none

theorem benchOne_stderr (progress : Progress ε) (x : Site ε × PatternResult) :
    (benchOne display prov progress x.1 x.2).stderr =
      progress.stderr ++ (refusal display prov x).toList := by
  obtain ⟨site, r⟩ := x
  unfold benchOne refusal outcome
  cases r.delta with
  | none => simp
  | some delta =>
    simp only [Option.map_some]
    obtain ⟨answer, file⟩ :=
      updateBenchMd site.benchMd (renderBenchBlock site.pattern.name delta prov)
    cases answer with
    | error e => rfl
    | ok changed => cases changed <;> simp

theorem benchLoop_stderr (display : ε → Text) (prov : BenchProvenance) (sites : List (Site ε))
    (results : List PatternResult) :
    (benchLoop display prov sites results).stderr =
      (sites.zip results).filterMap (refusal display prov) := by
  unfold benchLoop
  induction sites.zip results using List.reverseRecOn with
  | nil => rfl
  | append_singleton l x ih =>
    rw [List.foldl_concat, benchOne_stderr, ih, List.filterMap_append]
    cases h : refusal display prov x <;> simp [h]

theorem length_refusals (display : ε → Text) (prov : BenchProvenance)
    (xs : List (Site ε × PatternResult)) :
    (xs.filterMap (refusal display prov)).length =
      (xs.map (outcome prov)).countP fun o => o matches some (.error _) := by
  rw [List.length_filterMap_eq_countP, List.countP_map]
  refine List.countP_congr fun x _ => ?_
  simp only [refusal, Function.comp_apply]
  rcases outcome prov x with _ | e | _ <;> simp

def Site.refusal (display : ε → Text) (setup : Setup) (prov : BenchProvenance) (site : Site ε) :
    Option Text :=
  Harness.refusal display prov (site, runPattern setup.parse setup.runner site.pattern)

def benchLine (updated unchanged skipped failed : Nat) : Text :=
  "bench: ".toList ++ printed updated ++ " BENCH.md updated, ".toList ++ printed unchanged ++
    " already current, ".toList ++ printed skipped ++ " skipped (incomplete), ".toList ++
    printed failed ++ " failed".toList

def provenanceLine (prov : BenchProvenance) : Text :=
  "provenance: contracts@".toList ++ prov.contractsSha ++ ", core@".toList ++ prov.coreSha ++
    ", slipstream=".toList ++ prov.slipstreamVersion ++ ", run=".toList ++ prov.runTime

open Classical in
/-- The lines of `bench`: the files that refuse their updates, the counters and
the provenance. -/
structure BenchPrints (display : ε → Text) (setup : Setup) (prov : BenchProvenance)
    (sites : List (Site ε)) : Prop where
  lines : (benchCmd display setup prov sites).1.stderr =
    sites.filterMap (Site.refusal display setup prov) ++ [
      benchLine (sites.countP fun site => site.Updates setup prov File.Rewrites)
        (sites.countP fun site => site.Updates setup prov File.Current)
        (sites.countP fun site => ¬ Analyzed setup.parse setup.runner site.pattern)
        (sites.countP fun site => site.Updates setup prov File.Refuses),
      provenanceLine prov]
  refused : (sites.filterMap (Site.refusal display setup prov)).length =
    sites.countP fun site => site.Updates setup prov File.Refuses
  every : (sites.countP fun site => site.Updates setup prov File.Rewrites) +
    (sites.countP fun site => site.Updates setup prov File.Current) +
      (sites.countP fun site => ¬ Analyzed setup.parse setup.runner site.pattern) +
        (sites.countP fun site => site.Updates setup prov File.Refuses) = sites.length

theorem countP_outcomes (setup : Setup) (prov : BenchProvenance) (sites : List (Site ε))
    {q : Option (Except ε Bool) → Bool} {P : Site ε → Prop} [DecidablePred P]
    (h : ∀ site, q (outcome prov (site, runPattern setup.parse setup.runner site.pattern)) = true ↔
      P site) :
    ((sites.map fun site => (site, runPattern setup.parse setup.runner site.pattern)).map
      (outcome prov)).countP q = sites.countP fun site => P site := by
  rw [List.map_map, List.countP_map]
  exact List.countP_congr fun site _ => (h site).trans decide_eq_true_iff.symm

open Classical in
theorem benchPrints (display : ε → Text) (prov : BenchProvenance) (ha : setup.available = true)
    {sites : List (Site ε)} (hne : sites ≠ []) : BenchPrints display setup prov sites := by
  have htally := tallied_benchLoop display prov sites
    (runAll setup.parse setup.runner (sites.map Site.pattern))
  have hstderr := benchLoop_stderr display prov sites
    (runAll setup.parse setup.runner (sites.map Site.pattern))
  have hlength := length_eq_outcomes _ htally
  have hrefused := length_refusals display prov
    (sites.zip (runAll setup.parse setup.runner (sites.map Site.pattern)))
  obtain ⟨hu, hn, hs, hf⟩ := id htally
  rw [zip_runAll] at hu hn hs hf hstderr hlength hrefused
  rw [countP_outcomes setup prov sites outcome_updated] at hu
  rw [countP_outcomes setup prov sites outcome_unchanged] at hn
  rw [countP_outcomes setup prov sites outcome_skipped] at hs
  rw [countP_outcomes setup prov sites outcome_failed] at hf hrefused
  rw [List.filterMap_map] at hstderr hrefused
  refine ⟨?_, hrefused, ?_⟩
  · rw [benchCmd, if_neg (by simp [ha]), if_neg hne]
    simp only [hstderr, hu, hn, hs, hf]
    rfl
  · rw [← hu, ← hn, ← hs, ← hf, hlength, List.length_map, List.length_map]

/-- With the binary launchable, for every list of patterns, every answer of the
core and every state of the files. -/
theorem summaries_count (fmt : Formatter) (display : ε → Text) (prov : BenchProvenance)
    (ha : setup.available = true) {sites : List (Site ε)} (hne : sites ≠ []) :
    AllPrints fmt setup (sites.map Site.pattern) ∧ BenchPrints display setup prov sites :=
  ⟨allPrints fmt ha (mt List.map_eq_nil_iff.mp hne), benchPrints display prov ha hne⟩

theorem summaries_count_half : AllPrints .u16 flaky [good.pattern, halfDone.pattern] ∧
    BenchPrints Empty.elim flaky .unknown [good, halfDone] :=
  summaries_count .u16 Empty.elim .unknown rfl (List.cons_ne_nil good [halfDone])

end Harness
