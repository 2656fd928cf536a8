import Slipstream.Base.Layout
import Slipstream.Harness.BenchMd
import Mathlib.Data.Fin.VecNotation

/-!
# The summary table

`runAll` analyses every pattern with both sides through a runner of the core
binary and records what it finds; `renderTable` prints one row a pattern. The
JSON decoder is a parameter.
-/

namespace Harness

open Layout (padLeft padRight utf8Len)

abbrev Path := Text

inductive HarnessError
  | spawn (message : Text)
  | command (code : Option I32) (stderr : Text)
  | parse (message : Text)
  deriving DecidableEq, Repr

/-- `{code:?}`. -/
def debugCode : Option I32 → Text
  | some n => "Some(".toList ++ (toString n.val).toList ++ [')']
  | none => "None".toList

def HarnessError.display : HarnessError → Text
  | .spawn message => "failed to launch slipstream: ".toList ++ message
  | .command code stderr =>
    "slipstream exited with ".toList ++ debugCode code ++ ": ".toList ++ stderr
  | .parse message => "failed to parse slipstream output: ".toList ++ message

structure DiffSummary where
  detectorFindingsDelta : I64
  storageReadsDelta : I64
  storageWritesDelta : I64
  deriving DecidableEq, Repr

structure DiffReport where
  summary : DiffSummary
  deriving DecidableEq, Repr

/-- `diff` is the raw output of the core on two sides. -/
structure CoreRunner where
  diff : Path → Path → Except HarnessError Text

/-- True when there are fewer writes and no more findings. -/
def ContentionDelta.isImprovement (d : ContentionDelta) : Bool :=
  d.storageWritesDelta.val < 0 && d.detectorFindingsDelta.val ≤ 0

def contentionDelta (report : DiffReport) : ContentionDelta where
  storageWritesDelta := report.summary.storageWritesDelta
  storageReadsDelta := report.summary.storageReadsDelta
  detectorFindingsDelta := report.summary.detectorFindingsDelta

structure Pattern where
  name : Text
  dir : Path
  naive : Option Path
  optimized : Option Path
  deriving DecidableEq, Repr

def Pattern.isComplete (p : Pattern) : Bool := p.naive.isSome && p.optimized.isSome

structure PatternResult where
  pattern : Text
  delta : Option ContentionDelta
  missingSides : List Text
  error : Option Text
  deriving DecidableEq, Repr

def PatternResult.verdict (r : PatternResult) : Text :=
  if r.missingSides ≠ [] then
    "missing ".toList ++ " and ".toList.intercalate r.missingSides
  else match r.error with
    | some err => "error: ".toList ++ err
    | none => match r.delta with
      | some d => if d.isImprovement then "IMPROVEMENT".toList else "NO IMPROVEMENT".toList
      | none => "unknown".toList

section
variable (parse : Text → Except Text DiffReport) (runner : CoreRunner)

def analyzePair (naive optimized : Path) : Except HarnessError ContentionDelta := do
  let raw ← runner.diff naive optimized
  let report ← (parse raw).mapError .parse
  return contentionDelta report

def runPattern (p : Pattern) : PatternResult :=
  match p.naive, p.optimized with
  | some naive, some optimized => match analyzePair parse runner naive optimized with
    | .ok delta => { pattern := p.name, delta := some delta, missingSides := [], error := none }
    | .error e => { pattern := p.name, delta := none, missingSides := [], error := some e.display }
  | naive, optimized =>
    let missing := if naive.isNone then ["naive".toList] else []
    let missing := if optimized.isNone then missing ++ ["optimized".toList] else missing
    { pattern := p.name, delta := none, missingSides := missing, error := none }

/-- A failed pair is recorded, and the run goes on. -/
def runAll (patterns : List Pattern) : List PatternResult := patterns.map (runPattern parse runner)

end

-- ---------------------------------------------------------------------------
-- What a run finds
-- ---------------------------------------------------------------------------

/-- Both sides are there, and the core fails on them or writes what does not
decode. -/
def Fails (parse : Text → Except Text DiffReport) (runner : CoreRunner) (p : Pattern)
    (e : HarnessError) : Prop :=
  ∃ naive optimized, p.naive = some naive ∧ p.optimized = some optimized ∧
    (runner.diff naive optimized = .error e ∨ ∃ raw message,
      runner.diff naive optimized = .ok raw ∧ parse raw = .error message ∧ e = .parse message)

def Analyzes (parse : Text → Except Text DiffReport) (runner : CoreRunner) (p : Pattern)
    (delta : ContentionDelta) : Prop :=
  ∃ naive optimized raw report, p.naive = some naive ∧ p.optimized = some optimized ∧
    runner.diff naive optimized = .ok raw ∧ parse raw = .ok report ∧
      delta = contentionDelta report

section
variable {parse : Text → Except Text DiffReport} {runner : CoreRunner} {p : Pattern}

theorem analyzePair_of_error {naive optimized : Path} {e : HarnessError}
    (hd : runner.diff naive optimized = .error e) :
    analyzePair parse runner naive optimized = .error e := by
  rw [analyzePair, hd]
  rfl

theorem analyzePair_of_ok {naive optimized : Path} {raw : Text}
    (hd : runner.diff naive optimized = .ok raw) :
    analyzePair parse runner naive optimized =
      ((parse raw).mapError .parse).map contentionDelta := by
  rw [analyzePair, hd]
  rfl

theorem analyzePair_error {naive optimized : Path} {e : HarnessError} :
    analyzePair parse runner naive optimized = .error e ↔
      runner.diff naive optimized = .error e ∨ ∃ raw message,
        runner.diff naive optimized = .ok raw ∧ parse raw = .error message ∧
          e = .parse message := by
  cases hd : runner.diff naive optimized with
  | error e' => simp [analyzePair_of_error hd]
  | ok raw =>
    rw [analyzePair_of_ok hd]
    cases hp : parse raw <;> simp [hp, Except.mapError, Except.map, eq_comm]

theorem analyzePair_ok {naive optimized : Path} {delta : ContentionDelta} :
    analyzePair parse runner naive optimized = .ok delta ↔ ∃ raw report,
      runner.diff naive optimized = .ok raw ∧ parse raw = .ok report ∧
        delta = contentionDelta report := by
  cases hd : runner.diff naive optimized with
  | error e' => simp [analyzePair_of_error hd]
  | ok raw =>
    rw [analyzePair_of_ok hd]
    cases hp : parse raw <;> simp [hp, Except.mapError, Except.map, eq_comm]

theorem fails_iff {e : HarnessError} : Fails parse runner p e ↔ ∃ naive optimized,
    p.naive = some naive ∧ p.optimized = some optimized ∧
      analyzePair parse runner naive optimized = .error e := by
  simp only [Fails, analyzePair_error]

theorem analyzes_iff {delta : ContentionDelta} : Analyzes parse runner p delta ↔
    ∃ naive optimized, p.naive = some naive ∧ p.optimized = some optimized ∧
      analyzePair parse runner naive optimized = .ok delta := by
  simp only [Analyzes, analyzePair_ok, exists_and_left]

theorem Fails.unique {e e' : HarnessError} (h : Fails parse runner p e)
    (h' : Fails parse runner p e') : e = e' := by
  obtain ⟨naive, optimized, hn, ho, ha⟩ := fails_iff.mp h
  obtain ⟨_, _, hn', ho', ha'⟩ := fails_iff.mp h'
  cases hn.symm.trans hn'
  cases ho.symm.trans ho'
  exact Except.error.inj (ha.symm.trans ha')

theorem Analyzes.unique {delta delta' : ContentionDelta} (h : Analyzes parse runner p delta)
    (h' : Analyzes parse runner p delta') : delta = delta' := by
  obtain ⟨naive, optimized, hn, ho, ha⟩ := analyzes_iff.mp h
  obtain ⟨_, _, hn', ho', ha'⟩ := analyzes_iff.mp h'
  cases hn.symm.trans hn'
  cases ho.symm.trans ho'
  exact Except.ok.inj (ha.symm.trans ha')

theorem Analyzes.not_fails {delta : ContentionDelta} (h : Analyzes parse runner p delta)
    (e : HarnessError) : ¬ Fails parse runner p e := by
  obtain ⟨naive, optimized, hn, ho, ha⟩ := analyzes_iff.mp h
  intro hf
  obtain ⟨_, _, hn', ho', hf⟩ := fails_iff.mp hf
  cases hn.symm.trans hn'
  cases ho.symm.trans ho'
  cases ha.symm.trans hf

end

def missingLists : List (List Text) :=
  [["naive".toList], ["optimized".toList], ["naive".toList, "optimized".toList]]

theorem missingLists_ne_nil : ∀ missing ∈ missingLists, missing ≠ [] := by decide

section
variable (parse : Text → Except Text DiffReport) (runner : CoreRunner) (p : Pattern)

/-- A pattern fails, or is analysed, or lacks a side, and never two of these. -/
theorem runPattern_cases :
    (∃ e, Fails parse runner p e ∧ runPattern parse runner p =
      { pattern := p.name, delta := none, missingSides := [], error := some e.display }) ∨
    ((∀ e, ¬ Fails parse runner p e) ∧ ∃ delta, Analyzes parse runner p delta ∧
      runPattern parse runner p =
        { pattern := p.name, delta := some delta, missingSides := [], error := none }) ∨
    ((∀ e, ¬ Fails parse runner p e) ∧ p.isComplete = false ∧
      ∃ missing ∈ missingLists, runPattern parse runner p =
        { pattern := p.name, delta := none, missingSides := missing, error := none }) := by
  obtain ⟨name, dir, naive, optimized⟩ := p
  cases naive with
  | none =>
    refine .inr (.inr ⟨?_, rfl, ?_⟩)
    · rintro e ⟨_, _, hn, _⟩
      cases hn
    · cases optimized with
      | none => exact ⟨_, .tail _ (.tail _ (.head _)), rfl⟩
      | some optimized => exact ⟨_, .head _, rfl⟩
  | some naive => cases optimized with
    | none =>
      refine .inr (.inr ⟨?_, rfl, _, .tail _ (.head _), rfl⟩)
      rintro e ⟨_, _, _, ho, _⟩
      cases ho
    | some optimized =>
      cases ha : analyzePair parse runner naive optimized with
      | error e =>
        refine .inl ⟨e, fails_iff.mpr ⟨naive, optimized, rfl, rfl, ha⟩, ?_⟩
        simp only [runPattern, ha]
      | ok delta =>
        have hok : Analyzes parse runner ⟨name, dir, some naive, some optimized⟩ delta :=
          analyzes_iff.mpr ⟨naive, optimized, rfl, rfl, ha⟩
        refine .inr (.inl ⟨hok.not_fails, delta, hok, ?_⟩)
        simp only [runPattern, ha]

end

-- ---------------------------------------------------------------------------
-- Rendering
-- ---------------------------------------------------------------------------

/-- The width arguments `format!` accepts: every one before Rust 1.87, those
of a `u16` since, where a wider one panics. -/
inductive Formatter
  | unbounded
  | u16
  deriving DecidableEq, Repr

namespace Formatter

def Accepts : Formatter → Nat → Prop
  | .unbounded, _ => True
  | .u16, width => width ≤ 65535

instance : (fmt : Formatter) → DecidablePred fmt.Accepts
  | .unbounded, _ => .isTrue trivial
  | .u16, width => Nat.decLe width 65535

/-- `{s:<width$}`, without a result where it panics. -/
def alignLeft (fmt : Formatter) (width : Nat) (s : Text) : Option Text :=
  if fmt.Accepts width then some (padRight width s) else none

/-- `{s:>width$}`. -/
def alignRight (fmt : Formatter) (width : Nat) (s : Text) : Option Text :=
  if fmt.Accepts width then some (padLeft width s) else none

end Formatter

abbrev Row := Fin 5 → Text

def headers : Row :=
  !["pattern".toList, "writes".toList, "reads".toList, "findings".toList, "verdict".toList]

def cellDelta (d : Option ContentionDelta) (pick : ContentionDelta → I64) : Text :=
  match d with
  | some d => (toString (pick d).val).toList
  | none => ['-']

def PatternResult.row (r : PatternResult) : Row :=
  ![r.pattern, cellDelta r.delta fun d => d.storageWritesDelta,
    cellDelta r.delta fun d => d.storageReadsDelta,
    cellDelta r.delta fun d => d.detectorFindingsDelta, r.verdict]

/-- The widest cell of each column, in bytes. -/
def columnWidths (rows : List Row) : Fin 5 → Nat :=
  rows.foldl (fun widths row i => max (widths i) (utf8Len (row i))) fun i => utf8Len (headers i)

def renderLine (fmt : Formatter) (widths : Fin 5 → Nat) (cells : Row) : Option Text := do
  let fields ← (List.finRange 5).mapM fun i =>
    if i.val = 0 then fmt.alignLeft (widths i) (cells i) else fmt.alignRight (widths i) (cells i)
  return "  ".toList.intercalate fields

def renderTable (fmt : Formatter) (results : List PatternResult) : Option Text := do
  let rows := results.map PatternResult.row
  let widths := columnWidths rows
  let headerLine ← renderLine fmt widths headers
  let out := headerLine ++ ['\n'] ++ List.replicate (utf8Len headerLine) '-' ++ ['\n']
  rows.foldlM (fun out row => do return out ++ (← renderLine fmt widths row) ++ ['\n']) out

end Harness
