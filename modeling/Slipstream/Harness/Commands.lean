import Slipstream.Harness.Table

/-!
# The batch commands

`all` prints the table of every pattern; `bench` writes the deltas into the
`BENCH.md` of every pattern that was analysed. Both say on standard error how
the batch went, and end with an exit code.
-/

namespace Harness

structure Setup where
  /-- The environment variable `SLIPSTREAM_BIN`. -/
  slipstreamBin : Option Text
  available : Bool
  runner : CoreRunner
  parse : Text → Except Text DiffReport
  patternsDir : Path

structure Output where
  code : Nat
  stdout : Text
  stderr : List Text
  deriving DecidableEq, Repr

def printed (n : Nat) : Text := (toString n).toList

/-- `dir.join(name)`. -/
def joinPath (dir : Path) (name : Text) : Path :=
  if dir.getLast?.getD '/' = '/' then dir ++ name else dir ++ '/' :: name

def noPatterns (patternsDir : Path) : Output where
  code := 2
  stdout := []
  stderr := ["error: no `NN-<name>` pattern directories found under ".toList ++ patternsDir]

-- ---------------------------------------------------------------------------
-- all
-- ---------------------------------------------------------------------------

/-- How many results were analysed, miss a side, and failed. -/
def tallyResults (results : List PatternResult) : Nat × Nat × Nat :=
  results.foldl (fun (ok, missing, failed) r =>
    if r.delta.isSome then (ok + 1, missing, failed)
    else if r.missingSides ≠ [] then (ok, missing + 1, failed)
    else (ok, missing, failed + 1)) (0, 0, 0)

def summarize (results : List PatternResult) : Text :=
  let (ok, missing, failed) := tallyResults results
  let improved := results.countP fun r => r.delta.any ContentionDelta.isImprovement
  if ok > 0 then
    "summary: ".toList ++ printed ok ++ " analyzed (".toList ++ printed improved ++
      " improvements), ".toList ++ printed missing ++ " missing sides, ".toList ++
      printed failed ++ " failed".toList
  else "summary: nothing was analyzed".toList

/-- There is no output where rendering the table panics. -/
def runAllCmd (fmt : Formatter) (setup : Setup) (patterns : List Pattern) : Option Output :=
  if setup.available = false then
    some {
      code := 2
      stdout := []
      stderr := [
        "error: the `slipstream` binary was not found on PATH (or at SLIPSTREAM_BIN=".toList ++
          setup.slipstreamBin.getD "<unset>".toList ++ ")".toList,
        ("hint: build it from slipstream-core, e.g. `cargo build -p slipstream-cli` in " ++
          "slipstream-core, then set SLIPSTREAM_BIN to the binary.").toList] }
  else if patterns = [] then some (noPatterns setup.patternsDir)
  else do
    let results := runAll setup.parse setup.runner patterns
    let table ← renderTable fmt results
    let incomplete := results.any fun r => r.missingSides ≠ [] || r.error.isSome
    return {
      code := if incomplete then 1 else 0
      stdout := table
      stderr := [summarize results] }

-- ---------------------------------------------------------------------------
-- bench
-- ---------------------------------------------------------------------------

variable {ε : Type}

/-- A discovered pattern with its `BENCH.md`, as the update of it finds it. -/
structure Site (ε : Type) where
  pattern : Pattern
  benchMd : File ε

structure Tally where
  updated : Nat
  unchanged : Nat
  skipped : Nat
  failed : Nat
  deriving DecidableEq, Repr

/-- The loop of `bench`: the counters, the files it has gone through, and what
it has written to standard error. -/
structure Progress (ε : Type) where
  tally : Tally
  files : List (File ε)
  stderr : List Text

def benchOne (display : ε → Text) (prov : BenchProvenance) (progress : Progress ε)
    (site : Site ε) (r : PatternResult) : Progress ε :=
  match r.delta with
  | none => { progress with
      tally.skipped := progress.tally.skipped + 1
      files := progress.files ++ [site.benchMd] }
  | some delta =>
    let benchMd := joinPath site.pattern.dir "BENCH.md".toList
    let block := renderBenchBlock site.pattern.name delta prov
    match updateBenchMd site.benchMd block with
    | (.ok true, file) => { progress with
        tally.updated := progress.tally.updated + 1
        files := progress.files ++ [file] }
    | (.ok false, file) => { progress with
        tally.unchanged := progress.tally.unchanged + 1
        files := progress.files ++ [file] }
    | (.error e, file) => {
        tally := { progress.tally with failed := progress.tally.failed + 1 }
        files := progress.files ++ [file]
        stderr := progress.stderr ++
          ["error: could not update ".toList ++ benchMd ++ ": ".toList ++ display e] }

def benchLoop (display : ε → Text) (prov : BenchProvenance) (sites : List (Site ε))
    (results : List PatternResult) : Progress ε :=
  (sites.zip results).foldl (fun progress x => benchOne display prov progress x.1 x.2)
    { tally := ⟨0, 0, 0, 0⟩, files := [], stderr := [] }

/-- The output, with what is left of each `BENCH.md`. -/
def benchCmd (display : ε → Text) (setup : Setup) (prov : BenchProvenance)
    (sites : List (Site ε)) : Output × List (File ε) :=
  if setup.available = false then
    ({
      code := 2
      stdout := []
      stderr := [
        "error: the `slipstream` binary was not found on PATH (or at SLIPSTREAM_BIN=".toList ++
          setup.slipstreamBin.getD "slipstream".toList ++ ")".toList,
        ("hint: build it from slipstream-core, then set SLIPSTREAM_BIN; " ++
          "tables stay TBD until then.").toList] }, sites.map Site.benchMd)
  else if sites = [] then (noPatterns setup.patternsDir, [])
  else
    let results := runAll setup.parse setup.runner (sites.map Site.pattern)
    let ⟨tally, files, stderr⟩ := benchLoop display prov sites results
    ({
      code := if tally.updated > 0 then 0 else 1
      stdout := []
      stderr := stderr ++ [
        "bench: ".toList ++ printed tally.updated ++ " BENCH.md updated, ".toList ++
          printed tally.unchanged ++ " already current, ".toList ++ printed tally.skipped ++
          " skipped (incomplete), ".toList ++ printed tally.failed ++ " failed".toList,
        "provenance: contracts@".toList ++ prov.contractsSha ++ ", core@".toList ++
          prov.coreSha ++ ", slipstream=".toList ++ prov.slipstreamVersion ++ ", run=".toList ++
          prov.runTime] }, files)

end Harness
