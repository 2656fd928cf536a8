import Slipstream.Harness.Discover
import Slipstream.Harness.Disk
import Mathlib.Data.List.DropRight

/-!
# The binary

`main` reads its arguments and runs one of the three commands on the machine
it finds: the programs it can run, its directories, its environment and its
files.
-/

namespace Harness

variable {ε : Type}

/-- What a process that ran leaves: its exit code, unless a signal ended it,
and its streams decoded lossily, with the error of decoding its output
strictly. -/
structure ProcessOutput where
  code : Option I32
  stdout : Text
  invalid : Option Text
  stderr : Text
  deriving DecidableEq, Repr

def ProcessOutput.success (output : ProcessOutput) : Bool :=
  output.code.any fun code => code.val = 0

structure System (ε : Type) where
  /-- The name of the binary and its arguments. -/
  argv : List Text
  slipstreamBin : Option Text
  slipstreamCoreDir : Option Text
  /-- Runs a program to its end, or tells why it cannot be launched. -/
  exec : Text → List Text → Except Text ProcessOutput
  readDir : Path → Except ε (Directory ε)
  os : Text
  arch : Text
  /-- Seconds since the epoch, unless the clock is set before it. -/
  time : Option Nat

-- ---------------------------------------------------------------------------
-- The runner
-- ---------------------------------------------------------------------------

structure SubprocessRunner where
  bin : Text

namespace SubprocessRunner

def fromEnv (slipstreamBin : Option Text) : SubprocessRunner :=
  ⟨slipstreamBin.getD "slipstream".toList⟩

variable (exec : Text → List Text → Except Text ProcessOutput) (runner : SubprocessRunner)

/-- True when the binary can be launched, however it ends. -/
def available : Bool := (exec runner.bin ["--version".toList]).isOk

def run (args : List Text) : Except HarnessError Text :=
  match exec runner.bin args with
  | .error e => .error (.spawn e)
  | .ok output =>
    if output.success = false then .error (.command output.code output.stderr)
    else match output.invalid with
      | some e => .error (.parse e)
      | none => .ok output.stdout

def diff (left right : Path) : Except HarnessError Text :=
  runner.run exec ["diff".toList, left, right, "--json".toList]

def coreRunner : CoreRunner := ⟨runner.diff exec⟩

end SubprocessRunner

-- ---------------------------------------------------------------------------
-- Provenance
-- ---------------------------------------------------------------------------

/-- The characters of the Unicode property `White_Space`. -/
def isWhitespace (c : Char) : Bool :=
  let n := c.toNat
  (9 ≤ n && n ≤ 13) || n == 0x20 || n == 0x85 || n == 0xa0 || n == 0x1680 ||
    (0x2000 ≤ n && n ≤ 0x200a) || n == 0x2028 || n == 0x2029 || n == 0x202f || n == 0x205f ||
    n == 0x3000

def trim (s : Text) : Text := (s.dropWhile isWhitespace).rdropWhile isWhitespace

def sh (exec : Text → List Text → Except Text ProcessOutput) (prog : Text) (args : List Text) :
    Option Text :=
  match exec prog args with
  | .error _ => none
  | .ok output => if output.success then some (trim output.stdout) else none

def unixTs (time : Option Nat) : Text := (time.map printed).getD "unknown".toList

def collectProvenance (sys : System ε) (bin : Text) (patternsDir : Path) : BenchProvenance :=
  let unknown := "unknown".toList
  let revParse (dir : Path) :=
    sh sys.exec "git".toList ["-C".toList, dir, "rev-parse".toList, "HEAD".toList]
  let coreDir := sys.slipstreamCoreDir.getD []
  { os := sys.os
    arch := sys.arch
    rustc := (sh sys.exec "rustc".toList ["--version".toList]).getD unknown
    slipstreamVersion := (sh sys.exec bin ["--version".toList]).getD unknown
    contractsSha := (revParse patternsDir).getD unknown
    coreSha := if coreDir = [] then "unknown (set SLIPSTREAM_CORE_DIR)".toList
      else (revParse coreDir).getD unknown
    runTime := unixTs sys.time
    command := [' '].intercalate sys.argv }

-- ---------------------------------------------------------------------------
-- The commands
-- ---------------------------------------------------------------------------

def usage : List Text := [
  "usage: slipstream-harness <pattern-dir>".toList,
  "       slipstream-harness all [patterns-dir]".toList,
  "       slipstream-harness bench [patterns-dir]".toList,
  "  <pattern-dir> expects <pattern-dir>/naive and <pattern-dir>/optimized".toList]

variable (parse : Text → Except Text DiffReport)

def runPair (sys : System ε) (patternDir : Path) : Except HarnessError ContentionDelta :=
  let naive := joinPath patternDir "naive".toList
  let optimized := joinPath patternDir "optimized".toList
  let runner := SubprocessRunner.fromEnv sys.slipstreamBin
  analyzePair parse (runner.coreRunner sys.exec) naive optimized

def report (patternDir : Path) (delta : ContentionDelta) : Text :=
  ["pattern: ".toList, patternDir,
    "\n  storage_writes_delta:    ".toList, (toString delta.storageWritesDelta.val).toList,
    "\n  storage_reads_delta:     ".toList, (toString delta.storageReadsDelta.val).toList,
    "\n  detector_findings_delta: ".toList, (toString delta.detectorFindingsDelta.val).toList,
    "\n  verdict: ".toList,
    if delta.isImprovement then "IMPROVEMENT (optimized reduces write contention)".toList
    else "NO IMPROVEMENT".toList,
    "\n".toList].flatten

def System.setup (sys : System ε) (patternsDir : Path) : Setup :=
  let runner := SubprocessRunner.fromEnv sys.slipstreamBin
  { slipstreamBin := sys.slipstreamBin
    available := runner.available sys.exec
    runner := runner.coreRunner sys.exec
    parse := parse
    patternsDir := patternsDir }

def System.patterns (sys : System ε) (patternsDir : Path) : List Pattern :=
  discoverPatterns patternsDir (sys.readDir patternsDir)

def singleCmd (sys : System ε) (patternDir : Path) : Output :=
  match runPair parse sys patternDir with
  | .ok delta => { code := 0, stdout := report patternDir delta, stderr := [] }
  | .error e => {
    code := 1
    stdout := []
    stderr := ("error: ".toList ++ e.display) :: match e with
      | .spawn _ => [("hint: the `slipstream` binary must be on PATH or set via SLIPSTREAM_BIN; " ++
          "slipstream-core is not vendored in this repo.").toList]
      | _ => [] }

def patternsDirOf (args : List Text) : Path := args.head?.getD "patterns".toList

/-- The output, missing where the table panics, and what is left of the files. -/
def main (fmt : Formatter) (display : ε → Text) (sys : System ε) (disk : Disk ε) :
    Option Output × Disk ε :=
  match sys.argv.tail with
  | [] => (some { code := 2, stdout := [], stderr := usage }, disk)
  | first :: args =>
    let patternsDir := patternsDirOf args
    if first = "all".toList then
      (runAllCmd fmt (sys.setup parse patternsDir) (sys.patterns patternsDir), disk)
    else if first = "bench".toList then
      let bin := sys.slipstreamBin.getD "slipstream".toList
      let prov := collectProvenance sys bin patternsDir
      let setup := sys.setup parse patternsDir
      let r := benchOnDisk display setup prov (sys.patterns patternsDir) disk
      (some r.1, r.2)
    else (some (singleCmd parse sys first), disk)

end Harness
