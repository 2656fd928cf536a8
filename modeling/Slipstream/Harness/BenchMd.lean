import Slipstream.Base.Ranged
import Slipstream.Base.Search

/-!
# The measured block of a `BENCH.md`

`renderBenchBlock` writes the block between its two markers; `updateBenchMd`
puts it into a file, over an old block or at the end. A text is the list of
its characters; the byte offsets of the source fall on character boundaries,
so they cut it at the same places.
-/

namespace Harness

open Search (find)

abbrev Text := List Char

structure ContentionDelta where
  storageWritesDelta : I64
  storageReadsDelta : I64
  detectorFindingsDelta : I64
  deriving DecidableEq, Repr

structure BenchProvenance where
  os : Text
  arch : Text
  rustc : Text
  slipstreamVersion : Text
  contractsSha : Text
  coreSha : Text
  runTime : Text
  command : Text
  deriving DecidableEq, Repr

def benchBegin : Marker Char := ⟨'<', "!-- BENCH-MEASURED-BEGIN -->".toList, by decide⟩

def benchEnd : Marker Char := ⟨'<', "!-- BENCH-MEASURED-END -->".toList, by decide⟩

def signedDelta (n : I64) : Text :=
  if n.val > 0 then '+' :: (toString n.val).toList else (toString n.val).toList

def benchBody (pattern : Text) (delta : ContentionDelta) (prov : BenchProvenance) : Text :=
  ["\n\n## Measured deltas\n\nRaw `slipstream diff naive optimized --json` deltas for `".toList,
    pattern,
    "`, generated by `harness bench`. Do not hand-edit; re-run the command to refresh.\n\n".toList,
    "| Metric | Delta |\n| --- | --- |\n| storage writes | ".toList,
    signedDelta delta.storageWritesDelta,
    " |\n| storage reads | ".toList,
    signedDelta delta.storageReadsDelta,
    " |\n| detector findings | ".toList,
    signedDelta delta.detectorFindingsDelta,
    " |\n\n_Provenance: OS=".toList,
    prov.os,
    ", arch=".toList,
    prov.arch,
    ", rustc=".toList,
    prov.rustc,
    ", slipstream=".toList,
    prov.slipstreamVersion,
    ", contracts@".toList,
    prov.contractsSha,
    ", core@".toList,
    prov.coreSha,
    ", run=".toList,
    prov.runTime,
    ", command=`".toList,
    prov.command,
    "`_\n\n".toList].flatten

def renderBenchBlock (pattern : Text) (delta : ContentionDelta) (prov : BenchProvenance) : Text :=
  benchBegin.word ++ (benchBody pattern delta prov ++ benchEnd.word)

def updatedText (existing block : Text) : Text :=
  match find benchBegin.word existing, find benchEnd.word existing with
  | some first, some last =>
    let last := last + benchEnd.word.length
    existing.take first ++ block ++ existing.drop last
  | _, _ =>
    let s := existing
    let s := if existing ≠ [] ∧ existing.getLast? ≠ some '\n' then s ++ ['\n'] else s
    let s := if existing ≠ [] then s ++ ['\n'] else s
    s ++ block ++ ['\n']

-- ---------------------------------------------------------------------------
-- The file
-- ---------------------------------------------------------------------------

/-- A file as an update finds it: its content, if it exists, an error that
reading it raises, and an error that writing it raises with what that leaves. -/
structure File (ε : Type) where
  content : Option Text
  readError : Option ε
  writeError : Option (ε × Option Text)

def File.holding {ε : Type} (content : Option Text) : File ε :=
  { content, readError := none, writeError := none }

inductive ReadError (ε : Type)
  | notFound
  | other (e : ε)

namespace File

variable {ε : Type}

def readToString (file : File ε) : Except (ReadError ε) Text :=
  match file.readError, file.content with
  | some e, _ => .error (.other e)
  | none, some s => .ok s
  | none, none => .error .notFound

def write (file : File ε) (new : Text) : Except ε Unit × File ε :=
  match file.writeError with
  | some (e, left) => (.error e, { file with content := left })
  | none => (.ok (), { file with content := some new })

end File

variable {ε : Type}

def updateBenchMd (file : File ε) (block : Text) : Except ε Bool × File ε :=
  let existing : Except ε Text := match file.readToString with
    | .ok s => .ok s
    | .error .notFound => .ok []
    | .error (.other e) => .error e
  match existing with
  | .error e => (.error e, file)
  | .ok existing =>
    let new := updatedText existing block
    if new = existing then (.ok false, file)
    else match file.write new with
      | (.error e, file) => (.error e, file)
      | (.ok (), file) => (.ok true, file)

end Harness
