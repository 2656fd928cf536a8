import Slipstream.Base.Run
import Slipstream.Harness.BenchBlock

/-!
# Repeated runs

A file keeps one measured block, the last one put into it, and everything
around the block.
-/

namespace Harness

open Run (EachStep final)

/-- A rendered block whose fields hold neither marker. -/
structure Measurement where
  pattern : Text
  delta : ContentionDelta
  prov : BenchProvenance
  unmarkedPattern : Unmarked pattern
  unmarkedProv : prov.Unmarked

def Measurement.block (m : Measurement) : Text := renderBenchBlock m.pattern m.delta m.prov

theorem Measurement.isBlock (m : Measurement) : IsBlock m.block :=
  render_isBlock m.delta m.unmarkedPattern m.unmarkedProv

variable {ε : Type}

def benchStep (file : File ε) (m : Measurement) : Except ε Bool × File ε :=
  updateBenchMd file m.block

def TellsChange (file : File ε) (m : Measurement) : Prop :=
  ∃ changed, (benchStep file m).1 = .ok changed ∧
    (changed = true ↔ (benchStep file m).2.content ≠ file.content)

theorem benchStep_holding (content : Option Text) (m : Measurement) :
    (benchStep (File.holding content : File ε) m).2 =
      File.holding (some (updatedText (content.getD []) m.block)) := by
  rw [benchStep, update_holding]

theorem final_holding (content : Option Text) (ms : List Measurement) :
    ∃ content', final benchStep (File.holding content : File ε) ms = File.holding content' := by
  refine Run.final_induct (P := fun file => ∃ content', file = File.holding content') ?_
    ⟨content, rfl⟩ ms
  rintro _ m ⟨content', rfl⟩
  exact ⟨_, benchStep_holding content' m⟩

theorem tellsChange_holding (content : Option Text) (m : Measurement) :
    TellsChange (File.holding content : File ε) m := by
  refine ⟨_, congrArg Prod.fst (update_holding content m.block), ?_⟩
  rw [benchStep_holding, decide_eq_true_iff]
  rfl

theorem eachStep_tellsChange (content : Option Text) (ms : List Measurement) :
    EachStep benchStep (File.holding content : File ε) ms TellsChange := by
  intro pre m post _
  obtain ⟨content', h⟩ := final_holding (ε := ε) content pre
  rw [h]
  exact tellsChange_holding content' m

theorem final_block {pre post : Text} (hpre : Unmarked pre) (old : Measurement)
    (ms : List Measurement) :
    final benchStep (File.holding (some (pre ++ (old.block ++ post))) : File ε) ms =
      File.holding
        (some (pre ++ (((old :: ms).getLast (List.cons_ne_nil old ms)).block ++ post))) := by
  induction ms generalizing old with
  | nil => rfl
  | cons m ms ih =>
    rw [Run.final_cons, benchStep_holding, Option.getD_some, updatedText_block hpre old.isBlock,
      List.append_assoc, ih m, List.getLast_cons (List.cons_ne_nil m ms)]

theorem final_unmarked (content : Option Text) (hc : Unmarked (content.getD []))
    {ms : List Measurement} (hms : ms ≠ []) :
    final benchStep (File.holding content : File ε) ms =
      File.holding (some (content.getD [] ++ separator (content.getD []) ++
        (ms.getLast hms).block ++ ['\n'])) := by
  obtain ⟨m, ms, rfl⟩ := List.exists_cons_of_ne_nil hms
  rw [Run.final_cons, benchStep_holding, updatedText_append (.inl hc.1),
    List.append_assoc _ m.block, final_block hc.separator, ← List.append_assoc]

/-- What a run of updates leaves of a file that holds a block between `pre` and
`post`, of a file that holds the text `c` without a block, and of no file. -/
structure KeepsLast (ε : Type) (pre post c : Text) (old : Measurement) (ms : List Measurement)
    (hms : ms ≠ []) : Prop where
  replaced : final benchStep (File.holding (some (pre ++ old.block ++ post)) : File ε) ms =
    File.holding (some (pre ++ (ms.getLast hms).block ++ post))
  appended : final benchStep (File.holding (some c) : File ε) ms =
    File.holding (some (c ++ separator c ++ (ms.getLast hms).block ++ ['\n']))
  created : final benchStep (File.holding none : File ε) ms =
    File.holding (some ((ms.getLast hms).block ++ ['\n']))
  tells : ∀ content, EachStep benchStep (File.holding content : File ε) ms TellsChange

theorem bench_keeps_last {pre c : Text} (hpre : Unmarked pre) (hc : Unmarked c) (post : Text)
    (old : Measurement) {ms : List Measurement} (hms : ms ≠ []) :
    KeepsLast ε pre post c old ms hms where
  replaced := by
    rw [List.append_assoc, final_block hpre, List.getLast_cons hms, List.append_assoc]
  appended := final_unmarked (some c) hc hms
  created := final_unmarked none ⟨Marker.free_nil, Marker.free_nil⟩ hms
  tells content := eachStep_tellsChange content ms

theorem bench_keeps_last_twice :
    let measured (writes reads : I64) : Measurement := ⟨"01-alpha".toList,
      ⟨writes, reads, ⟨0, by decide, by decide⟩⟩, .unknown, by decide, unmarked_unknown⟩
    let old := measured ⟨0, by decide, by decide⟩ ⟨0, by decide, by decide⟩
    let first := measured ⟨-1, by decide, by decide⟩ ⟨2, by decide, by decide⟩
    let second := measured ⟨-2, by decide, by decide⟩ ⟨3, by decide, by decide⟩
    KeepsLast Empty "# Pattern\n".toList "notes".toList "body".toList old [first, second]
      (List.cons_ne_nil first [second]) :=
  bench_keeps_last (by decide) (by decide) _ _ _

end Harness
