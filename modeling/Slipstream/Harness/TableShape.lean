import Slipstream.Harness.Table
import Mathlib.Data.List.FinRange

/-!
# The shape of the table

The table has one line a pattern, all of one length and with their columns in
the same spans, exactly when each error text that a row prints is one line and
each column is of a width that `format!` accepts.
-/

namespace Harness

open Layout (Padded lines padLeft padRight slice start trimCr unlines utf8Len)

-- ---------------------------------------------------------------------------
-- The text of a table
-- ---------------------------------------------------------------------------

def field (widths : Fin 5 → Nat) (cells : Row) (i : Fin 5) : Text :=
  if i.val = 0 then padRight (widths i) (cells i) else padLeft (widths i) (cells i)

def line (widths : Fin 5 → Nat) (cells : Row) : Text :=
  "  ".toList.intercalate (List.ofFn (field widths cells))

def Formatter.AcceptsAll (fmt : Formatter) (widths : Fin 5 → Nat) : Prop :=
  ∀ i, fmt.Accepts (widths i)

variable {fmt : Formatter} {widths : Fin 5 → Nat} {cells : Row}

theorem align_of_accepts (h : fmt.AcceptsAll widths) (cells : Row) (i : Fin 5) :
    (if i.val = 0 then fmt.alignLeft (widths i) (cells i)
      else fmt.alignRight (widths i) (cells i)) = some (field widths cells i) := by
  unfold field Formatter.alignLeft Formatter.alignRight
  rw [if_pos (h i), if_pos (h i)]
  split <;> rfl

theorem align_of_rejects {i : Fin 5} (h : ¬ fmt.Accepts (widths i)) (cells : Row) :
    (if i.val = 0 then fmt.alignLeft (widths i) (cells i)
      else fmt.alignRight (widths i) (cells i)) = none := by
  unfold Formatter.alignLeft Formatter.alignRight
  rw [if_neg h, if_neg h, ite_self]

theorem mapM_eq_none {α β : Type} {f : α → Option β} {l : List α} {a : α} (ha : a ∈ l)
    (hf : f a = none) : l.mapM f = none := by
  induction l with
  | nil => cases ha
  | cons b l ih =>
    rw [List.mapM_cons]
    obtain rfl | ha := List.mem_cons.mp ha
    · rw [hf]
      rfl
    · rw [ih ha]
      cases f b <;> rfl

theorem renderLine_of_accepts (h : fmt.AcceptsAll widths) (cells : Row) :
    renderLine fmt widths cells = some (line widths cells) := by
  have hfields : (List.finRange 5).mapM (fun i => some (field widths cells i)) =
      some ((List.finRange 5).map (field widths cells)) := List.mapM_pure
  unfold renderLine line
  simp only [align_of_accepts h, hfields, List.ofFn_eq_map]
  rfl

theorem renderLine_of_rejects (h : ¬ fmt.AcceptsAll widths) (cells : Row) :
    renderLine fmt widths cells = none := by
  obtain ⟨i, hi⟩ := not_forall.mp h
  unfold renderLine
  rw [mapM_eq_none (List.mem_finRange i) (align_of_rejects hi cells)]
  rfl

theorem foldlM_renderLine (h : fmt.AcceptsAll widths) (rows : List Row) (out : Text) :
    rows.foldlM (fun out row => do return out ++ (← renderLine fmt widths row) ++ ['\n']) out =
      some (out ++ unlines (rows.map (line widths))) := by
  induction rows generalizing out with
  | nil =>
    rw [List.map_nil, unlines, List.flatMap_nil, List.append_nil]
    rfl
  | cons row rows ih =>
    rw [List.foldlM_cons, renderLine_of_accepts h]
    refine (ih _).trans ?_
    rw [List.map_cons, Layout.unlines_cons]
    simp

def tableLines (rows : List Row) : List Text :=
  let headerLine := line (columnWidths rows) headers
  headerLine :: List.replicate (utf8Len headerLine) '-' :: rows.map (line (columnWidths rows))

theorem renderTable_of_accepts {results : List PatternResult}
    (h : fmt.AcceptsAll (columnWidths (results.map PatternResult.row))) :
    renderTable fmt results = some (unlines (tableLines (results.map PatternResult.row))) := by
  have hbody := foldlM_renderLine h (results.map PatternResult.row)
  unfold renderTable
  simp only [renderLine_of_accepts h, Option.bind_eq_bind, Option.bind_some] at hbody ⊢
  rw [hbody, tableLines, Layout.unlines_cons, Layout.unlines_cons]
  simp only [List.append_assoc, List.cons_append, List.nil_append]

theorem renderTable_of_rejects {results : List PatternResult}
    (h : ¬ fmt.AcceptsAll (columnWidths (results.map PatternResult.row))) :
    renderTable fmt results = none := by
  simp only [renderTable, renderLine_of_rejects h]
  rfl

-- ---------------------------------------------------------------------------
-- Column widths
-- ---------------------------------------------------------------------------

theorem accepts_mono {m n : Nat} (h : m ≤ n) (hn : fmt.Accepts n) : fmt.Accepts m := by
  cases fmt with
  | unbounded => trivial
  | u16 => exact Nat.le_trans h hn

theorem accepts_max {m n : Nat} : fmt.Accepts (max m n) ↔ fmt.Accepts m ∧ fmt.Accepts n := by
  constructor
  · intro h
    exact ⟨accepts_mono (Nat.le_max_left m n) h, accepts_mono (Nat.le_max_right m n) h⟩
  · rintro ⟨hm, hn⟩
    obtain h | h := Nat.le_total m n
    · rwa [Nat.max_eq_right h]
    · rwa [Nat.max_eq_left h]

theorem foldl_max_forall {P : Nat → Prop} (hmax : ∀ m n, P (max m n) ↔ P m ∧ P n)
    (rows : List Row) (init : Fin 5 → Nat) (i : Fin 5) :
    P (rows.foldl (fun widths row i => max (widths i) (utf8Len (row i))) init i) ↔
      P (init i) ∧ ∀ row ∈ rows, P (utf8Len (row i)) := by
  induction rows generalizing init with
  | nil => simp
  | cons row rows ih => rw [List.foldl_cons, ih, hmax, List.forall_mem_cons, and_assoc]

/-- What holds of the larger of two widths exactly when it holds of both holds
of a column exactly when it holds of all its cells. -/
theorem columnWidths_forall {P : Nat → Prop} (hmax : ∀ m n, P (max m n) ↔ P m ∧ P n)
    (rows : List Row) (i : Fin 5) : P (columnWidths rows i) ↔
      P (utf8Len (headers i)) ∧ ∀ row ∈ rows, P (utf8Len (row i)) :=
  foldl_max_forall hmax rows _ i

theorem utf8Len_le_columnWidths (rows : List Row) (i : Fin 5) :
    utf8Len (headers i) ≤ columnWidths rows i ∧
      ∀ row ∈ rows, utf8Len (row i) ≤ columnWidths rows i := by
  have h := columnWidths_forall (P := fun n => n ≤ columnWidths rows i)
    (fun _ _ => Nat.max_le) rows i
  exact h.mp (Nat.le_refl _)

theorem length_le_columnWidths (rows : List Row) (i : Fin 5) {row : Row}
    (h : row = headers ∨ row ∈ rows) : (row i).length ≤ columnWidths rows i := by
  obtain ⟨hh, hr⟩ := utf8Len_le_columnWidths rows i
  obtain rfl | h := h
  · exact Nat.le_trans (Layout.length_le_utf8Len _) hh
  · exact Nat.le_trans (Layout.length_le_utf8Len _) (hr row h)

-- ---------------------------------------------------------------------------
-- One line
-- ---------------------------------------------------------------------------

section
variable (hw : ∀ i, (cells i).length ≤ widths i)
include hw

theorem length_field (i : Fin 5) : (field widths cells i).length = widths i := by
  unfold field
  split
  · exact Layout.length_padRight (hw i)
  · exact Layout.length_padLeft (hw i)

theorem lengths_fields :
    (List.ofFn (field widths cells)).map List.length = List.ofFn widths := by
  rw [List.map_ofFn]
  exact congrArg List.ofFn (funext (length_field hw))

theorem length_line : (line widths cells).length = (List.ofFn widths).sum + 8 := by
  rw [line, Layout.length_intercalate, lengths_fields hw, List.length_ofFn]
  rfl

end

theorem padded_field (i : Fin 5) : Padded (cells i) (field widths cells i) := by
  unfold field
  split
  · exact Layout.padded_padRight ..
  · exact Layout.padded_padLeft ..

/-- A line of the table with each cell in the span of its column. -/
structure InColumns (widths : Fin 5 → Nat) (cells : Row) (l : Text) : Prop where
  length : l.length = (List.ofFn widths).sum + 8
  cell : ∀ i : Fin 5, Padded (cells i) (slice l (start 2 (List.ofFn widths) i) (widths i))

theorem line_inColumns (hw : ∀ i, (cells i).length ≤ widths i) :
    InColumns widths cells (line widths cells) where
  length := length_line hw
  cell i := by
    have hi : i.val < (List.ofFn (field widths cells)).length := by
      rw [List.length_ofFn]
      exact i.isLt
    have hs := Layout.slice_intercalate "  ".toList hi
    rw [List.getElem_ofFn, length_field hw, lengths_fields hw] at hs
    exact (congrArg (Padded (cells i)) hs).mpr (padded_field i)

-- ---------------------------------------------------------------------------
-- What a row prints
-- ---------------------------------------------------------------------------

/-- A text that a line can end with and still be one line. -/
def OneLine (t : Text) : Prop := '\n' ∉ t ∧ t.getLast? ≠ some '\r'

instance : DecidablePred OneLine := fun _ => inferInstanceAs (Decidable (_ ∧ _))

/-- What the error tells beside its kind: a message, or what the core wrote. -/
def HarnessError.message : HarnessError → Text
  | .spawn message => message
  | .command _ stderr => stderr
  | .parse message => message

/-- A row can hold the error: its message is one line, and the cell is not too wide. -/
structure HarnessError.Printable (fmt : Formatter) (e : HarnessError) : Prop where
  oneLine : OneLine e.message
  fits : fmt.Accepts (utf8Len ("error: ".toList ++ e.display))

theorem oneLine_append {pre t : Text} (hpre : OneLine pre) : OneLine (pre ++ t) ↔ OneLine t := by
  unfold OneLine
  rw [List.mem_append, or_iff_right hpre.1, List.getLast?_append]
  refine and_congr_right fun _ => not_congr ?_
  cases h : t.getLast? with
  | none => simpa using hpre.2
  | some c => rfl

theorem newline_notMem_toString (n : Int) : '\n' ∉ (toString n).toList := by
  intro h
  obtain he | hd := Layout.mem_toString h
  · exact absurd he (by decide)
  · exact absurd hd (by decide)

/-- What comes before a text that is not empty can hold carriage returns. -/
theorem oneLine_append_of_ne_nil {pre t : Text} (hpre : '\n' ∉ pre) (ht : t ≠ []) :
    OneLine (pre ++ t) ↔ OneLine t := by
  unfold OneLine
  rw [List.mem_append, or_iff_right hpre, List.getLast?_append_of_ne_nil _ ht]

theorem newline_notMem_append {s t : Text} (hs : '\n' ∉ s) (ht : '\n' ∉ t) : '\n' ∉ s ++ t :=
  fun h => (List.mem_append.mp h).elim hs ht

theorem newline_notMem_debugCode (code : Option I32) : '\n' ∉ debugCode code := by
  cases code with
  | none => decide
  | some n =>
    exact newline_notMem_append (newline_notMem_append (by decide) (newline_notMem_toString n.val))
      (by decide)

theorem oneLine_exited (code : Option I32) :
    OneLine ("slipstream exited with ".toList ++ debugCode code ++ ": ".toList) := by
  refine (oneLine_append_of_ne_nil ?_ (List.cons_ne_nil _ _)).mpr (by decide)
  exact newline_notMem_append (by decide) (newline_notMem_debugCode code)

theorem oneLine_error (e : HarnessError) :
    OneLine ("error: ".toList ++ e.display) ↔ OneLine e.message := by
  rw [oneLine_append (by decide)]
  cases e with
  | spawn message => exact oneLine_append (by decide)
  | command code stderr => exact oneLine_append (oneLine_exited code)
  | parse message => exact oneLine_append (by decide)

theorem accepts_small {n : Nat} (h : n ≤ 65535) : fmt.Accepts n := by
  cases fmt with
  | unbounded => trivial
  | u16 => exact h

theorem cellDelta_small (d : Option ContentionDelta) (pick : ContentionDelta → I64) :
    '\n' ∉ cellDelta d pick ∧ utf8Len (cellDelta d pick) ≤ 20 := by
  cases d with
  | none => exact (by decide : '\n' ∉ ['-'] ∧ utf8Len ['-'] ≤ 20)
  | some d =>
    refine ⟨newline_notMem_toString _, ?_⟩
    have hlo := (pick d).lo_le
    have hhi := (pick d).le_hi
    rw [cellDelta, Layout.utf8Len_toString]
    exact Layout.length_toString_le (by decide) (by omega) (by omega)

theorem headers_small (i : Fin 5) : OneLine (headers i) ∧ utf8Len (headers i) ≤ 8 := by
  revert i
  decide

theorem verdict_ne_nil (r : PatternResult) : r.verdict ≠ [] := by
  unfold PatternResult.verdict
  repeat' split
  all_goals exact List.cons_ne_nil _ _

section
variable {parse : Text → Except Text DiffReport} {runner : CoreRunner} {p : Pattern}

def plainVerdicts : List Text :=
  ["missing naive".toList, "missing optimized".toList, "missing naive and optimized".toList,
    "IMPROVEMENT".toList, "NO IMPROVEMENT".toList]

theorem plainVerdicts_small : ∀ v ∈ plainVerdicts, OneLine v ∧ utf8Len v ≤ 65535 := by decide

theorem missing_plain {r : PatternResult} (h : r.missingSides ∈ missingLists) :
    r.verdict ∈ plainVerdicts := by
  have hv : ∀ missing ∈ missingLists,
      "missing ".toList ++ " and ".toList.intercalate missing ∈ plainVerdicts := by decide
  rw [PatternResult.verdict, if_pos (missingLists_ne_nil _ h)]
  exact hv _ h

theorem analyzed_plain {r : PatternResult} {d : ContentionDelta} (hm : r.missingSides = [])
    (he : r.error = none) (hd : r.delta = some d) : r.verdict ∈ plainVerdicts := by
  rw [PatternResult.verdict, if_neg (not_not_intro hm), he, hd]
  change (if d.isImprovement then _ else _) ∈ plainVerdicts
  split <;> decide

theorem runPattern_verdict (parse : Text → Except Text DiffReport) (runner : CoreRunner)
    (p : Pattern) : (runPattern parse runner p).pattern = p.name ∧
      ((∃ e, Fails parse runner p e ∧
          (runPattern parse runner p).verdict = "error: ".toList ++ e.display) ∨
        ((∀ e, ¬ Fails parse runner p e) ∧
          (runPattern parse runner p).verdict ∈ plainVerdicts)) := by
  obtain ⟨e, he, hr⟩ | ⟨hf, d, -, hr⟩ | ⟨hf, -, missing, hm, hr⟩ :=
    runPattern_cases parse runner p
  · exact ⟨by rw [hr], .inl ⟨e, he, by rw [hr]; rfl⟩⟩
  · rw [hr]
    exact ⟨rfl, .inr ⟨hf, analyzed_plain rfl rfl rfl⟩⟩
  · rw [hr]
    exact ⟨rfl, .inr ⟨hf, missing_plain hm⟩⟩

/-- What a table row has to hold of a pattern: its name, and its error if it fails. -/
structure Tabular (fmt : Formatter) (parse : Text → Except Text DiffReport) (runner : CoreRunner)
    (p : Pattern) : Prop where
  name : fmt.Accepts (utf8Len p.name)
  failure : ∀ e, Fails parse runner p e → e.Printable fmt

/-- A row is printable when its cells are accepted and it is one line. -/
theorem tabular_iff : Tabular fmt parse runner p ↔
    fmt.Accepts (utf8Len (runPattern parse runner p).pattern) ∧
      fmt.Accepts (utf8Len (runPattern parse runner p).verdict) ∧
      OneLine (runPattern parse runner p).verdict := by
  obtain ⟨hn, ⟨e, he, hv⟩ | ⟨hf, hv⟩⟩ := runPattern_verdict parse runner p
  · rw [hn, hv, oneLine_error]
    constructor
    · intro h
      obtain ⟨hone, hfits⟩ := h.failure e he
      exact ⟨h.name, hfits, hone⟩
    · rintro ⟨hname, hfits, hone⟩
      refine ⟨hname, fun e' he' => ?_⟩
      rw [he'.unique he]
      exact ⟨hone, hfits⟩
  · obtain ⟨hone, hsmall⟩ := plainVerdicts_small _ hv
    rw [hn]
    constructor
    · intro h
      exact ⟨h.name, accepts_small hsmall, hone⟩
    · rintro ⟨hname, -⟩
      exact ⟨hname, fun e he => absurd he (hf e)⟩

end

-- ---------------------------------------------------------------------------
-- Which lines are one line
-- ---------------------------------------------------------------------------

theorem mem_field {c : Char} (hc : c ≠ ' ') (i : Fin 5) :
    c ∈ field widths cells i ↔ c ∈ cells i := by
  unfold field padRight padLeft
  split <;> simp [List.mem_replicate, hc]

/-- A line holds the characters of its cells, and blanks. -/
theorem mem_line {c : Char} (hc : c ≠ ' ') : c ∈ line widths cells ↔ ∃ i, c ∈ cells i := by
  have hsep : c ∉ "  ".toList := by simpa using hc
  rw [line, Layout.mem_intercalate hsep]
  simp only [List.mem_ofFn, exists_exists_eq_and, mem_field hc]

theorem prefix_line (widths : Fin 5 → Nat) (cells : Row) : cells 0 <+: line widths cells := by
  rw [line, List.ofFn_succ]
  exact (List.prefix_append _ _).trans (Layout.prefix_intercalate ..)

theorem suffix_line (widths : Fin 5 → Nat) (cells : Row) : cells 4 <:+ line widths cells := by
  rw [line, List.ofFn_succ_last]
  exact (List.suffix_append _ _).trans (Layout.suffix_intercalate ..)

theorem line_oneLine (hne : cells 4 ≠ []) : OneLine (line widths cells) ↔
    (∀ i, '\n' ∉ cells i) ∧ (cells 4).getLast? ≠ some '\r' := by
  obtain ⟨pre, hpre⟩ := suffix_line widths cells
  rw [OneLine, mem_line (by decide), not_exists, ← hpre, List.getLast?_append_of_ne_nil _ hne]

theorem row_forall {r : PatternResult} {P : Text → Prop}
    (hcell : ∀ pick, P (cellDelta r.delta pick)) :
    (∀ i, P (r.row i)) ↔ P r.pattern ∧ P r.verdict := by
  constructor
  · exact fun h => ⟨h 0, h 4⟩
  · rintro ⟨hp, hv⟩ i
    match i with
    | 0 => exact hp
    | 1 | 2 | 3 => exact hcell _
    | 4 => exact hv

theorem row_oneLine (r : PatternResult) :
    OneLine (line widths r.row) ↔ '\n' ∉ r.pattern ∧ OneLine r.verdict := by
  rw [line_oneLine (verdict_ne_nil r),
    row_forall (P := fun t => '\n' ∉ t) fun pick => (cellDelta_small r.delta pick).1, and_assoc]
  rfl

theorem row_accepted (r : PatternResult) : (∀ i, fmt.Accepts (utf8Len (r.row i))) ↔
    fmt.Accepts (utf8Len r.pattern) ∧ fmt.Accepts (utf8Len r.verdict) :=
  row_forall (P := fun t => fmt.Accepts (utf8Len t)) fun pick =>
    accepts_small (Nat.le_trans (cellDelta_small r.delta pick).2 (by decide))

theorem acceptsAll_iff (results : List PatternResult) :
    fmt.AcceptsAll (columnWidths (results.map PatternResult.row)) ↔
      ∀ r ∈ results, fmt.Accepts (utf8Len r.pattern) ∧ fmt.Accepts (utf8Len r.verdict) := by
  have hhead (i : Fin 5) : fmt.Accepts (utf8Len (headers i)) :=
    accepts_small (Nat.le_trans (headers_small i).2 (by decide))
  simp only [Formatter.AcceptsAll, columnWidths_forall (fun _ _ => accepts_max), hhead, true_and,
    List.forall_mem_map, ← row_accepted]
  exact ⟨fun h r hr i => h i r hr, fun h i r hr => h r hr i⟩

-- ---------------------------------------------------------------------------
-- The whole table
-- ---------------------------------------------------------------------------

/-- The header, the divider and one line a name, all of one length; the line
starts with the name, and each column takes the same span of the header and of
every row. -/
structure Rectangular (names : List Text) (rows : List Row) (ls : List Text) : Prop where
  count : ls.length = 2 + names.length
  same : ∀ l ∈ ls, ∀ l' ∈ ls, l.length = l'.length
  named : ∀ k name, names[k]? = some name → ∃ l, ls[2 + k]? = some l ∧ name <+: l
  columns : ∃ widths, (∃ l, ls[0]? = some l ∧ InColumns widths headers l) ∧
    ∀ k row, rows[k]? = some row → ∃ l, ls[2 + k]? = some l ∧ InColumns widths row l

variable {results : List PatternResult}

theorem length_columns {row : Row} (h : row = headers ∨ row ∈ results.map PatternResult.row) :
    (line (columnWidths (results.map PatternResult.row)) row).length =
      (List.ofFn (columnWidths (results.map PatternResult.row))).sum + 8 :=
  length_line fun i => length_le_columnWidths _ i h

theorem headers_ascii (i : Fin 5) : (headers i).all (fun c => c.utf8Size == 1) = true := by
  match i with
  | 0 | 1 | 2 | 3 | 4 => rfl

theorem utf8Len_headerLine (widths : Fin 5 → Nat) :
    utf8Len (line widths headers) = (line widths headers).length := by
  refine Layout.utf8Len_eq_length fun c hc => ?_
  by_cases hb : c = ' '
  · rw [hb]
    rfl
  · obtain ⟨i, hi⟩ := (mem_line hb).mp hc
    exact eq_of_beq (List.all_eq_true.mp (headers_ascii i) c hi)

theorem tableLines_row {rows : List Row} {k : Nat} {row : Row} (h : rows[k]? = some row) :
    (tableLines rows)[2 + k]? = some (line (columnWidths rows) row) := by
  rw [Nat.add_comm]
  simp [tableLines, h]

theorem forall_tableLines {P : Text → Prop} :
    (∀ l ∈ tableLines (results.map PatternResult.row), P l) ↔
    P (line (columnWidths (results.map PatternResult.row)) headers) ∧
      P (List.replicate
        (utf8Len (line (columnWidths (results.map PatternResult.row)) headers)) '-') ∧
      ∀ r ∈ results, P (line (columnWidths (results.map PatternResult.row)) r.row) := by
  simp only [tableLines, List.forall_mem_cons, List.forall_mem_map]

theorem length_tableLines : ∀ l ∈ tableLines (results.map PatternResult.row),
    l.length = (List.ofFn (columnWidths (results.map PatternResult.row))).sum + 8 := by
  refine forall_tableLines.mpr ⟨length_columns (.inl rfl), ?_, fun r hr => ?_⟩
  · rw [List.length_replicate, utf8Len_headerLine, length_columns (.inl rfl)]
  · exact length_columns (.inr (List.mem_map_of_mem hr))

theorem tableLines_rectangular (results : List PatternResult) :
    Rectangular (results.map PatternResult.pattern) (results.map PatternResult.row)
      (tableLines (results.map PatternResult.row)) where
  count := by
    rw [tableLines, List.length_cons, List.length_cons, List.length_map, List.length_map,
      List.length_map, Nat.add_comm 2]
  same l hl l' hl' := (length_tableLines l hl).trans (length_tableLines l' hl').symm
  named k name hk := by
    rw [List.getElem?_map, Option.map_eq_some_iff] at hk
    obtain ⟨r, hr, rfl⟩ := hk
    have hrow : (results.map PatternResult.row)[k]? = some r.row := by
      rw [List.getElem?_map, hr]
      rfl
    exact ⟨_, tableLines_row hrow, prefix_line _ r.row⟩
  columns := by
    refine ⟨_, ⟨_, rfl, line_inColumns fun i => length_le_columnWidths _ i (.inl rfl)⟩,
      fun k row hk => ⟨_, tableLines_row hk, line_inColumns fun i => ?_⟩⟩
    exact length_le_columnWidths _ i (.inr (List.mem_of_getElem? hk))

theorem headerLine_oneLine (widths : Fin 5 → Nat) : OneLine (line widths headers) :=
  (line_oneLine (List.cons_ne_nil _ _)).mpr ⟨fun i => (headers_small i).1.1, (headers_small 4).1.2⟩

theorem divider_oneLine (n : Nat) : OneLine (List.replicate n '-') := by
  refine ⟨fun h => absurd (List.eq_of_mem_replicate h) (by decide), fun h => ?_⟩
  exact absurd (List.eq_of_mem_replicate (List.mem_of_getLast? h)) (by decide)

theorem tableLines_oneLine : (∀ l ∈ tableLines (results.map PatternResult.row), OneLine l) ↔
    ∀ r ∈ results, '\n' ∉ r.pattern ∧ OneLine r.verdict := by
  rw [forall_tableLines, and_iff_right (headerLine_oneLine _), and_iff_right (divider_oneLine _)]
  simp only [row_oneLine]

/-- A newline in a row adds a line, and a carriage return at its end is lost
to the line ending; in any other table the lines are as they were written. -/
theorem rectangular_iff_oneLine (results : List PatternResult) :
    Rectangular (results.map PatternResult.pattern) (results.map PatternResult.row)
        (lines (unlines (tableLines (results.map PatternResult.row)))) ↔
      ∀ r ∈ results, '\n' ∉ r.pattern ∧ OneLine r.verdict := by
  have hrect := tableLines_rectangular results
  rw [← tableLines_oneLine]
  constructor
  · intro h
    have hnl : ∀ l ∈ tableLines (results.map PatternResult.row), '\n' ∉ l := by
      rw [← Layout.length_lines_unlines_iff, h.count, hrect.count]
    refine fun l hl => ⟨hnl l hl, fun hcr => ?_⟩
    have hhead : line (columnWidths (results.map PatternResult.row)) headers ∈
        tableLines (results.map PatternResult.row) := List.mem_cons_self
    have hsame := h.same
    rw [Layout.lines_unlines hnl] at hsame
    have hlen := hsame _ (List.mem_map_of_mem hl) _ (List.mem_map_of_mem hhead)
    rw [Layout.trimCr_of_ne (headerLine_oneLine _).2, hrect.same _ hhead l hl] at hlen
    have hlt := Layout.length_trimCr_lt hcr
    omega
  · intro h
    have hmap : (tableLines (results.map PatternResult.row)).map trimCr =
        tableLines (results.map PatternResult.row) :=
      (List.map_congr_left fun l hl => Layout.trimCr_of_ne (h l hl).2).trans (List.map_id' _)
    rw [Layout.lines_unlines fun l hl => (h l hl).1, hmap]
    exact hrect

/-- `format!` panics on none of the widths of the table, and its lines are
rectangular. -/
def RendersRectangular (fmt : Formatter) (names : List Text) (results : List PatternResult) :
    Prop :=
  ∃ out, renderTable fmt results = some out ∧
    Rectangular names (results.map PatternResult.row) (lines out)

theorem rendersRectangular_iff (results : List PatternResult) :
    RendersRectangular fmt (results.map PatternResult.pattern) results ↔
      (∀ r ∈ results, fmt.Accepts (utf8Len r.pattern) ∧ fmt.Accepts (utf8Len r.verdict)) ∧
        ∀ r ∈ results, '\n' ∉ r.pattern ∧ OneLine r.verdict := by
  rw [← acceptsAll_iff, ← rectangular_iff_oneLine]
  by_cases h : fmt.AcceptsAll (columnWidths (results.map PatternResult.row))
  · simp [RendersRectangular, renderTable_of_accepts h, h]
  · simp [RendersRectangular, renderTable_of_rejects h, h]

theorem runAll_names (parse : Text → Except Text DiffReport) (runner : CoreRunner)
    (patterns : List Pattern) :
    (runAll parse runner patterns).map PatternResult.pattern = patterns.map Pattern.name := by
  rw [runAll, List.map_map]
  exact List.map_congr_left fun p _ => (runPattern_verdict parse runner p).1

/-- For every runner and every list of patterns whose names hold no newline. -/
theorem table_rectangular_iff (fmt : Formatter) (parse : Text → Except Text DiffReport)
    (runner : CoreRunner) (patterns : List Pattern) (hn : ∀ p ∈ patterns, '\n' ∉ p.name) :
    RendersRectangular fmt (patterns.map Pattern.name) (runAll parse runner patterns) ↔
      ∀ p ∈ patterns, Tabular fmt parse runner p := by
  rw [← runAll_names parse runner, rendersRectangular_iff]
  simp only [runAll, List.forall_mem_map, tabular_iff]
  constructor
  · rintro ⟨hfits, hone⟩ p hp
    exact ⟨(hfits p hp).1, (hfits p hp).2, (hone p hp).2⟩
  · intro h
    refine ⟨fun p hp => ⟨(h p hp).1, (h p hp).2.1⟩, fun p hp => ⟨?_, (h p hp).2.2⟩⟩
    rw [(runPattern_verdict parse runner p).1]
    exact hn p hp

def exitsWith (stderr : Text) : CoreRunner where
  diff _ _ := .error (.command (some ⟨1, by decide, by decide⟩) stderr)

theorem table_rectangular_accented :
    RendersRectangular .u16 ["01-alpha".toList, "02-beta".toList]
      (runAll (fun _ => .error []) (exitsWith "échec".toList)
        [⟨"01-alpha".toList, [], some [], some []⟩, ⟨"02-beta".toList, [], some [], none⟩]) := by
  refine (table_rectangular_iff .u16 _ _ [_, _] (by decide)).mpr ?_
  rw [List.forall_mem_cons, List.forall_mem_singleton]
  refine ⟨⟨by decide, ?_⟩, ⟨by decide, ?_⟩⟩
  · rintro e ⟨_, _, _, _, hd | ⟨_, _, hd, _⟩⟩
    · cases hd
      exact ⟨by decide, by decide⟩
    · cases hd
  · rintro e ⟨_, _, _, ho, _⟩
    cases ho

/-- A message that ends its line takes the row a second one. -/
theorem newline_breaks_table : ¬ RendersRectangular .u16 ["01-alpha".toList]
    (runAll (fun _ => .error []) (exitsWith "boom\n".toList)
      [⟨"01-alpha".toList, [], some [], some []⟩]) := by
  rintro ⟨out, hout, h⟩
  have hlines : (renderTable .u16 (runAll (fun _ => .error []) (exitsWith "boom\n".toList)
      [⟨"01-alpha".toList, [], some [], some []⟩])).map (fun t => (lines t).length) = some 4 := by
    decide
  rw [hout, Option.map_some, h.count] at hlines
  cases hlines

end Harness
