import AximuxSystem.Tool.Emit

/-!
# Wrapped string lists

`_csv_strings` breaks a list of quoted strings into rows. The rows hold the
strings in order, none is empty, and the counter is the width of the row being
filled, so that a row with more than one string stays within the limit. Read as
a string list, the text gives back the strings.
-/

namespace AximuxSystem.Tool

open Dts

/-- A row of quoted strings. -/
def csvRow (xs : List String) : String := ", ".intercalate (xs.map quote)

/-- What the width counter counts: every quoted string, and a comma and a space for each. -/
def rowWidth (xs : List String) : ℕ := (xs.map fun x => (quote x).length + 2).sum

def WithinLimit (row : List String) : Prop := 1 < row.length → rowWidth row ≤ 70

theorem rowWidth_concat (xs : List String) (x : String) :
    rowWidth (xs ++ [x]) = rowWidth xs + (quote x).length + 2 := by
  simp [rowWidth, Nat.add_assoc]

/-- The last string of a row is counted with a separator it does not have. -/
theorem csvRow_length {row : List String} (hne : row ≠ []) :
    (csvRow row).length + 2 = rowWidth row := by
  induction row with
  | nil => exact absurd rfl hne
  | cons x row ih =>
    cases row with
    | nil => simp [csvRow, rowWidth]
    | cons y row =>
      have hrest := ih (List.cons_ne_nil y row)
      have hcons : csvRow (x :: y :: row) = quote x ++ ", " ++ csvRow (y :: row) :=
        String.intercalate_cons_cons
      have hwidth : rowWidth (x :: y :: row) = (quote x).length + 2 + rowWidth (y :: row) := rfl
      rw [hcons, hwidth, String.length_append, String.length_append, ← hrest]
      have hsep : ", ".length = 2 := rfl
      omega

/-- The rows written so far and the row being filled hold the strings `xs`. -/
structure Filled (xs : List String) (s : CsvState) (full : List (List String))
    (last : List String) : Prop where
  rows_eq : s.rows = full.map csvRow
  row_eq : s.row = last.map quote
  width_eq : s.width = rowWidth last
  strings : full.flatten ++ last = xs
  full_ne : ∀ row ∈ full, row ≠ []
  full_within : ∀ row ∈ full, WithinLimit row
  last_within : WithinLimit last

theorem withinLimit_singleton (x : String) : WithinLimit [x] :=
  fun h => absurd h (lt_irrefl 1)

theorem Filled.step {xs : List String} {s : CsvState} {full : List (List String)}
    {last : List String} (h : Filled xs s full last) (x : String) :
    ∃ full' last', Filled (xs ++ [x]) (csvStep s (quote x)) full' last' := by
  unfold csvStep
  split_ifs with hwrap
  · have hlast : last ≠ [] := by
      rintro rfl
      exact hwrap.1 h.row_eq
    refine ⟨full ++ [last], [x], ?_, rfl, ?_, ?_, ?_, ?_, withinLimit_singleton x⟩
    · rw [h.rows_eq, h.row_eq, List.map_append]
      rfl
    · simp [rowWidth]
    · rw [List.flatten_append, List.flatten_singleton, h.strings]
    · exact List.forall_mem_append.mpr ⟨h.full_ne, List.forall_mem_singleton.mpr hlast⟩
    · exact List.forall_mem_append.mpr ⟨h.full_within, List.forall_mem_singleton.mpr h.last_within⟩
  · refine ⟨full, last ++ [x], h.rows_eq, ?_, ?_, ?_, h.full_ne, h.full_within, ?_⟩
    · rw [h.row_eq, List.map_append]
      rfl
    · rw [h.width_eq, rowWidth_concat]
    · rw [← List.append_assoc, h.strings]
    · -- a string joins others only where the counter allows it
      intro hmany
      have hrow : s.row ≠ [] := by
        rw [h.row_eq]
        rintro hnil
        rw [List.map_eq_nil_iff.mp hnil] at hmany
        exact lt_irrefl 1 hmany
      have hwidth : ¬ s.width + (quote x).length + 2 > 70 := fun hw => hwrap ⟨hrow, hw⟩
      rw [rowWidth_concat, ← h.width_eq]
      omega

theorem filled_foldl (xs : List String) :
    ∃ full last, Filled xs ((xs.map quote).foldl csvStep ⟨[], [], 0⟩) full last := by
  induction xs using List.reverseRecOn with
  | nil =>
    exact ⟨[], [], rfl, rfl, rfl, rfl, List.forall_mem_nil _, List.forall_mem_nil _,
      fun h => absurd h (Nat.not_lt_zero 1)⟩
  | append_singleton xs x ih =>
    obtain ⟨full, last, h⟩ := ih
    rw [List.map_append, List.map_singleton, List.foldl_concat]
    exact h.step x

/-- The strings broken into rows. -/
structure Broken (xs : List String) (rows : List (List String)) : Prop where
  strings : rows.flatten = xs
  ne_nil : ∀ row ∈ rows, row ≠ []
  within : ∀ row ∈ rows, WithinLimit row

/-- The text is one of rows, whichever way the last one ended. -/
theorem csvStrings_eq (xs : List String) (indent : ℕ) : ∃ rows, Broken xs rows ∧
    csvStrings xs indent = (",\n" ++ Line.spaces indent).intercalate (rows.map csvRow) := by
  obtain ⟨full, last, h⟩ := filled_foldl xs
  by_cases hlast : last = []
  · refine ⟨full, ⟨?_, h.full_ne, h.full_within⟩, ?_⟩
    · simpa [hlast] using h.strings
    · simp only [csvStrings, h.rows_eq, h.row_eq, hlast, List.map_nil, ne_eq, not_true_eq_false,
        if_false]
  · refine ⟨full ++ [last], ⟨?_, ?_, ?_⟩, ?_⟩
    · simpa using h.strings
    · exact List.forall_mem_append.mpr ⟨h.full_ne, List.forall_mem_singleton.mpr hlast⟩
    · exact List.forall_mem_append.mpr ⟨h.full_within, List.forall_mem_singleton.mpr h.last_within⟩
    · simp only [csvStrings, h.rows_eq, h.row_eq, ne_eq, List.map_eq_nil_iff, hlast,
        not_false_eq_true, if_true, List.map_append]
      rfl

/-! ### Reading the text -/

section Reading

variable {plain : Char → Bool} {xs : List String}

theorem spellsWith_csvRow (hquote : plain '"' = false) (hne : xs ≠ [])
    (h : ∀ x ∈ xs, ∀ c ∈ x.toList, plain c = true) : SpellsWith plain (csvRow xs).toList xs := by
  have hsep : ", ".toList = ',' :: [' '] := rfl
  have hgap : ∀ c ∈ [' '], isSpace c = true := List.forall_mem_singleton.mpr rfl
  have hrow := SpellsWith.intercalate hsep hgap hne fun x hx => SpellsWith.quote hquote (h x hx)
  rwa [List.flatMap_singleton'] at hrow

theorem spells_csvRow (hne : xs ≠ []) (h : ∀ x ∈ xs, ∀ c ∈ x.toList, isPlain c = true) :
    Spells (csvRow xs).toList xs :=
  spells_iff.mpr (spellsWith_csvRow (by decide) hne h)

theorem sep_toList (indent : ℕ) :
    (",\n" ++ Line.spaces indent).toList = ',' :: '\n' :: List.replicate indent ' ' := by
  simp [Line.spaces]

/-- The wrapped list is a string list for the same strings. -/
theorem spellsWith_csvStrings (hquote : plain '"' = false) (hne : xs ≠ [])
    (h : ∀ x ∈ xs, ∀ c ∈ x.toList, plain c = true) (indent : ℕ) :
    SpellsWith plain (csvStrings xs indent).toList xs := by
  obtain ⟨rows, hrows, htext⟩ := csvStrings_eq xs indent
  have hgap : ∀ c ∈ '\n' :: List.replicate indent ' ', isSpace c = true := by
    intro c hc
    rcases List.mem_cons.mp hc with rfl | hc
    · rfl
    · rw [List.eq_of_mem_replicate hc]
      rfl
  have hparts : ∀ row ∈ rows, SpellsWith plain (csvRow row).toList row := by
    intro row hrow
    refine spellsWith_csvRow hquote (hrows.ne_nil row hrow) fun x hx => h x ?_
    rw [← hrows.strings]
    exact List.mem_flatten_of_mem hrow hx
  have hrowsne : rows ≠ [] := by
    rintro rfl
    exact hne hrows.strings.symm
  have hspells : SpellsWith plain
      ((",\n" ++ Line.spaces indent).intercalate (rows.map csvRow)).toList (rows.flatMap id) :=
    SpellsWith.intercalate (sep_toList indent) hgap hrowsne hparts
  rw [htext]
  rwa [List.flatMap_id, hrows.strings] at hspells

theorem spells_csvStrings (hne : xs ≠ []) (h : ∀ x ∈ xs, ∀ c ∈ x.toList, isPlain c = true)
    (indent : ℕ) : Spells (csvStrings xs indent).toList xs :=
  spells_iff.mpr (spellsWith_csvStrings (by decide) hne h indent)

end Reading

/-! ### Lines of the text -/

/-- The lines of rows, each but the last with a comma and each but the first behind `gap`. -/
def rowLines (lead gap : List Char) : List (List Char) → List (List Char)
  | [] => []
  | [row] => [lead ++ row]
  | row :: next :: rows => (lead ++ row ++ [',']) :: rowLines gap gap (next :: rows)

theorem rowLines_ne {rows : List (List Char)} (hne : rows ≠ []) (lead gap : List Char) :
    rowLines lead gap rows ≠ [] := by
  match rows with
  | [] => exact absurd rfl hne
  | [_] => exact List.cons_ne_nil _ _
  | _ :: _ :: _ => exact List.cons_ne_nil _ _

theorem intercalate_rowLines {rows : List (List Char)} (hne : rows ≠ []) (lead gap : List Char) :
    ['\n'].intercalate (rowLines lead gap rows) =
      lead ++ (',' :: '\n' :: gap).intercalate rows := by
  induction rows generalizing lead with
  | nil => exact absurd rfl hne
  | cons row rows ih =>
    cases rows with
    | nil => simp [rowLines]
    | cons next rows =>
      have hrest := ih (List.cons_ne_nil next rows) gap
      obtain ⟨line, lines, hlines⟩ :=
        List.exists_cons_of_ne_nil (rowLines_ne (List.cons_ne_nil next rows) gap gap)
      rw [rowLines, hlines, List.intercalate_cons_cons, ← hlines, hrest,
        List.intercalate_cons_cons]
      simp

theorem splitOn_rowLines {rows : List (List Char)} (hne : rows ≠ [])
    (hrows : ∀ row ∈ rows, '\n' ∉ row) {lead gap : List Char} (hlead : '\n' ∉ lead)
    (hgap : '\n' ∉ gap) :
    (lead ++ (',' :: '\n' :: gap).intercalate rows).splitOn '\n' = rowLines lead gap rows := by
  rw [← intercalate_rowLines hne]
  refine List.splitOn_intercalate '\n' ?_ (rowLines_ne hne lead gap)
  clear hne
  induction rows generalizing lead with
  | nil => exact List.forall_mem_nil _
  | cons row rows ih =>
    rw [List.forall_mem_cons] at hrows
    cases rows with
    | nil => simp [rowLines, hlead, hrows.1]
    | cons next rows =>
      rw [rowLines, List.forall_mem_cons]
      exact ⟨by simp [hlead, hrows.1], ih hrows.2 hgap⟩

theorem newline_not_mem_csvRow {row : List String} (h : ∀ x ∈ row, '\n' ∉ x.toList) :
    '\n' ∉ (csvRow row).toList := by
  have hquote (x : String) (hx : '\n' ∉ x.toList) : '\n' ∉ (quote x).toList := by
    simp [quote_toList, hx]
  induction row with
  | nil => exact List.not_mem_nil
  | cons x row ih =>
    rw [List.forall_mem_cons] at h
    cases row with
    | nil => simpa [csvRow] using hquote x h.1
    | cons y row =>
      have hcons : csvRow (x :: y :: row) = quote x ++ ", " ++ csvRow (y :: row) :=
        String.intercalate_cons_cons
      simp [hcons, hquote x h.1, ih h.2]

/-- The line holds the strings `row`: behind the indent and before a comma stands the text of a
string list. With more than one string, list and comma are at most 70 characters wide. -/
def HoldsRow (indent : ℕ) (line : List Char) (row : List String) : Prop :=
  ∃ lead body tail, line = lead ++ body ++ tail ∧
    (lead = [] ∨ lead = List.replicate indent ' ') ∧ (tail = [] ∨ tail = [',']) ∧
    readLiterals (String.ofList body) = some row ∧ (1 < row.length → (body ++ tail).length ≤ 70)

theorem holdsRow_csvRow {row : List String} (hne : row ≠ []) (hwithin : WithinLimit row)
    (h : ∀ x ∈ row, ∀ c ∈ x.toList, isLiteralChar c = true) {indent : ℕ} {lead tail : List Char}
    (hlead : lead = [] ∨ lead = List.replicate indent ' ') (htail : tail = [] ∨ tail = [',']) :
    HoldsRow indent (lead ++ (csvRow row).toList ++ tail) row := by
  refine ⟨lead, (csvRow row).toList, tail, rfl, hlead, htail, ?_, fun hmany => ?_⟩
  · rw [String.ofList_toList]
    exact readLiterals_of_spells (spellsWith_csvRow (by decide) hne h)
  · have hwidth := csvRow_length hne
    have hlimit := hwithin hmany
    have hcomma : tail.length ≤ 1 := by
      rcases htail with rfl | rfl
      · exact Nat.zero_le 1
      · exact le_refl 1
    rw [List.length_append, String.length_toList]
    omega

theorem holdsRow_lines {rows : List (List String)} (hne : ∀ row ∈ rows, row ≠ [])
    (hwithin : ∀ row ∈ rows, WithinLimit row)
    (h : ∀ row ∈ rows, ∀ x ∈ row, ∀ c ∈ x.toList, isLiteralChar c = true) {indent : ℕ}
    {lead : List Char} (hlead : lead = [] ∨ lead = List.replicate indent ' ') :
    List.Forall₂ (HoldsRow indent)
      (rowLines lead (List.replicate indent ' ') (rows.map fun row => (csvRow row).toList))
      rows := by
  induction rows generalizing lead with
  | nil => exact .nil
  | cons row rows ih =>
    rw [List.forall_mem_cons] at hne hwithin h
    cases rows with
    | nil =>
      have hline := holdsRow_csvRow hne.1 hwithin.1 h.1 hlead (.inl rfl)
      rw [List.append_nil] at hline
      exact .cons hline .nil
    | cons next rows =>
      exact .cons (holdsRow_csvRow hne.1 hwithin.1 h.1 hlead (.inr rfl))
        (ih hne.2 hwithin.2 h.2 (.inr rfl))

/-- Read as a string list, the wrapped text gives back the strings, and its lines hold them in
order, none wider than 70 characters unless it holds a single string. -/
theorem csvStrings_lossless {xs : List String} (hne : xs ≠ [])
    (h : ∀ x ∈ xs, ∀ c ∈ x.toList, c ≠ '"' ∧ c ≠ '\\' ∧ c ≠ '\n') (indent : ℕ) :
    readLiterals (csvStrings xs indent) = some xs ∧
      ∃ rows : List (List String), rows.flatten = xs ∧
        List.Forall₂ (HoldsRow indent) ((csvStrings xs indent).toList.splitOn '\n') rows := by
  have hplain : ∀ x ∈ xs, ∀ c ∈ x.toList, isLiteralChar c = true := by
    intro x hx c hc
    obtain ⟨hquote, hescape, -⟩ := h x hx c hc
    rw [isLiteralChar, bne_iff_ne.mpr hquote, bne_iff_ne.mpr hescape]
    rfl
  refine ⟨readLiterals_of_spells (spellsWith_csvStrings (by decide) hne hplain indent), ?_⟩
  obtain ⟨rows, hrows, htext⟩ := csvStrings_eq xs indent
  refine ⟨rows, hrows.strings, ?_⟩
  have hmem : ∀ row ∈ rows, ∀ x ∈ row, x ∈ xs := by
    intro row hrow x hx
    rw [← hrows.strings]
    exact List.mem_flatten_of_mem hrow hx
  have hlines : (csvStrings xs indent).toList.splitOn '\n' =
      rowLines [] (List.replicate indent ' ') (rows.map fun row => (csvRow row).toList) := by
    have hrowsne : rows.map (fun row => (csvRow row).toList) ≠ [] := by
      intro hnil
      rw [List.map_eq_nil_iff.mp hnil] at hrows
      exact hne hrows.strings.symm
    have hnewline : ∀ cs ∈ rows.map (fun row => (csvRow row).toList), '\n' ∉ cs := by
      intro cs hcs
      obtain ⟨row, hrow, rfl⟩ := List.mem_map.mp hcs
      exact newline_not_mem_csvRow fun x hx hc => (h x (hmem row hrow x hx) _ hc).2.2 rfl
    have hgap : '\n' ∉ List.replicate indent ' ' := fun hc =>
      absurd (List.eq_of_mem_replicate hc) (by decide)
    rw [htext, String.toList_intercalate, sep_toList, List.map_map]
    exact splitOn_rowLines hrowsne hnewline List.not_mem_nil hgap
  rw [hlines]
  exact holdsRow_lines hrows.ne_nil hrows.within
    (fun row hrow x hx => hplain x (hmem row hrow x hx)) (.inl rfl)

/-- An empty string, one with the separator in it, and enough strings for several rows. -/
def sampleStrings : List String := "" :: "rx, tx" :: List.replicate 9 "spi1.miso pad"

theorem sampleStrings_plain :
    ∀ x ∈ sampleStrings, ∀ c ∈ x.toList, c ≠ '"' ∧ c ≠ '\\' ∧ c ≠ '\n' := by
  have hall : sampleStrings.all (fun x => x.toList.all fun c =>
      c != '"' && (c != '\\' && c != '\n')) = true := by decide +kernel
  simpa only [List.all_eq_true, Bool.and_eq_true, bne_iff_ne] using hall

theorem csvStrings_lossless_sample :
    readLiterals (csvStrings sampleStrings 20) = some sampleStrings ∧
      ∃ rows : List (List String), rows.flatten = sampleStrings ∧
        List.Forall₂ (HoldsRow 20) ((csvStrings sampleStrings 20).toList.splitOn '\n') rows :=
  csvStrings_lossless (List.cons_ne_nil _ _) sampleStrings_plain 20

end AximuxSystem.Tool
