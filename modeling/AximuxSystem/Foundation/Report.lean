import Mathlib.Tactic

/-!
# Reports of named numbers

Two shapes of text a program prints for a reader: one line for each name with a
number of fixed width in hexadecimal, and fields `name=number` on one line. For
both there is a reader, and what is printed reads back.
-/

namespace Report

/-! ### Hexadecimal digits -/

/-- The last `width` hexadecimal digits of a number. -/
def hexDigits : ℕ → ℕ → List Char
  | 0, _ => []
  | width + 1, v => hexDigits width (v / 16) ++ [Nat.digitChar (v % 16)]

def hexValue (c : Char) : Option ℕ := (List.range 16).find? fun d => Nat.digitChar d == c

def readHex (cs : List Char) : Option ℕ :=
  cs.foldlM (fun n c => (hexValue c).map (16 * n + ·)) 0

theorem hexValue_digitChar {d : ℕ} (h : d < 16) : hexValue (Nat.digitChar d) = some d := by
  revert d
  decide

theorem length_hexDigits (width v : ℕ) : (hexDigits width v).length = width := by
  induction width generalizing v with
  | zero => rfl
  | succ width ih => rw [hexDigits, List.length_append, ih, List.length_singleton]

theorem readHex_hexDigits (width v : ℕ) : readHex (hexDigits width v) = some (v % 16 ^ width) := by
  induction width generalizing v with
  | zero => rw [Nat.pow_zero, Nat.mod_one]; rfl
  | succ width ih =>
    have hlast : v % 16 < 16 := Nat.mod_lt v (by decide)
    unfold readHex at ih ⊢
    rw [hexDigits, List.foldlM_append, ih, Option.bind_eq_bind, Option.bind_some,
      List.foldlM_cons, hexValue_digitChar hlast, Nat.pow_succ', Nat.mod_mul]
    exact congrArg some (Nat.add_comm _ _)

theorem exists_of_mem_hexDigits {c : Char} {width v : ℕ} (h : c ∈ hexDigits width v) :
    ∃ d < 16, c = Nat.digitChar d := by
  induction width generalizing v with
  | zero => exact absurd h List.not_mem_nil
  | succ width ih =>
    rcases List.mem_append.mp h with h | h
    · exact ih h
    · exact ⟨v % 16, Nat.mod_lt v (by decide), List.mem_singleton.mp h⟩

theorem notMem_hexDigits {c : Char} (h : ∀ d < 16, Nat.digitChar d ≠ c) (width v : ℕ) :
    c ∉ hexDigits width v := by
  intro hc
  obtain ⟨d, hd, rfl⟩ := exists_of_mem_hexDigits hc
  exact h d hd rfl

/-! ### Lines -/

/-- Lines that each end in the separator, split again. -/
theorem splitOn_terminated {c : Char} {lines : List (List Char)} (h : ∀ l ∈ lines, c ∉ l) :
    (lines.flatMap (· ++ [c])).splitOn c = lines ++ [[]] := by
  have hjoin : lines.flatMap (· ++ [c]) = [c].intercalate (lines ++ [[]]) := by
    clear h
    induction lines with
    | nil => rfl
    | cons l lines ih =>
      rw [List.flatMap_cons, ih]
      cases lines with
      | nil => simp [List.intercalate]
      | cons l' lines => simp [List.intercalate, List.intersperse]
  rw [hjoin]
  refine List.splitOn_intercalate c (fun l hl => ?_) (by simp)
  rcases List.mem_append.mp hl with hl | hl
  · exact h l hl
  · rw [List.mem_singleton.mp hl]
    exact List.not_mem_nil

/-- `name:0xHH` with `width` digits. -/
def hexLine (width : ℕ) (entry : String × ℕ) : List Char :=
  entry.1.toList ++ ':' :: '0' :: 'x' :: hexDigits width entry.2

def hexReport (width : ℕ) (entries : List (String × ℕ)) : String :=
  String.ofList (entries.flatMap fun e => hexLine width e ++ ['\n'])

def readHexLine (cs : List Char) : Option (String × ℕ) :=
  match cs.dropWhile (· != ':') with
  | ':' :: '0' :: 'x' :: digits =>
    (readHex digits).map fun v => (String.ofList (cs.takeWhile (· != ':')), v)
  | _ => none

/-- The entries of a report, whose last line is complete. -/
def readHexReport (text : String) : Option (List (String × ℕ)) :=
  match (text.toList.splitOn '\n').reverse with
  | [] :: lines => lines.reverse.mapM readHexLine
  | _ => none

/-- A name that can stand before a colon on a line. -/
def IsName (name : String) : Prop := ':' ∉ name.toList ∧ '\n' ∉ name.toList

theorem readHexLine_hexLine (width : ℕ) {entry : String × ℕ} (h : ':' ∉ entry.1.toList) :
    readHexLine (hexLine width entry) = some (entry.1, entry.2 % 16 ^ width) := by
  have hname : ∀ c ∈ entry.1.toList, (c != ':') = true := fun c hc =>
    bne_iff_ne.mpr fun heq => h (heq ▸ hc)
  have hdrop : (hexLine width entry).dropWhile (· != ':') =
      ':' :: '0' :: 'x' :: hexDigits width entry.2 := by
    rw [hexLine, List.dropWhile_append_of_pos hname, List.dropWhile_cons_of_neg (by simp)]
  have htake : (hexLine width entry).takeWhile (· != ':') = entry.1.toList := by
    rw [hexLine, List.takeWhile_append_of_pos hname, List.takeWhile_cons_of_neg (by simp),
      List.append_nil]
  rw [readHexLine, hdrop, htake]
  simp only [readHex_hexDigits, Option.map_some, String.ofList_toList]

theorem newline_notMem_hexLine (width : ℕ) {entry : String × ℕ} (h : '\n' ∉ entry.1.toList) :
    '\n' ∉ hexLine width entry := by
  have hdigits : '\n' ∉ hexDigits width entry.2 := notMem_hexDigits (by decide) width entry.2
  simp [hexLine, h, hdigits]

/-- What is printed reads back, each number cut to the width. -/
theorem readHexReport_hexReport (width : ℕ) {entries : List (String × ℕ)}
    (h : ∀ e ∈ entries, IsName e.1) :
    readHexReport (hexReport width entries) =
      some (entries.map fun e => (e.1, e.2 % 16 ^ width)) := by
  have hlines : (hexReport width entries).toList.splitOn '\n' =
      entries.map (hexLine width) ++ [[]] := by
    rw [hexReport, String.toList_ofList, ← splitOn_terminated, List.flatMap_map]
    intro l hl
    obtain ⟨e, he, rfl⟩ := List.mem_map.mp hl
    exact newline_notMem_hexLine width (h e he).2
  have hread : (entries.map (hexLine width)).mapM readHexLine =
      some (entries.map fun e => (e.1, e.2 % 16 ^ width)) := by
    clear hlines
    induction entries with
    | nil => rfl
    | cons e entries ih =>
      rw [List.forall_mem_cons] at h
      rw [List.map_cons, List.mapM_cons, readHexLine_hexLine width h.1.1, ih h.2]
      rfl
  rw [readHexReport, hlines, List.reverse_concat]
  simp only [List.reverse_reverse, hread]

/-! ### Fields -/

/-- `name=number` -/
def fieldText (field : String × ℕ) : List Char := field.1.toList ++ '=' :: Nat.toDigits 10 field.2

def fieldsText (fields : List (String × ℕ)) : String :=
  String.ofList ([' '].intercalate (fields.map fieldText))

def readField (cs : List Char) : Option (String × ℕ) :=
  match cs.dropWhile (· != '=') with
  | '=' :: digits =>
    if digits ≠ [] ∧ digits.all Char.isDigit then
      some (String.ofList (cs.takeWhile (· != '=')), Nat.ofDigitChars 10 digits 0)
    else none
  | _ => none

def readFields (text : String) : Option (List (String × ℕ)) :=
  (text.toList.splitOn ' ').mapM readField

theorem readField_fieldText {field : String × ℕ} (h : '=' ∉ field.1.toList) :
    readField (fieldText field) = some field := by
  have hname : ∀ c ∈ field.1.toList, (c != '=') = true := fun c hc =>
    bne_iff_ne.mpr fun heq => h (heq ▸ hc)
  have hdrop : (fieldText field).dropWhile (· != '=') = '=' :: Nat.toDigits 10 field.2 := by
    rw [fieldText, List.dropWhile_append_of_pos hname, List.dropWhile_cons_of_neg (by simp)]
  have htake : (fieldText field).takeWhile (· != '=') = field.1.toList := by
    rw [fieldText, List.takeWhile_append_of_pos hname, List.takeWhile_cons_of_neg (by simp),
      List.append_nil]
  have hdigits : Nat.toDigits 10 field.2 ≠ [] ∧ (Nat.toDigits 10 field.2).all Char.isDigit :=
    ⟨Nat.toDigits_ne_nil, List.all_eq_true.mpr fun c hc =>
      Nat.isDigit_of_mem_toDigits (by decide) (by decide) hc⟩
  rw [readField, hdrop, htake]
  simp only [if_pos hdigits, String.ofList_toList, Nat.ofDigitChars_ten_toDigits]

theorem readFields_fieldsText {fields : List (String × ℕ)} (hne : fields ≠ [])
    (h : ∀ f ∈ fields, '=' ∉ f.1.toList ∧ ' ' ∉ f.1.toList) :
    readFields (fieldsText fields) = some fields := by
  have hsplit : (fieldsText fields).toList.splitOn ' ' = fields.map fieldText := by
    rw [fieldsText, String.toList_ofList]
    refine List.splitOn_intercalate ' ' (fun l hl => ?_) (by simpa using hne)
    obtain ⟨f, hf, rfl⟩ := List.mem_map.mp hl
    rw [fieldText, List.mem_append, List.mem_cons, not_or, not_or]
    refine ⟨(h f hf).2, by decide, fun hspace => ?_⟩
    exact absurd (Nat.isDigit_of_mem_toDigits (by decide) (by decide) hspace) (by decide)
  rw [readFields, hsplit]
  clear hsplit hne
  induction fields with
  | nil => rfl
  | cons f fields ih =>
    rw [List.forall_mem_cons] at h
    rw [List.map_cons, List.mapM_cons, readField_fieldText h.1.1, ih h.2]
    rfl

end Report
