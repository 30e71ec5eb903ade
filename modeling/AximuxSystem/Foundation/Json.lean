import AximuxSystem.Foundation.Report
import AximuxSystem.Foundation.Text

/-!
# JSON text

Values of natural numbers, strings, arrays and objects, the text a printer with
indentation makes of them, and a reader. The printer escapes everything that is
not ASCII, characters beyond the first plane as two code units. What is printed
is read back, whatever the strings are.
-/

namespace Json

open Report Text

inductive Value where
  | null
  | number (n : ℕ)
  | string (s : String)
  | array (items : List Value)
  | object (members : List (String × Value))

/-! ### Printing -/

/-- The characters with an escape of two characters. -/
def escapes : List (Char × Char) :=
  [('"', '"'), ('\\', '\\'), ('\n', 'n'), ('\r', 'r'), ('\t', 't'), ('\x0c', 'f'), ('\x08', 'b')]

def escapeUnit (n : ℕ) : List Char := '\\' :: 'u' :: hexDigits 4 n

def isPrintable (c : Char) : Bool := decide (0x20 ≤ c.toNat ∧ c.toNat < 0x7f)

def escapeChar (c : Char) : List Char :=
  match escapes.lookup c with
  | some e => ['\\', e]
  | none =>
    if isPrintable c then [c]
    else if c.toNat < 0x10000 then escapeUnit c.toNat
    else
      let v := c.toNat - 0x10000
      escapeUnit (0xd800 + v / 0x400) ++ escapeUnit (0xdc00 + v % 0x400)

def printString (s : String) : List Char := '"' :: (s.toList.flatMap escapeChar ++ ['"'])

/-- A line break and the indentation behind it. -/
def newline (level : ℕ) : List Char := '\n' :: List.replicate (2 * level) ' '

/-- The parts of an array or an object on lines of their own. -/
def container (opening closing : Char) (level : ℕ) (parts : List (List Char)) : List Char :=
  match parts with
  | [] => [opening, closing]
  | part :: parts =>
    opening :: (newline (level + 1) ++ part ++
      parts.flatMap (fun part => ',' :: (newline (level + 1) ++ part)) ++
        newline level ++ [closing])

mutual

def print (level : ℕ) : Value → List Char
  | .null => "null".toList
  | .number n => (toString n).toList
  | .string s => printString s
  | .array items => container '[' ']' level (printItems (level + 1) items)
  | .object members => container '\x7b' '\x7d' level (printMembers (level + 1) members)

def printItems (level : ℕ) : List Value → List (List Char)
  | [] => []
  | v :: items => print level v :: printItems level items

def printMembers (level : ℕ) : List (String × Value) → List (List Char)
  | [] => []
  | (key, v) :: members =>
    (printString key ++ ':' :: ' ' :: print level v) :: printMembers level members

end

/-! ### Reading strings -/

/-- What the body of a string is made of: characters, and escaped code units. -/
inductive Piece where
  | char (c : Char)
  | unit (n : ℕ)

def unescape (e : Char) : Option Char :=
  ((('/', '/') :: escapes).find? fun p => p.2 == e).map Prod.fst

/-- The body of a string up to the closing quote, and what is behind it. -/
def readPieces : List Char → Option (List Piece × List Char)
  | [] => none
  | c :: rest =>
    if c = '"' then some ([], rest)
    else if c = '\\' then
      match rest with
      | 'u' :: a :: b :: d :: e :: rest => do
        let n ← readHex ([a, b, d, e].map Char.toLower)
        let (ps, rest) ← readPieces rest
        some (.unit n :: ps, rest)
      | e :: rest => do
        let c ← unescape e
        let (ps, rest) ← readPieces rest
        some (.char c :: ps, rest)
      | [] => none
    else if c.toNat < 0x20 then none
    else do
      let (ps, rest) ← readPieces rest
      some (.char c :: ps, rest)

/-- The characters of the pieces; a code unit of a pair makes no character alone. -/
def joinUnits : List Piece → Option (List Char)
  | [] => some []
  | .char c :: ps => (joinUnits ps).map (c :: ·)
  | .unit n :: ps =>
    if 0xd800 ≤ n ∧ n < 0xdc00 then
      match ps with
      | .unit m :: ps =>
        if 0xdc00 ≤ m ∧ m < 0xe000 then
          (joinUnits ps).map (Char.ofNat (0x10000 + (n - 0xd800) * 0x400 + (m - 0xdc00)) :: ·)
        else none
      | _ => none
    else if 0xdc00 ≤ n ∧ n < 0xe000 then none
    else (joinUnits ps).map (Char.ofNat n :: ·)

/-- A string behind its opening quote. -/
def readString (cs : List Char) : Option (String × List Char) := do
  let (ps, rest) ← readPieces cs
  let body ← joinUnits ps
  some (String.ofList body, rest)

/-- The pieces a character is printed as. -/
def pieces (c : Char) : List Piece :=
  if (escapes.lookup c).isSome ∨ isPrintable c = true then [.char c]
  else if c.toNat < 0x10000 then [.unit c.toNat]
  else
    let v := c.toNat - 0x10000
    [.unit (0xd800 + v / 0x400), .unit (0xdc00 + v % 0x400)]

section Strings

theorem char_range (c : Char) : c.toNat < 0xd800 ∨ 0xdfff < c.toNat ∧ c.toNat < 0x110000 :=
  c.valid

variable {c : Char} {rest : List Char}

theorem readPieces_escape {e : Char} (he : (c, e) ∈ escapes) :
    readPieces ('\\' :: e :: rest) = (readPieces rest).map fun r => (.char c :: r.1, r.2) := by
  have hcases : ∀ p ∈ escapes, p.2 ≠ 'u' ∧ unescape p.2 = some p.1 := by decide
  obtain ⟨hu, hun⟩ := hcases _ he
  have hstep : readPieces ('\\' :: e :: rest) = (unescape e).bind fun c =>
      (readPieces rest).bind fun r => some (.char c :: r.1, r.2) := by
    rw [readPieces, if_neg (by decide), if_pos rfl]
    · rfl
    · rintro a b d e' rest' rfl
      exact absurd rfl hu
  rw [hstep, hun, Option.bind_some]
  cases readPieces rest <;> rfl

theorem readPieces_unit {n : ℕ} (hn : n < 0x10000) : readPieces (escapeUnit n ++ rest) =
    (readPieces rest).map fun r => (.unit n :: r.1, r.2) := by
  have hread := readHex_hexDigits 4 n
  rw [Nat.mod_eq_of_lt (lt_of_lt_of_eq hn (by decide))] at hread
  obtain ⟨a, b, d, e, hdigits⟩ : ∃ a b d e, hexDigits 4 n = [a, b, d, e] := ⟨_, _, _, _, rfl⟩
  have hlower : (hexDigits 4 n).map Char.toLower = hexDigits 4 n := by
    refine (List.map_congr_left fun c hc => ?_).trans (List.map_id _)
    obtain ⟨d, hd, rfl⟩ := exists_of_mem_hexDigits hc
    exact (by decide : ∀ d < 16, (Nat.digitChar d).toLower = Nat.digitChar d) d hd
  rw [hdigits] at hlower hread
  rw [escapeUnit, hdigits]
  change readPieces ('\\' :: 'u' :: a :: b :: d :: e :: rest) = _
  rw [readPieces, if_neg (by decide), if_pos rfl, hlower, hread]
  cases readPieces rest <;> rfl

theorem readPieces_escapeChar (c : Char) (rest : List Char) : readPieces (escapeChar c ++ rest) =
    (readPieces rest).map fun r => (pieces c ++ r.1, r.2) := by
  cases hlookup : escapes.lookup c with
  | some e =>
    obtain ⟨front, back, happend, -⟩ := List.lookup_eq_some_iff.mp hlookup
    have hmem : (c, e) ∈ escapes := happend ▸ List.mem_append_right _ List.mem_cons_self
    simp only [escapeChar, pieces, hlookup, Option.isSome_some, true_or, if_true]
    exact readPieces_escape hmem
  | none =>
    have hnot : ∀ e, (c, e) ∉ escapes := fun e he =>
      bne_iff_ne.mp (List.lookup_eq_none_iff.mp hlookup _ he) rfl
    by_cases hprint : isPrintable c = true
    · simp only [escapeChar, pieces, hlookup, hprint, or_true, if_true]
      have hquote : c ≠ '"' := by
        rintro rfl
        exact hnot '"' (by decide)
      have hback : c ≠ '\\' := by
        rintro rfl
        exact hnot '\\' (by decide)
      have hspace : ¬ c.toNat < 0x20 := Nat.not_lt.mpr (of_decide_eq_true hprint).1
      rw [List.singleton_append, readPieces.eq_def]
      simp only [if_neg hquote, if_neg hback, if_neg hspace]
      cases readPieces rest <;> rfl
    · simp only [escapeChar, pieces, hlookup, hprint, Option.isSome_none, Bool.false_eq_true,
        or_self, if_false]
      split_ifs with hplane
      · exact readPieces_unit hplane
      · have hrange := char_range c
        rw [List.append_assoc, readPieces_unit (by omega), readPieces_unit (by omega),
          Option.map_map]
        rfl

/-- The pieces of a character are joined to the character. -/
theorem joinUnits_pieces (c : Char) (ps : List Piece) :
    joinUnits (pieces c ++ ps) = (joinUnits ps).map (c :: ·) := by
  unfold pieces
  split_ifs with hchar hplane
  · rfl
  · have hrange := char_range c
    rw [List.singleton_append, joinUnits.eq_def]
    simp only
    rw [if_neg (by omega), if_neg (by omega), Char.ofNat_toNat]
  · have hrange := char_range c
    have hvalue : 0x10000 + (0xd800 + (c.toNat - 0x10000) / 0x400 - 0xd800) * 0x400 +
        (0xdc00 + (c.toNat - 0x10000) % 0x400 - 0xdc00) = c.toNat := by omega
    change joinUnits (.unit _ :: .unit _ :: ps) = _
    rw [joinUnits, if_pos (by omega), if_pos (by omega), hvalue, Char.ofNat_toNat]

/-- A printed string is read back. -/
theorem readString_print (s : String) (rest : List Char) :
    readString (s.toList.flatMap escapeChar ++ '"' :: rest) = some (s, rest) := by
  have hbody (cs : List Char) : readPieces (cs.flatMap escapeChar ++ '"' :: rest) =
      some (cs.flatMap pieces, rest) := by
    induction cs with
    | nil =>
      rw [List.flatMap_nil, List.nil_append, readPieces.eq_def]
      rfl
    | cons c cs ih =>
      rw [List.flatMap_cons, List.append_assoc, readPieces_escapeChar, ih]
      rfl
  have hjoin (cs : List Char) : joinUnits (cs.flatMap pieces) = some cs := by
    induction cs with
    | nil => rfl
    | cons c cs ih =>
      rw [List.flatMap_cons, joinUnits_pieces, ih]
      rfl
  rw [readString, hbody, Option.bind_eq_bind, Option.bind_some]
  simp only [hjoin, Option.bind_eq_bind, Option.bind_some, String.ofList_toList]

end Strings

/-! ### Reading values -/

def isSpace (c : Char) : Bool := [' ', '\n', '\t', '\r'].contains c

def skipSpace (cs : List Char) : List Char := cs.dropWhile isSpace

/-- A number, spelled as it is printed. -/
def readNumber (cs : List Char) : Option (Value × List Char) :=
  let digits := cs.takeWhile Char.isDigit
  if (toString (decimalValue digits)).toList = digits then
    some (.number (decimalValue digits), cs.dropWhile Char.isDigit)
  else none

section Containers

variable {α : Type} (item : List Char → Option (α × List Char)) (closing : Char)

/-- Items with commas in between, up to the closing mark. -/
def readItems : ℕ → List Char → Option (List α × List Char)
  | 0, _ => none
  | n + 1, cs => do
    let (x, rest) ← item cs
    match skipSpace rest with
    | [] => none
    | c :: rest =>
      if c = ',' then do
        let (xs, rest) ← readItems n rest
        some (x :: xs, rest)
      else if c = closing then some ([x], rest)
      else none

/-- What stands behind the opening mark. -/
def readContainer (n : ℕ) (cs : List Char) : Option (List α × List Char) :=
  match skipSpace cs with
  | [] => none
  | c :: rest => if c = closing then some ([], rest) else readItems item closing n (c :: rest)

end Containers

def readMember (value : List Char → Option (Value × List Char)) (cs : List Char) :
    Option ((String × Value) × List Char) :=
  match skipSpace cs with
  | '"' :: rest => do
    let (key, rest) ← readString rest
    match skipSpace rest with
    | ':' :: rest => do
      let (v, rest) ← value rest
      some ((key, v), rest)
    | _ => none
  | _ => none

/-- The fuel bounds the depth of the value and the number of its parts. -/
def readValue : ℕ → List Char → Option (Value × List Char)
  | 0, _ => none
  | fuel + 1, cs =>
    match skipSpace cs with
    | [] => none
    | c :: rest =>
      if c = '"' then (readString rest).map fun r => (.string r.1, r.2)
      else if c = '[' then
        (readContainer (readValue fuel) ']' fuel rest).map fun r => (.array r.1, r.2)
      else if c = '\x7b' then
        (readContainer (readMember (readValue fuel)) '\x7d' fuel rest).map fun r =>
          (.object r.1, r.2)
      else if c.isDigit then readNumber (c :: rest)
      else if "null".toList.isPrefixOf (c :: rest) then some (.null, rest.drop 3)
      else none

/-- The value a text spells. -/
def read (text : String) : Option Value := do
  let (v, rest) ← readValue text.length text.toList
  if skipSpace rest = [] then some v else none

/-! ### What is printed is read -/

/-- The text begins with neither white space nor a closing mark. -/
def Opens (t : List Char) : Prop := ∃ c ∈ t.head?, isSpace c = false ∧ c ≠ ']' ∧ c ≠ '\x7d'

/-- Behind white space and before what cannot prolong a number, the text is read as `x`. -/
def Reads {α : Type} (item : List Char → Option (α × List Char)) (t : List Char) (x : α) : Prop :=
  ∀ gap rest, (∀ c ∈ gap, isSpace c = true) → (∀ c ∈ rest.head?, c.isDigit = false) →
    item (gap ++ t ++ rest) = some (x, rest)

theorem skipSpace_append {gap : List Char} (h : ∀ c ∈ gap, isSpace c = true) (cs : List Char) :
    skipSpace (gap ++ cs) = skipSpace cs := List.dropWhile_append_of_pos h

theorem skipSpace_cons {c : Char} (h : isSpace c = false) (cs : List Char) :
    skipSpace (c :: cs) = c :: cs := List.dropWhile_cons_of_neg (by simp [h])

theorem newline_space (level : ℕ) : ∀ c ∈ newline level, isSpace c = true := by
  intro c hc
  rcases List.mem_cons.mp hc with rfl | hc
  · rfl
  · rw [List.eq_of_mem_replicate hc]
    rfl

section Containers

variable {α : Type} {item : List Char → Option (α × List Char)} {closing : Char}

theorem readItems_parts (hclosing : closing = ']' ∨ closing = '\x7d') (level : ℕ)
    (rest : List Char) {parts : List (List Char)} {xs : List α}
    (h : List.Forall₂ (Reads item) parts xs) {t : List Char} {x : α} (hx : Reads item t x)
    {gap : List Char} (hgap : ∀ c ∈ gap, isSpace c = true) {n : ℕ} (hn : xs.length < n) :
    readItems item closing n (gap ++ t ++
      (parts.flatMap (fun part => ',' :: (newline (level + 1) ++ part)) ++
        (newline level ++ closing :: rest))) = some (x :: xs, rest) := by
  have hne : closing ≠ ',' ∧ isSpace closing = false := by
    rcases hclosing with rfl | rfl <;> decide
  induction h generalizing t gap x n with
  | nil =>
    cases n with
    | zero => exact absurd hn (Nat.not_lt_zero _)
    | succ n =>
      have hend : ∀ c ∈ (newline level ++ closing :: rest).head?, c.isDigit = false := by
        simp [newline]
      rw [List.flatMap_nil, List.nil_append, readItems, hx gap _ hgap hend]
      simp only [Option.bind_eq_bind, Option.bind_some, skipSpace_append (newline_space level),
        skipSpace_cons hne.2, if_neg hne.1, if_true]
  | @cons part y parts xs hy _ ih =>
    cases n with
    | zero => exact absurd hn (Nat.not_lt_zero _)
    | succ n =>
      have hrest := ih hy (newline_space (level + 1)) (Nat.lt_of_succ_lt_succ hn)
      rw [List.flatMap_cons, List.cons_append, List.cons_append, List.append_assoc _ _ (_ ++ _),
        readItems, hx gap _ hgap (by simp)]
      simp only [Option.bind_eq_bind, Option.bind_some,
        skipSpace_cons (by decide : isSpace ',' = _), if_true, hrest]

theorem readContainer_parts (opening : Char) (hclosing : closing = ']' ∨ closing = '\x7d')
    (level : ℕ) (rest : List Char) {parts : List (List Char)} {xs : List α}
    (h : List.Forall₂ (Reads item) parts xs) (hopens : ∀ part ∈ parts, Opens part) {n : ℕ}
    (hn : xs.length ≤ n) : ∃ tail, container opening closing level parts = opening :: tail ∧
      readContainer item closing n (tail ++ rest) = some (xs, rest) := by
  have hspace : isSpace closing = false := by
    rcases hclosing with rfl | rfl <;> decide
  cases h with
  | nil =>
    refine ⟨_, rfl, ?_⟩
    rw [readContainer, List.singleton_append, skipSpace_cons hspace]
    exact if_pos rfl
  | @cons part x parts xs hx hxs =>
    refine ⟨_, rfl, ?_⟩
    obtain ⟨c, hc, hcspace, hcne⟩ := hopens part List.mem_cons_self
    obtain ⟨cs, rfl⟩ := List.head?_eq_some_iff.mp hc
    have hitems := readItems_parts hclosing level rest hxs hx (List.forall_mem_nil _) hn
    have hcclosing : c ≠ closing := by
      rcases hclosing with rfl | rfl
      · exact hcne.1
      · exact hcne.2
    simp only [List.append_assoc, List.cons_append, List.nil_append] at hitems ⊢
    rw [readContainer, skipSpace_append (newline_space _), skipSpace_cons hcspace]
    simp only [if_neg hcclosing]
    exact hitems

end Containers

/-- Induction on a value, with the parts of arrays and objects. -/
theorem Value.induction {P : Value → Prop} (null : P .null) (number : ∀ n, P (.number n))
    (string : ∀ s, P (.string s)) (array : ∀ items, (∀ v ∈ items, P v) → P (.array items))
    (object : ∀ members, (∀ m ∈ members, P m.2) → P (.object members)) (v : Value) : P v :=
  @Value.rec P (fun items => ∀ v ∈ items, P v) (fun members => ∀ m ∈ members, P m.2)
    (fun m => P m.2) null number string array object (by simp)
    (fun _ _ hv hvs => List.forall_mem_cons.mpr ⟨hv, hvs⟩) (by simp)
    (fun _ _ hm hms => List.forall_mem_cons.mpr ⟨hm, hms⟩) (fun _ _ hv => hv) v

def printMember (level : ℕ) (m : String × Value) : List Char :=
  printString m.1 ++ ':' :: ' ' :: print level m.2

theorem printItems_eq (level : ℕ) (items : List Value) :
    printItems level items = items.map (print level) := by
  induction items with
  | nil => rfl
  | cons v items ih => rw [printItems, ih, List.map_cons]

theorem printMembers_eq (level : ℕ) (members : List (String × Value)) :
    printMembers level members = members.map (printMember level) := by
  induction members with
  | nil => rfl
  | cons m members ih => rw [printMembers, ih, List.map_cons, printMember]

section Bounds

variable {opening closing : Char} {level : ℕ} {parts : List (List Char)}

theorem length_container :
    parts.length + (parts.map List.length).sum <
      (container opening closing level parts).length := by
  cases parts with
  | nil => exact Nat.zero_lt_two
  | cons part parts =>
    have hrest : parts.length + (parts.map List.length).sum ≤
        (parts.flatMap fun part => ',' :: (newline (level + 1) ++ part)).length := by
      induction parts with
      | nil => exact le_rfl
      | cons part parts ih =>
        simp only [List.flatMap_cons, List.map_cons, List.sum_cons, List.length_cons,
          List.length_append]
        omega
    simp only [container, List.map_cons, List.sum_cons, List.length_cons, List.length_append]
    omega

theorem length_parts_lt : parts.length < (container opening closing level parts).length :=
  lt_of_le_of_lt (Nat.le_add_right _ _) length_container

theorem length_part_lt {part : List Char} (h : part ∈ parts) :
    part.length < (container opening closing level parts).length :=
  lt_of_le_of_lt ((List.le_sum_of_mem (List.mem_map_of_mem h)).trans (Nat.le_add_left _ _))
    length_container

end Bounds

theorem opens_container {opening : Char} (closing : Char)
    (h : isSpace opening = false ∧ opening ≠ ']' ∧ opening ≠ '\x7d') (level : ℕ)
    (parts : List (List Char)) : Opens (container opening closing level parts) := by
  cases parts with
  | nil => exact ⟨opening, rfl, h⟩
  | cons part parts => exact ⟨opening, rfl, h⟩

theorem digit_ne {c d : Char} (h : c.isDigit = true) (hd : d.isDigit = false) : c ≠ d := by
  rintro rfl
  exact Bool.false_ne_true (hd.symm.trans h)

theorem isSpace_digit {c : Char} (h : c.isDigit = true) : isSpace c = false := by
  by_contra hspace
  rw [Bool.not_eq_false, isSpace, List.contains_iff_mem] at hspace
  have hnone : [' ', '\n', '\t', '\r'].all (fun d => !d.isDigit) = true := by decide
  have hdigit := List.all_eq_true.mp hnone c hspace
  rw [h] at hdigit
  exact Bool.false_ne_true hdigit

theorem opens_print (level : ℕ) (v : Value) : Opens (print level v) := by
  cases v with
  | null => exact ⟨'n', rfl, by decide⟩
  | number n =>
    obtain ⟨c, cs, hn⟩ := List.exists_cons_of_ne_nil (toString_ne_nil n)
    have hdigit : c.isDigit = true := isDigit_of_mem_toString (hn ▸ List.mem_cons_self)
    rw [print, hn]
    exact ⟨c, rfl, isSpace_digit hdigit, digit_ne hdigit rfl, digit_ne hdigit rfl⟩
  | string s => exact ⟨'"', rfl, by decide⟩
  | array items => exact opens_container _ (by decide) _ _
  | object members => exact opens_container _ (by decide) _ _

theorem readValue_append {gap : List Char} (h : ∀ c ∈ gap, isSpace c = true) (fuel : ℕ)
    (cs : List Char) : readValue fuel (gap ++ cs) = readValue fuel cs := by
  cases fuel with
  | zero => rfl
  | succ fuel => rw [readValue, readValue, skipSpace_append h]

theorem readNumber_print {rest : List Char} (h : ∀ c ∈ rest.head?, c.isDigit = false) (n : ℕ) :
    readNumber ((toString n).toList ++ rest) = some (.number n, rest) := by
  have hdigits : ∀ c ∈ (toString n).toList, c.isDigit = true := fun c => isDigit_of_mem_toString
  have hstop : rest.takeWhile Char.isDigit = [] ∧ rest.dropWhile Char.isDigit = rest := by
    cases rest with
    | nil => exact ⟨rfl, rfl⟩
    | cons c rest =>
      have hc : c.isDigit = false := h c rfl
      exact ⟨List.takeWhile_cons_of_neg (by simp [hc]), List.dropWhile_cons_of_neg (by simp [hc])⟩
  rw [readNumber, List.takeWhile_append_of_pos hdigits, hstop.1, List.append_nil,
    decimalValue_toString, List.dropWhile_append_of_pos hdigits, hstop.2]
  exact if_pos rfl

theorem readMember_print {fuel level : ℕ} {m : String × Value}
    (h : Reads (readValue fuel) (print level m.2) m.2) :
    Reads (readMember (readValue fuel)) (printMember level m) m := by
  intro gap rest hgap hrest
  have hvalue := h [' '] rest (by simp [isSpace]) hrest
  simp only [printMember, printString, List.append_assoc, List.cons_append, List.nil_append]
    at hvalue ⊢
  rw [readMember, skipSpace_append hgap, skipSpace_cons rfl]
  simp only [readString_print, Option.bind_eq_bind, Option.bind_some,
    skipSpace_cons (by decide : isSpace ':' = _), hvalue]

theorem length_value_le (level : ℕ) (m : String × Value) :
    (print (level + 1) m.2).length ≤ (printMember (level + 1) m).length := by
  simp only [printMember, List.length_append, List.length_cons]
  omega

/-- The printed parts of an array or an object, read with fuel for each of them. -/
theorem readContainer_print {α : Type} {item : List Char → Option (α × List Char)}
    {text : α → List Char} {xs : List α} {opening closing : Char}
    (hclosing : closing = ']' ∨ closing = '\x7d') {level fuel : ℕ}
    (hfuel : (container opening closing level (xs.map text)).length ≤ fuel + 1)
    (hreads : ∀ x ∈ xs, (text x).length ≤ fuel → Reads item (text x) x)
    (hopens : ∀ x ∈ xs, Opens (text x)) (rest : List Char) :
    ∃ tail, container opening closing level (xs.map text) = opening :: tail ∧
      readContainer item closing fuel (tail ++ rest) = some (xs, rest) := by
  have hlen : xs.length ≤ fuel := by
    have hparts := lt_of_lt_of_le length_parts_lt hfuel
    rw [List.length_map] at hparts
    exact Nat.le_of_lt_succ hparts
  refine readContainer_parts opening hclosing level rest ?_ (List.forall_mem_map.mpr hopens) hlen
  rw [List.forall₂_map_left_iff, List.forall₂_same]
  refine fun x hx => hreads x hx (Nat.le_of_lt_succ ?_)
  exact lt_of_lt_of_le (length_part_lt (List.mem_map_of_mem hx)) hfuel

/-- A printed value is read back, whatever is behind it. -/
theorem reads_print (v : Value) : ∀ level fuel, (print level v).length ≤ fuel →
    Reads (readValue fuel) (print level v) v := by
  induction v using Value.induction with
  | null =>
    intro level fuel hfuel gap rest hgap _
    rw [List.append_assoc, readValue_append hgap]
    cases fuel with
    | zero => cases hfuel
    | succ fuel => rfl
  | number n =>
    intro level fuel hfuel gap rest hgap hrest
    rw [List.append_assoc, readValue_append hgap]
    obtain ⟨c, cs, hn⟩ := List.exists_cons_of_ne_nil (toString_ne_nil n)
    have hdigit : c.isDigit = true := isDigit_of_mem_toString (hn ▸ List.mem_cons_self)
    have hread := readNumber_print hrest n
    rw [print, hn] at hfuel ⊢
    rw [hn] at hread
    cases fuel with
    | zero => cases hfuel
    | succ fuel =>
      rw [List.cons_append] at hread ⊢
      rw [readValue, skipSpace_cons (isSpace_digit hdigit)]
      simp only [if_neg (digit_ne hdigit (by decide : Char.isDigit '"' = false)),
        if_neg (digit_ne hdigit (by decide : Char.isDigit '[' = false)),
        if_neg (digit_ne hdigit (by decide : Char.isDigit '\x7b' = false)), hdigit, if_true, hread]
  | string s =>
    intro level fuel hfuel gap rest hgap _
    rw [List.append_assoc, readValue_append hgap]
    cases fuel with
    | zero => cases hfuel
    | succ fuel =>
      have hread := readString_print s rest
      simp only [print, printString, List.append_assoc, List.cons_append, List.nil_append]
      rw [readValue, skipSpace_cons rfl]
      simp only [if_true, hread, Option.map_some]
  | array items ih =>
    intro level fuel hfuel gap rest hgap _
    rw [List.append_assoc, readValue_append hgap]
    rw [print, printItems_eq] at hfuel ⊢
    cases fuel with
    | zero => exact absurd hfuel (Nat.not_le_of_gt (Nat.zero_lt_of_lt length_parts_lt))
    | succ fuel =>
      obtain ⟨tail, htail, hread⟩ := readContainer_print (.inl rfl) hfuel
        (fun v hv hlen => ih v hv (level + 1) fuel hlen) (fun v _ => opens_print (level + 1) v) rest
      rw [htail, List.cons_append, readValue, skipSpace_cons rfl]
      simp only [hread, Option.map_some]
      rfl
  | object members ih =>
    intro level fuel hfuel gap rest hgap _
    rw [List.append_assoc, readValue_append hgap]
    rw [print, printMembers_eq] at hfuel ⊢
    cases fuel with
    | zero => exact absurd hfuel (Nat.not_le_of_gt (Nat.zero_lt_of_lt length_parts_lt))
    | succ fuel =>
      obtain ⟨tail, htail, hread⟩ := readContainer_print (.inr rfl) hfuel
        (fun m hm hlen => readMember_print (ih m hm (level + 1) fuel
          ((length_value_le level m).trans hlen))) (fun m _ => ⟨'"', rfl, by decide⟩) rest
      rw [htail, List.cons_append, readValue, skipSpace_cons rfl]
      simp only [hread, Option.map_some]
      rfl

/-- A printed value with white space behind it is a text that spells the value. -/
theorem read_print (v : Value) {gap : List Char} (h : ∀ c ∈ gap, isSpace c = true) :
    read (String.ofList (print 0 v ++ gap)) = some v := by
  have hend : ∀ c ∈ gap.head?, c.isDigit = false := by
    intro c hc
    have hspace := h c (List.mem_of_mem_head? hc)
    by_contra hdigit
    rw [Bool.not_eq_false] at hdigit
    rw [isSpace_digit hdigit] at hspace
    cases hspace
  have hlen : (print 0 v).length ≤ (String.ofList (print 0 v ++ gap)).length := by
    rw [String.length_ofList, List.length_append]
    exact Nat.le_add_right _ _
  have hread := reads_print v 0 _ hlen [] gap (by simp) hend
  have hskip : skipSpace gap = [] := List.dropWhile_eq_nil_iff.mpr h
  rw [List.nil_append] at hread
  rw [read, String.toList_ofList, hread]
  simp only [Option.bind_eq_bind, Option.bind_some, hskip, if_true]

/-! ### What is printed is ASCII -/

def Ascii (cs : List Char) : Prop := ∀ c ∈ cs, c.toNat < 0x80

section Ascii

variable {cs cs₁ cs₂ : List Char}

theorem Ascii.append (h₁ : Ascii cs₁) (h₂ : Ascii cs₂) : Ascii (cs₁ ++ cs₂) :=
  List.forall_mem_append.mpr ⟨h₁, h₂⟩

theorem Ascii.cons {c : Char} (hc : c.toNat < 0x80) (h : Ascii cs) : Ascii (c :: cs) :=
  List.forall_mem_cons.mpr ⟨hc, h⟩

theorem Ascii.flatMap {α : Type} {xs : List α} {text : α → List Char}
    (h : ∀ x ∈ xs, Ascii (text x)) : Ascii (xs.flatMap text) := by
  intro c hc
  obtain ⟨x, hx, hc⟩ := List.mem_flatMap.mp hc
  exact h x hx c hc

theorem ascii_escapeUnit (n : ℕ) : Ascii (escapeUnit n) := by
  refine .cons (by decide) (.cons (by decide) fun c hc => ?_)
  obtain ⟨d, hd, rfl⟩ := exists_of_mem_hexDigits hc
  exact (by decide : ∀ d < 16, (Nat.digitChar d).toNat < 0x80) d hd

theorem ascii_escapeChar (c : Char) : Ascii (escapeChar c) := by
  unfold escapeChar
  split
  · next e hlookup =>
    obtain ⟨front, back, happend, -⟩ := List.lookup_eq_some_iff.mp hlookup
    have hmem : (c, e) ∈ escapes := happend ▸ List.mem_append_right _ List.mem_cons_self
    have hall : ∀ p ∈ escapes, p.2.toNat < 0x80 := by decide
    exact .cons (by decide) (List.forall_mem_singleton.mpr (hall _ hmem))
  · split_ifs with hprint
    · have hlt := (of_decide_eq_true hprint).2
      exact List.forall_mem_singleton.mpr (hlt.trans (by decide))
    · exact ascii_escapeUnit _
    · exact (ascii_escapeUnit _).append (ascii_escapeUnit _)

theorem ascii_printString (s : String) : Ascii (printString s) :=
  .cons (by decide) (.append (.flatMap fun c _ => ascii_escapeChar c)
    (List.forall_mem_singleton.mpr (by decide)))

theorem ascii_newline (level : ℕ) : Ascii (newline level) := by
  refine .cons (by decide) fun c hc => ?_
  rw [List.eq_of_mem_replicate hc]
  decide

theorem ascii_container {opening closing : Char} (hopening : opening.toNat < 0x80)
    (hclosing : closing.toNat < 0x80) (level : ℕ) {parts : List (List Char)}
    (h : ∀ part ∈ parts, Ascii part) : Ascii (container opening closing level parts) := by
  cases parts with
  | nil => exact .cons hopening (List.forall_mem_singleton.mpr hclosing)
  | cons part parts =>
    rw [List.forall_mem_cons] at h
    refine .cons hopening (.append (.append (.append ((ascii_newline _).append h.1) ?_)
      (ascii_newline level)) (List.forall_mem_singleton.mpr hclosing))
    exact .flatMap fun part hpart => .cons (by decide) ((ascii_newline _).append (h.2 part hpart))

theorem ascii_print (v : Value) : ∀ level, Ascii (print level v) := by
  induction v using Value.induction with
  | null =>
    intro level
    change Ascii ['n', 'u', 'l', 'l']
    simp [Ascii]
  | number n =>
    intro level c hc
    have hdigit := Char.isDigit_iff_toNat.mp (isDigit_of_mem_toString hc)
    exact lt_of_le_of_lt hdigit.2 (by decide)
  | string s => exact fun _ => ascii_printString s
  | array items ih =>
    intro level
    rw [print, printItems_eq]
    exact ascii_container (by decide) (by decide) level
      (List.forall_mem_map.mpr fun v hv => ih v hv (level + 1))
  | object members ih =>
    intro level
    rw [print, printMembers_eq]
    exact ascii_container (by decide) (by decide) level (List.forall_mem_map.mpr fun m hm =>
      (ascii_printString m.1).append (.cons (by decide) (.cons (by decide) (ih m hm (level + 1)))))

end Ascii

/-! ### Data as values -/

/-- A way to write data of a type as values from which it can be read again. -/
structure Codec (α : Type) where
  encode : α → Value
  decode : Value → Option α
  decode_encode : ∀ a, decode (encode a) = some a

namespace Codec

def number : Codec ℕ where
  encode := .number
  decode
    | .number n => some n
    | _ => none
  decode_encode _ := rfl

def string : Codec String where
  encode := .string
  decode
    | .string s => some s
    | _ => none
  decode_encode _ := rfl

/-- Data that may be absent, for data that is not itself written as `null`. -/
def optional {α : Type} (c : Codec α) (h : ∀ a, c.encode a ≠ .null) : Codec (Option α) where
  encode
    | none => .null
    | some a => c.encode a
  decode
    | .null => some none
    | v => (c.decode v).map some
  decode_encode a := by
    cases a with
    | none => rfl
    | some a =>
      have hdecode := c.decode_encode a
      cases hv : c.encode a with
      | null => exact absurd hv (h a)
      | _ => simp [hv ▸ hdecode, hv]

def list {α : Type} (c : Codec α) : Codec (List α) where
  encode xs := .array (xs.map c.encode)
  decode
    | .array vs => vs.mapM c.decode
    | _ => none
  decode_encode xs := by
    induction xs with
    | nil => rfl
    | cons x xs ih => simp_all [c.decode_encode]

/-- `v[key]` -/
def field {α : Type} (c : Codec α) (key : String) : Value → Option α
  | .object members => (members.lookup key).bind c.decode
  | _ => none

@[simp] theorem field_cons_self {α : Type} (c : Codec α) (key : String) (a : α)
    (members : List (String × Value)) :
    c.field key (.object ((key, c.encode a) :: members)) = some a := by
  rw [field, List.lookup_cons_self, Option.bind_some, c.decode_encode]

@[simp] theorem field_cons_ne {α : Type} (c : Codec α) {key k : String} (h : key ≠ k) (v : Value)
    (members : List (String × Value)) :
    c.field key (.object ((k, v) :: members)) = c.field key (.object members) := by
  rw [field, field, List.lookup_cons, beq_false_of_ne h]

end Codec

end Json
