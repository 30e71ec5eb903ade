import Mathlib.Tactic

/-!
# Device tree source text

The text of a source file as a list of lines that open a node, set a property
or close a node, and the text of property values: lists of string literals and
lists of cells. A reader turns lines into nodes and values into data. The rules
below say what the reader makes of text put together from parts, so that an
emitter is verified part by part.
-/

namespace Dts

/-! ### Lines -/

inductive Line where
  | text (s : String)
  | openNode (indent : ℕ) (label : Option String) (name : String)
  | prop (indent : ℕ) (name value : String)
  | close (indent : ℕ)
  deriving DecidableEq, Repr

namespace Line

def spaces (n : ℕ) : String := String.ofList (List.replicate n ' ')

def render : Line → String
  | text s => s
  | openNode indent none name => spaces indent ++ name ++ " \x7b"
  | openNode indent (some label) name => spaces indent ++ label ++ ": " ++ name ++ " \x7b"
  | prop indent name value => spaces indent ++ name ++ " = " ++ value ++ ";"
  | close indent => spaces indent ++ "\x7d;"

def props (indent : ℕ) (ps : List (String × String)) : List Line :=
  ps.map fun p => prop indent p.1 p.2

/-- The label the line defines. -/
def label? : Line → Option String
  | openNode _ label _ => label
  | _ => none

end Line

/-- The text of a file. -/
def fileText (lines : List Line) : String := "\n".intercalate (lines.map Line.render)

/-- The lines of a node with a given body. -/
def block (indent : ℕ) (label : Option String) (name : String) (body : List Line) : List Line :=
  .openNode indent label name :: (body ++ [.close indent])

/-- The labels a file defines, in order. -/
def definedLabels (lines : List Line) : List String := lines.filterMap Line.label?

section Labels

variable {lines₁ lines₂ : List Line}

@[simp] theorem definedLabels_nil : definedLabels [] = [] := rfl

@[simp] theorem definedLabels_append :
    definedLabels (lines₁ ++ lines₂) = definedLabels lines₁ ++ definedLabels lines₂ :=
  List.filterMap_append

@[simp] theorem definedLabels_text (s : String) (lines : List Line) :
    definedLabels (.text s :: lines) = definedLabels lines := rfl

@[simp] theorem definedLabels_props (indent : ℕ) (ps : List (String × String)) :
    definedLabels (Line.props indent ps) = [] := by
  rw [definedLabels, Line.props, List.filterMap_map]
  exact List.filterMap_eq_nil_iff.mpr fun _ _ => rfl

@[simp] theorem definedLabels_block (indent : ℕ) (label : Option String) (name : String)
    (body : List Line) :
    definedLabels (block indent label name body) = label.toList ++ definedLabels body := by
  have hclose : definedLabels [.close indent] = [] := rfl
  have hbody : definedLabels (body ++ [.close indent]) = definedLabels body := by
    rw [definedLabels_append, hclose, List.append_nil]
  cases label with
  | none => exact hbody
  | some l => exact congrArg (List.cons l) hbody

@[simp] theorem definedLabels_flatMap {α : Type} (xs : List α) (lines : α → List Line) :
    definedLabels (xs.flatMap lines) = xs.flatMap fun x => definedLabels (lines x) :=
  List.filterMap_flatMap

end Labels

/-! ### Nodes -/

inductive Node where
  | mk (label : Option String) (name : String) (props : List (String × String))
      (children : List Node)

namespace Node

def label : Node → Option String
  | mk label _ _ _ => label

def name : Node → String
  | mk _ name _ _ => name

def props : Node → List (String × String)
  | mk _ _ props _ => props

def children : Node → List Node
  | mk _ _ _ children => children

end Node

/-- Read one line; the stack holds the nodes that are open, innermost first. -/
def readLine : List Node → Line → Option (List Node)
  | stack, .text _ => some stack
  | .mk l n ps cs :: rest, .prop _ name value => some (.mk l n (ps ++ [(name, value)]) cs :: rest)
  | node :: rest, .openNode _ label name => some (.mk label name [] [] :: node :: rest)
  | node :: .mk l n ps cs :: rest, .close _ => some (.mk l n ps (cs ++ [node]) :: rest)
  | _, _ => none

/-- The nodes at the top of a file, or none if the lines are not balanced. -/
def readFile (lines : List Line) : Option (List Node) :=
  match lines.foldlM readLine [.mk none "" [] []] with
  | some [.mk _ _ [] nodes] => some nodes
  | _ => none

/-- The lines add these properties and these children to the node they stand in. -/
def Adds (lines : List Line) (props : List (String × String)) (children : List Node) : Prop :=
  ∀ l n ps cs rest, lines.foldlM readLine (.mk l n ps cs :: rest) =
    some (.mk l n (ps ++ props) (cs ++ children) :: rest)

theorem Adds.nil : Adds [] [] [] := by
  intro l n ps cs rest
  rw [List.append_nil, List.append_nil]
  rfl

theorem Adds.append {lines₁ lines₂ : List Line} {props₁ props₂ : List (String × String)}
    {children₁ children₂ : List Node} (h₁ : Adds lines₁ props₁ children₁)
    (h₂ : Adds lines₂ props₂ children₂) :
    Adds (lines₁ ++ lines₂) (props₁ ++ props₂) (children₁ ++ children₂) := by
  intro l n ps cs rest
  rw [List.foldlM_append, h₁]
  change lines₂.foldlM readLine _ = _
  rw [h₂, List.append_assoc, List.append_assoc]

theorem Adds.text (s : String) : Adds [.text s] [] [] := by
  intro l n ps cs rest
  rw [List.append_nil, List.append_nil]
  rfl

theorem Adds.text_cons {lines : List Line} {props : List (String × String)} {children : List Node}
    (s : String) (h : Adds lines props children) : Adds (.text s :: lines) props children :=
  (Adds.text s).append h

theorem Adds.prop (indent : ℕ) (name value : String) :
    Adds [.prop indent name value] [(name, value)] [] := by
  intro l n ps cs rest
  rw [List.append_nil]
  rfl

/-- A balanced body between the opening and the closing line is one child. -/
theorem Adds.block {body : List Line} {props : List (String × String)} {children : List Node}
    (h : Adds body props children) (indent : ℕ) (label : Option String) (name : String) :
    Adds (block indent label name body) [] [.mk label name props children] := by
  intro l n ps cs rest
  rw [Dts.block, List.foldlM_cons]
  change (body ++ [Line.close indent]).foldlM readLine
    (.mk label name [] [] :: .mk l n ps cs :: rest) = _
  rw [List.foldlM_append, h, List.append_nil]
  rfl

theorem Adds.props (indent : ℕ) (ps : List (String × String)) :
    Adds (Line.props indent ps) ps [] := by
  induction ps with
  | nil => exact Adds.nil
  | cons p ps ih => exact (Adds.prop indent p.1 p.2).append ih

/-- Lines added for the elements of a list one after the other. -/
theorem Adds.flatMap {α : Type} {xs : List α} {lines : α → List Line} {node : α → Node}
    (h : ∀ x ∈ xs, Adds (lines x) [] [node x]) : Adds (xs.flatMap lines) [] (xs.map node) := by
  induction xs with
  | nil => exact Adds.nil
  | cons x xs ih =>
    rw [List.forall_mem_cons] at h
    exact h.1.append (ih h.2)

theorem readFile_of_adds {lines : List Line} {nodes : List Node} (h : Adds lines [] nodes) :
    readFile lines = some nodes := by
  rw [readFile, h]
  rfl

/-! ### String lists -/

/-- A character that stands for itself inside a string literal. -/
def isPlain (c : Char) : Bool :=
  c != '"' && c != '\\' && decide (0x20 ≤ c.toNat ∧ ¬ (0x7f ≤ c.toNat ∧ c.toNat < 0xa0))

def isSpace (c : Char) : Bool := c == ' ' || c == '\n' || c == '\t'

/-- Where in a string list the reader is: before a literal, in one, or behind one. -/
inductive StringMode where
  | before
  | inside (cs : List Char)
  | behind
  deriving DecidableEq, Repr

def readStringChar : List String × StringMode → Char → Option (List String × StringMode)
  | (done, .before), c =>
    if isSpace c then some (done, .before)
    else if c = '"' then some (done, .inside [])
    else none
  | (done, .inside cs), c =>
    if c = '"' then some (done ++ [String.ofList cs], .behind)
    else if isPlain c then some (done, .inside (cs ++ [c]))
    else none
  | (done, .behind), c =>
    if isSpace c then some (done, .behind)
    else if c = ',' then some (done, .before)
    else none

/-- `"x", "y", ...` -/
def readStrings (value : String) : Option (List String) :=
  match value.toList.foldlM readStringChar ([], .before) with
  | some (xs, .behind) => some xs
  | _ => none

/-- One character of a string list whose literals are made of the characters `plain`. -/
def readListChar (plain : Char → Bool) :
    List String × StringMode → Char → Option (List String × StringMode)
  | (done, .before), c =>
    if isSpace c then some (done, .before)
    else if c = '"' then some (done, .inside [])
    else none
  | (done, .inside cs), c =>
    if c = '"' then some (done ++ [String.ofList cs], .behind)
    else if plain c then some (done, .inside (cs ++ [c]))
    else none
  | (done, .behind), c =>
    if isSpace c then some (done, .behind)
    else if c = ',' then some (done, .before)
    else none

theorem readStringChar_eq : readStringChar = readListChar isPlain := by
  funext s c
  obtain ⟨done, mode⟩ := s
  cases mode <;> rfl

/-- A character that neither ends a string literal nor starts an escape sequence. -/
def isLiteralChar (c : Char) : Bool := c != '"' && c != '\\'

/-- A string list without escape sequences. -/
def readLiterals (value : String) : Option (List String) :=
  match value.toList.foldlM (readListChar isLiteralChar) ([], .before) with
  | some (xs, .behind) => some xs
  | _ => none

/-- The characters are a string list for `xs`. -/
def Spells (cs : List Char) (xs : List String) : Prop :=
  ∀ done, cs.foldlM readStringChar (done, .before) = some (done ++ xs, .behind)

/-- The characters are a string list for `xs` with literals made of the characters `plain`. -/
def SpellsWith (plain : Char → Bool) (cs : List Char) (xs : List String) : Prop :=
  ∀ done, cs.foldlM (readListChar plain) (done, .before) = some (done ++ xs, .behind)

theorem spells_iff {cs : List Char} {xs : List String} :
    Spells cs xs ↔ SpellsWith isPlain cs xs := by
  rw [Spells, readStringChar_eq, SpellsWith]

def quote (s : String) : String := "\"" ++ s ++ "\""

theorem quote_toList (s : String) : (quote s).toList = '"' :: (s.toList ++ ['"']) := by
  rw [quote, String.toList_append, String.toList_append]
  rfl

section SpellsWith

variable {plain : Char → Bool}

theorem fold_inside (hquote : plain '"' = false) {cs : List Char}
    (h : ∀ c ∈ cs, plain c = true) (done : List String) (front : List Char) :
    cs.foldlM (readListChar plain) (done, .inside front) = some (done, .inside (front ++ cs)) := by
  induction cs generalizing front with
  | nil => rw [List.append_nil]; rfl
  | cons c cs ih =>
    rw [List.forall_mem_cons] at h
    have hc : c ≠ '"' := by
      rintro rfl
      exact Bool.false_ne_true (hquote.symm.trans h.1)
    rw [List.foldlM_cons]
    simp only [readListChar, if_neg hc, h.1, if_true]
    change cs.foldlM (readListChar plain) _ = _
    rw [ih h.2, List.append_assoc, List.singleton_append]

theorem SpellsWith.quote (hquote : plain '"' = false) {s : String}
    (h : ∀ c ∈ s.toList, plain c = true) : SpellsWith plain (quote s).toList [s] := by
  intro done
  rw [quote_toList, List.foldlM_cons]
  change (s.toList ++ ['"']).foldlM (readListChar plain) (done, .inside []) = _
  rw [List.foldlM_append, fold_inside hquote h, List.nil_append]
  change some (done ++ [String.ofList s.toList], StringMode.behind) = _
  rw [String.ofList_toList]

theorem fold_spaces {cs : List Char} (h : ∀ c ∈ cs, isSpace c = true) (done : List String) :
    cs.foldlM (readListChar plain) (done, .before) = some (done, .before) := by
  induction cs with
  | nil => rfl
  | cons c cs ih =>
    rw [List.forall_mem_cons] at h
    rw [List.foldlM_cons]
    simp only [readListChar, h.1, if_true]
    exact ih h.2

/-- Two lists with a comma and white space between them. -/
theorem SpellsWith.append {cs₁ cs₂ gap : List Char} {xs₁ xs₂ : List String}
    (h₁ : SpellsWith plain cs₁ xs₁) (hgap : ∀ c ∈ gap, isSpace c = true)
    (h₂ : SpellsWith plain cs₂ xs₂) : SpellsWith plain (cs₁ ++ ',' :: gap ++ cs₂) (xs₁ ++ xs₂) := by
  intro done
  rw [List.append_assoc, List.foldlM_append, h₁]
  change (gap ++ cs₂).foldlM (readListChar plain) (done ++ xs₁, .before) = _
  rw [List.foldlM_append, fold_spaces hgap]
  change cs₂.foldlM (readListChar plain) (done ++ xs₁, .before) = _
  rw [h₂, List.append_assoc]

/-- Several lists with the same comma and white space between them. -/
theorem SpellsWith.intercalate {sep : String} {gap : List Char} (hsep : sep.toList = ',' :: gap)
    (hgap : ∀ c ∈ gap, isSpace c = true) {α : Type} {row : α → String} {strings : α → List String}
    {xs : List α} (hne : xs ≠ []) (h : ∀ x ∈ xs, SpellsWith plain (row x).toList (strings x)) :
    SpellsWith plain (sep.intercalate (xs.map row)).toList (xs.flatMap strings) := by
  induction xs with
  | nil => exact absurd rfl hne
  | cons x xs ih =>
    rw [List.forall_mem_cons] at h
    cases xs with
    | nil => simpa using h.1
    | cons y xs =>
      have hrest := ih (List.cons_ne_nil y xs) h.2
      rw [List.map_cons, List.map_cons, String.intercalate_cons_cons, String.toList_append,
        String.toList_append, hsep, List.flatMap_cons]
      exact h.1.append hgap hrest

theorem readLiterals_of_spells {value : String} {xs : List String}
    (h : SpellsWith isLiteralChar value.toList xs) : readLiterals value = some xs := by
  rw [readLiterals, h]
  rfl

end SpellsWith

theorem Spells.quote {s : String} (h : ∀ c ∈ s.toList, isPlain c = true) :
    Spells (quote s).toList [s] :=
  spells_iff.mpr (SpellsWith.quote (by decide) h)

theorem readStrings_of_spells {value : String} {xs : List String} (h : Spells value.toList xs) :
    readStrings value = some xs := by
  rw [readStrings, h]
  rfl

/-! ### Cells -/

/-- A decimal number; a leading zero would make it octal. -/
def cell? (cs : List Char) : Option ℕ :=
  if cs.all Char.isDigit && (cs == ['0'] || cs.head? != some '0') then
    some (Nat.ofDigitChars 10 cs 0)
  else none

/-- `<1 2 ...>` -/
def readCells (value : String) : Option (List ℕ) :=
  match value.toList with
  | '<' :: rest =>
    if rest.getLast? = some '>' then ((rest.dropLast.splitOn ' ').filter (· != [])).mapM cell?
    else none
  | _ => none

/-- `<&label>` -/
def readReference (value : String) : Option String :=
  match value.toList with
  | '<' :: '&' :: rest =>
    if rest.getLast? = some '>' then some (String.ofList rest.dropLast) else none
  | _ => none

theorem readReference_label (label : String) :
    readReference ("<&" ++ label ++ ">") = some label := by
  have hchars : ("<&" ++ label ++ ">").toList = '<' :: '&' :: (label.toList ++ ['>']) := by
    rw [String.toList_append, String.toList_append]
    rfl
  simp only [readReference, hchars, List.getLast?_concat, if_true, List.dropLast_concat,
    String.ofList_toList]

theorem toDigits_head {n : ℕ} (h : n ≠ 0) : (Nat.toDigits 10 n).head? ≠ some '0' := by
  induction n using Nat.base_induction 10 (by decide) with
  | single m hm =>
    rw [Nat.toDigits_of_lt_base hm, List.head?_cons]
    intro heq
    interval_cases m <;> revert heq <;> simp_all
  | digit m k hk hm ih =>
    rw [← Nat.toDigits_append_toDigits (by decide) hm hk,
      List.head?_append_of_ne_nil _ Nat.toDigits_ne_nil]
    exact ih (by omega)

theorem cell?_toDigits (n : ℕ) : cell? (Nat.toDigits 10 n) = some n := by
  have hdigits : (Nat.toDigits 10 n).all Char.isDigit = true :=
    List.all_eq_true.mpr fun c hc => Nat.isDigit_of_mem_toDigits (by decide) (by decide) hc
  have hoctal : (Nat.toDigits 10 n == ['0'] || (Nat.toDigits 10 n).head? != some '0') = true := by
    by_cases hn : n = 0
    · rw [hn]
      rfl
    · rw [bne_iff_ne.mpr (toDigits_head hn), Bool.or_true]
  rw [cell?, hdigits, hoctal, Bool.and_self, if_pos rfl, Nat.ofDigitChars_ten_toDigits]

theorem readCells_toString {xs : List ℕ} (hne : xs ≠ []) :
    readCells ("<" ++ " ".intercalate (xs.map toString) ++ ">") = some xs := by
  have hchars : ("<" ++ " ".intercalate (xs.map toString) ++ ">").toList =
      '<' :: ([' '].intercalate (xs.map (Nat.toDigits 10)) ++ ['>']) := by
    have hdigits : (String.toList ∘ toString : ℕ → List Char) = Nat.toDigits 10 :=
      funext fun n => by rw [Function.comp, Nat.toString_eq_repr, Nat.toList_repr]
    rw [String.toList_append, String.toList_append, String.toList_intercalate, List.map_map,
      hdigits]
    rfl
  have hsplit : ([' '].intercalate (xs.map (Nat.toDigits 10))).splitOn ' ' =
      xs.map (Nat.toDigits 10) := by
    refine List.splitOn_intercalate ' ' (fun l hl => ?_) (by simpa using hne)
    obtain ⟨n, -, rfl⟩ := List.mem_map.mp hl
    intro hspace
    exact absurd (Nat.isDigit_of_mem_toDigits (by decide) (by decide) hspace) (by decide)
  have hfilter : (xs.map (Nat.toDigits 10)).filter (· != []) = xs.map (Nat.toDigits 10) := by
    refine List.filter_eq_self.mpr fun l hl => ?_
    obtain ⟨n, -, rfl⟩ := List.mem_map.mp hl
    exact bne_iff_ne.mpr Nat.toDigits_ne_nil
  have hcells : ∀ ys : List ℕ, (ys.map (Nat.toDigits 10)).mapM cell? = some ys := by
    intro ys
    induction ys with
    | nil => rfl
    | cons y ys ih =>
      rw [List.map_cons, List.mapM_cons, cell?_toDigits, ih]
      rfl
  simp only [readCells, hchars, List.getLast?_concat, if_true, List.dropLast_concat, hsplit,
    hfilter, hcells]

end Dts
