import AximuxSystem.Foundation.DtsSource

/-!
# Reading device tree source with nested nodes

A scanner that cuts the text of a file into the lines that open a node, set a
property or close a node, whatever the layout is. Property values are kept as
text, string literals in them may hold any mark. A file whose lines are sound is
read from its text exactly as it is read line by line.
-/

namespace Dts

open Text

/-! ### Names -/

def isNodeChar (c : Char) : Bool := isWordChar c || [',', '.', '+', '-', '@'].contains c

def isPropChar (c : Char) : Bool := isWordChar c || [',', '.', '+', '-', '?', '#'].contains c

/-- The name of a node, or a reference to a labelled one. -/
def isNodeName (s : String) : Bool :=
  match s.toList with
  | '&' :: label => isLabel (String.ofList label)
  | cs => !cs.isEmpty && cs.all isNodeChar

def isPropName (s : String) : Bool := !s.toList.isEmpty && s.toList.all isPropChar

/-- A character between a statement's start and the mark that shows what it is. -/
def isHeadChar (c : Char) : Bool :=
  isNodeChar c || isPropChar c || isSpace c || c == '&' || c == ':'

/-- A character of a value outside of string literals. -/
def isValueChar (c : Char) : Bool :=
  isWordChar c || isSpace c || [',', '-', '<', '>', '&'].contains c

/-! ### The scanner -/

def trimEnd (cs : List Char) : List Char := (cs.reverse.dropWhile isSpace).reverse

/-- `label: name` or `name` -/
def nodeHead (cs : List Char) : Option Line :=
  match cs.dropWhile (· != ':') with
  | [] => if isNodeName (String.ofList cs) then some (.openNode 0 none (String.ofList cs)) else none
  | _ :: rest =>
    let label := String.ofList (cs.takeWhile (· != ':'))
    let name := String.ofList (rest.dropWhile isSpace)
    if isLabel label ∧ isNodeName name then some (.openNode 0 (some label) name) else none

/-- One character of a value, inside or outside of a string literal. -/
def valueStep (inside : Bool) (c : Char) : Option Bool :=
  if c = '"' then some !inside
  else if (if inside then isPlain c else isValueChar c) then some inside
  else none

/-- What the scanner is in the middle of. -/
inductive TreeMode where
  | between
  | slash
  | comment
  | star
  | head (cs : List Char)
  | value (name : String) (cs : List Char) (inside : Bool)
  | closing
  deriving DecidableEq, Repr

abbrev TreeState := List Line × TreeMode

def treeChar : TreeState → Char → Option TreeState
  | (ls, .between), c =>
    if isSpace c then some (ls, .between)
    else if c = '/' then some (ls, .slash)
    else if c = '\x7d' then some (ls, .closing)
    else if isHeadChar c then some (ls, .head [c])
    else none
  | (ls, .slash), c => if c = '*' then some (ls, .comment) else none
  | (ls, .comment), c => some (ls, if c = '*' then .star else .comment)
  | (ls, .star), c => some (ls, if c = '/' then .between else if c = '*' then .star else .comment)
  | (ls, .head cs), c =>
    if c = '\x7b' then (nodeHead (trimEnd cs)).map fun l => (ls ++ [l], .between)
    else if c = '=' then
      let name := String.ofList (trimEnd cs)
      if isPropName name then some (ls, .value name [] false) else none
    else if isHeadChar c then some (ls, .head (cs ++ [c]))
    else none
  | (ls, .value name cs inside), c =>
    if inside = false ∧ c = ';' then some (ls ++ [.prop 0 name (String.ofList cs)], .between)
    else if cs = [] ∧ isSpace c then some (ls, .value name [] inside)
    else (valueStep inside c).map fun inside => (ls, .value name (cs ++ [c]) inside)
  | (ls, .closing), c =>
    if isSpace c then some (ls, .closing)
    else if c = ';' then some (ls ++ [.close 0], .between)
    else none

/-- The nodes of a source file. -/
def readTree (text : String) : Option (List Node) :=
  match text.toList.foldlM treeChar ([], .between) with
  | some (ls, .between) => readFile ls
  | _ => none

/-! ### Sound lines -/

/-- The text of a value: it starts with no white space, and its string literals are complete. -/
structure IsValue (cs : List Char) : Prop where
  start : ∃ c ∈ cs.head?, isSpace c = false
  closed : cs.foldlM valueStep false = some false

/-- The line can be told apart in a text. -/
def Line.Sound : Line → Prop
  | .text s => s = "" ∨ ∃ cs : List Char, s = "/*" ++ String.ofList cs ++ "*/" ∧ ∀ c ∈ cs, c ≠ '*'
  | .openNode _ label name => (∀ l ∈ label, isLabel l = true) ∧ isNodeName name = true
  | .prop _ name value => isPropName name = true ∧ IsValue value.toList
  | .close _ => True

/-- What the scanner makes of a line. -/
def Line.scanned : Line → List Line
  | .text _ => []
  | .openNode _ label name => [.openNode 0 label name]
  | .prop _ name value => [.prop 0 name value]
  | .close _ => [.close 0]

/-- Between statements, the characters are scanned as these lines. -/
def Cuts (cs : List Char) (ls : List Line) : Prop :=
  ∀ done, cs.foldlM treeChar (done, .between) = some (done ++ ls, .between)

/-! ### Characters of names -/

theorem isSpace_of_headChar {c : Char} (h : isNodeChar c = true ∨ isPropChar c = true ∨ c = '&') :
    isSpace c = false := by
  by_contra hspace
  rw [Bool.not_eq_false, isSpace, Bool.or_eq_true, Bool.or_eq_true, beq_iff_eq, beq_iff_eq,
    beq_iff_eq] at hspace
  rcases hspace with (rfl | rfl) | rfl <;> exact absurd h (by decide)

theorem isNodeChar_of_isWordChar {c : Char} (h : isWordChar c = true) : isNodeChar c = true := by
  rw [isNodeChar, h, Bool.true_or]

theorem isLabel_chars {s : String} (h : isLabel s = true) :
    s.toList ≠ [] ∧ ∀ c ∈ s.toList, isWordChar c = true := by
  obtain ⟨hall, hhead⟩ := Bool.and_eq_true_iff.mp h
  refine ⟨?_, List.all_eq_true.mp hall⟩
  intro hnil
  rw [hnil] at hhead
  cases hhead

theorem isNodeName_reference (label : String) : isNodeName ("&" ++ label) = isLabel label := by
  rw [isNodeName, String.toList_append]
  change isLabel (String.ofList label.toList) = isLabel label
  rw [String.ofList_toList]

theorem isNodeName_chars {s : String} (h : isNodeName s = true) :
    s.toList ≠ [] ∧ ∀ c ∈ s.toList, isNodeChar c = true ∨ c = '&' := by
  unfold isNodeName at h
  split at h
  · next label heq =>
    rw [heq]
    refine ⟨List.cons_ne_nil _ _, List.forall_mem_cons.mpr ⟨.inr rfl, fun c hc => .inl ?_⟩⟩
    rw [← String.toList_ofList (l := label)] at hc
    exact isNodeChar_of_isWordChar ((isLabel_chars h).2 c hc)
  · obtain ⟨hne, hall⟩ := Bool.and_eq_true_iff.mp h
    refine ⟨by simpa using hne, fun c hc => .inl (List.all_eq_true.mp hall c hc)⟩

/-- Text of a head: characters of heads, with no white space at its ends. -/
structure IsHead (cs : List Char) : Prop where
  chars : ∀ c ∈ cs, isHeadChar c = true
  start : ∃ c ∈ cs.head?, isSpace c = false
  final : ∃ c ∈ cs.getLast?, isSpace c = false

/-- A text without white space. -/
theorem IsHead.of_chars {cs : List Char} (hne : cs ≠ [])
    (h : ∀ c ∈ cs, isNodeChar c = true ∨ isPropChar c = true ∨ c = '&') : IsHead cs where
  chars c hc := by
    rcases h c hc with hc | hc | rfl
    · simp [isHeadChar, hc]
    · simp [isHeadChar, hc]
    · rfl
  start := ⟨cs.head hne, List.head?_eq_some_head hne, isSpace_of_headChar (h _ (List.head_mem hne))⟩
  final := ⟨cs.getLast hne, List.getLast?_eq_some_getLast hne,
    isSpace_of_headChar (h _ (List.getLast_mem hne))⟩

theorem trimEnd_append {cs : List Char} (h : ∃ c ∈ cs.getLast?, isSpace c = false) :
    trimEnd (cs ++ [' ']) = cs := by
  obtain ⟨c, hc, hspace⟩ := h
  obtain ⟨front, rfl⟩ := List.getLast?_eq_some_iff.mp hc
  have hblank : isSpace ' ' = true := rfl
  simp [trimEnd, hblank, hspace]

namespace Cuts

variable {cs cs₁ cs₂ : List Char} {ls ls₁ ls₂ : List Line}

theorem append (h₁ : Cuts cs₁ ls₁) (h₂ : Cuts cs₂ ls₂) : Cuts (cs₁ ++ cs₂) (ls₁ ++ ls₂) := by
  intro done
  rw [List.foldlM_append, h₁]
  change cs₂.foldlM treeChar (done ++ ls₁, .between) = _
  rw [h₂, List.append_assoc]

theorem spaces (h : ∀ c ∈ cs, isSpace c = true) : Cuts cs [] := by
  induction cs with
  | nil =>
    intro done
    rw [List.append_nil]
    rfl
  | cons c cs ih =>
    rw [List.forall_mem_cons] at h
    intro done
    rw [List.foldlM_cons]
    simp only [treeChar, h.1, if_true]
    exact ih h.2 done

theorem fold_comment (h : ∀ c ∈ cs, c ≠ '*') (done : List Line) :
    cs.foldlM treeChar (done, .comment) = some (done, .comment) := by
  induction cs with
  | nil => rfl
  | cons c cs ih =>
    rw [List.forall_mem_cons] at h
    rw [List.foldlM_cons]
    simp only [treeChar, if_neg h.1]
    exact ih h.2

theorem comment (h : ∀ c ∈ cs, c ≠ '*') : Cuts ('/' :: '*' :: (cs ++ ['*', '/'])) [] := by
  intro done
  rw [List.append_nil]
  change (cs ++ ['*', '/']).foldlM treeChar (done, .comment) = _
  rw [List.foldlM_append, fold_comment h]
  rfl

theorem headChar_ne {c d : Char} (h : isHeadChar c = true) (hd : isHeadChar d = false) : c ≠ d := by
  rintro rfl
  exact Bool.false_ne_true (hd.symm.trans h)

theorem fold_head (h : ∀ c ∈ cs, isHeadChar c = true) (done : List Line) (front : List Char) :
    cs.foldlM treeChar (done, .head front) = some (done, .head (front ++ cs)) := by
  induction cs generalizing front with
  | nil => rw [List.append_nil]; rfl
  | cons c cs ih =>
    rw [List.forall_mem_cons] at h
    rw [List.foldlM_cons]
    simp only [treeChar, if_neg (headChar_ne h.1 (by decide : isHeadChar '\x7b' = false)),
      if_neg (headChar_ne h.1 (by decide : isHeadChar '=' = false)), h.1, if_true]
    change cs.foldlM treeChar _ = _
    rw [ih h.2, List.append_assoc, List.singleton_append]

/-- The head of a statement up to the space behind it. -/
theorem fold_start (h : IsHead cs) (done : List Line) :
    (cs ++ [' ']).foldlM treeChar (done, .between) = some (done, .head (cs ++ [' '])) := by
  obtain ⟨c, hc, hspace⟩ := h.start
  obtain ⟨rest, rfl⟩ := List.head?_eq_some_iff.mp hc
  have hchars := List.forall_mem_cons.mp h.chars
  have hstart : treeChar (done, .between) c = some (done, .head [c]) := by
    simp only [treeChar, hspace, Bool.false_eq_true, if_false,
      if_neg (headChar_ne hchars.1 (by decide : isHeadChar '/' = false)),
      if_neg (headChar_ne hchars.1 (by decide : isHeadChar '\x7d' = false)), hchars.1, if_true]
  rw [List.cons_append, List.foldlM_cons, hstart]
  change (rest ++ [' ']).foldlM treeChar (done, .head [c]) = _
  rw [fold_head (List.forall_mem_append.mpr ⟨hchars.2, List.forall_mem_singleton.mpr rfl⟩)]
  rfl

theorem newline : Cuts ['\n'] [] := spaces (List.forall_mem_singleton.mpr rfl)

theorem indentation (indent : ℕ) : Cuts (Line.spaces indent).toList [] := spaces fun c hc => by
  rw [Line.spaces, String.toList_ofList] at hc
  rw [List.eq_of_mem_replicate hc]
  rfl

/-- A head with a brace behind it opens the node that the head describes. -/
theorem opening (h : IsHead cs) {l : Line} (hl : nodeHead cs = some l) :
    Cuts (cs ++ [' ', '\x7b']) [l] := by
  intro done
  rw [show cs ++ [' ', '\x7b'] = (cs ++ [' ']) ++ ['\x7b'] by simp, List.foldlM_append,
    fold_start h]
  change (nodeHead (trimEnd (cs ++ [' ']))).map _ >>= _ = _
  rw [trimEnd_append h.final, hl]
  rfl

theorem nodeHead_name {name : String} (h : isNodeName name = true) :
    nodeHead name.toList = some (.openNode 0 none name) := by
  have hchars := (isNodeName_chars h).2
  have hcolon : name.toList.dropWhile (· != ':') = [] := by
    rw [List.dropWhile_eq_nil_iff]
    intro c hc
    rw [bne_iff_ne]
    rintro rfl
    rcases hchars _ hc with hc | hc
    · exact absurd hc (by decide)
    · cases hc
  rw [nodeHead, hcolon]
  simp only [String.ofList_toList, h, if_true]

theorem nodeHead_label {label name : String} (hlabel : isLabel label = true)
    (h : isNodeName name = true) :
    nodeHead (label.toList ++ ':' :: ' ' :: name.toList) =
      some (.openNode 0 (some label) name) := by
  have hcolon : ∀ c ∈ label.toList, (c != ':') = true := by
    intro c hc
    rw [bne_iff_ne]
    rintro rfl
    exact absurd ((isLabel_chars hlabel).2 _ hc) (by decide)
  have hname : (' ' :: name.toList).dropWhile isSpace = name.toList := by
    obtain ⟨hne, hchars⟩ := isNodeName_chars h
    obtain ⟨c, cs, hcs⟩ := List.exists_cons_of_ne_nil hne
    have hspace := isSpace_of_headChar ((hchars c (hcs ▸ List.mem_cons_self)).imp_right .inr)
    have hblank : isSpace ' ' = true := rfl
    rw [hcs]
    simp [hblank, hspace]
  rw [nodeHead, List.dropWhile_append_of_pos hcolon, List.takeWhile_append_of_pos hcolon]
  simp only [List.dropWhile_cons, List.takeWhile_cons, bne_self_eq_false, Bool.false_eq_true,
    if_false, List.append_nil, String.ofList_toList]
  rw [← List.dropWhile_cons, hname, String.ofList_toList]
  simp only [hlabel, h, and_self, if_true]

theorem isHead_label {label : String} (hlabel : isLabel label = true) (h : IsHead cs) :
    IsHead (label.toList ++ ':' :: ' ' :: cs) where
  chars := by
    refine List.forall_mem_append.mpr ⟨fun c hc => ?_, ?_⟩
    · rw [isHeadChar, isNodeChar_of_isWordChar ((isLabel_chars hlabel).2 c hc)]
      rfl
    · exact List.forall_mem_cons.mpr ⟨by decide, List.forall_mem_cons.mpr ⟨by decide, h.chars⟩⟩
  start := by
    obtain ⟨hne, hchars⟩ := isLabel_chars hlabel
    obtain ⟨c, rest, hcs⟩ := List.exists_cons_of_ne_nil hne
    have hword := hchars c (hcs ▸ List.mem_cons_self)
    rw [hcs]
    exact ⟨c, rfl, isSpace_of_headChar (.inl (isNodeChar_of_isWordChar hword))⟩
  final := by
    obtain ⟨c, hc, hspace⟩ := h.final
    obtain ⟨front, rfl⟩ := List.getLast?_eq_some_iff.mp hc
    have hlast : label.toList ++ ':' :: ' ' :: (front ++ [c]) =
        (label.toList ++ ':' :: ' ' :: front) ++ [c] := by simp
    exact ⟨c, by rw [hlast]; exact List.getLast?_concat, hspace⟩

theorem openNode {indent : ℕ} {label : Option String} {name : String}
    (h : (Line.openNode indent label name).Sound) :
    Cuts (Line.openNode indent label name).chars [.openNode 0 label name] := by
  obtain ⟨hlabel, hname⟩ := h
  obtain ⟨hne, hchars⟩ := isNodeName_chars hname
  have hhead : IsHead name.toList := IsHead.of_chars hne fun c hc => (hchars c hc).imp_right .inr
  cases label with
  | none =>
    have hline : (Line.openNode indent none name).chars =
        (Line.spaces indent).toList ++ (name.toList ++ [' ', '\x7b']) ++ ['\n'] := by
      simp [Line.chars, Line.render]
    rw [hline]
    exact ((indentation indent).append (opening hhead (nodeHead_name hname))).append newline
  | some label =>
    have hlabel : isLabel label = true := hlabel label rfl
    have hline : (Line.openNode indent (some label) name).chars = (Line.spaces indent).toList ++
        ((label.toList ++ ':' :: ' ' :: name.toList) ++ [' ', '\x7b']) ++ ['\n'] := by
      simp [Line.chars, Line.render]
    rw [hline]
    exact ((indentation indent).append
      (opening (isHead_label hlabel hhead) (nodeHead_label hlabel hname))).append newline

/-- A character of a value that neither ends it nor is leading white space. -/
theorem treeChar_value {name : String} {front : List Char} {inside inside' : Bool} {c : Char}
    (hstep : valueStep inside c = some inside') (hfront : front = [] → isSpace c = false)
    (done : List Line) : treeChar (done, .value name front inside) c =
      some (done, .value name (front ++ [c]) inside') := by
  have hend : ¬ (inside = false ∧ c = ';') := by
    rintro ⟨rfl, rfl⟩
    cases hstep
  have hlead : ¬ (front = [] ∧ isSpace c = true) := by
    rintro ⟨hnil, hspace⟩
    exact Bool.false_ne_true ((hfront hnil).symm.trans hspace)
  simp only [treeChar, if_neg hend, if_neg hlead, hstep, Option.map_some]

theorem fold_value {name : String} {front : List Char} {inside inside' : Bool}
    (h : cs.foldlM valueStep inside = some inside') (hfront : front ≠ []) (done : List Line) :
    cs.foldlM treeChar (done, .value name front inside) =
      some (done, .value name (front ++ cs) inside') := by
  induction cs generalizing front inside with
  | nil =>
    cases h
    rw [List.append_nil]
    rfl
  | cons c cs ih =>
    rw [List.foldlM_cons] at h
    obtain ⟨inside₁, hstep, hrest⟩ := Option.bind_eq_some_iff.mp h
    rw [List.foldlM_cons, treeChar_value hstep (fun hnil => absurd hnil hfront)]
    change cs.foldlM treeChar _ = _
    rw [ih hrest (by simp), List.append_assoc, List.singleton_append]

theorem prop {indent : ℕ} {name value : String} (h : (Line.prop indent name value).Sound) :
    Cuts (Line.prop indent name value).chars [.prop 0 name value] := by
  obtain ⟨hname, ⟨c, hc, hspace⟩, hclosed⟩ := h
  obtain ⟨rest, hvalue⟩ := List.head?_eq_some_iff.mp hc
  obtain ⟨hne, hchars⟩ := Bool.and_eq_true_iff.mp hname
  have hhead : IsHead name.toList := IsHead.of_chars (by simpa using hne) fun c hc =>
    .inr (.inl (List.all_eq_true.mp hchars c hc))
  rw [hvalue, List.foldlM_cons] at hclosed
  obtain ⟨inside, hstep, hrest⟩ := Option.bind_eq_some_iff.mp hclosed
  have hbody : Cuts (name.toList ++ [' '] ++ '=' :: ' ' :: c :: (rest ++ [';']))
      [.prop 0 name value] := by
    intro done
    have hequals : treeChar (done, .head (name.toList ++ [' '])) '=' =
        some (done, .value name [] false) := by
      simp [treeChar, trimEnd_append hhead.final, hname]
    have hgap : treeChar (done, .value name [] false) ' ' = some (done, .value name [] false) := rfl
    simp only [List.foldlM_append, List.foldlM_cons, fold_start hhead, hequals, hgap,
      treeChar_value hstep (fun _ => hspace), Option.bind_eq_bind, Option.bind_some]
    rw [fold_value hrest (by simp)]
    change some (done ++ [.prop 0 name (String.ofList (c :: rest))], TreeMode.between) = _
    rw [← hvalue, String.ofList_toList]
  have hline : (Line.prop indent name value).chars = (Line.spaces indent).toList ++
      (name.toList ++ [' '] ++ '=' :: ' ' :: c :: (rest ++ [';'])) ++ ['\n'] := by
    simp [Line.chars, Line.render, hvalue]
  rw [hline]
  exact ((indentation indent).append hbody).append newline

theorem close (indent : ℕ) : Cuts (Line.close indent).chars [.close 0] := by
  have hbrace : Cuts ['\x7d', ';'] [.close 0] := fun done => rfl
  have hline : (Line.close indent).chars =
      (Line.spaces indent).toList ++ ['\x7d', ';'] ++ ['\n'] := by
    simp [Line.chars, Line.render]
  rw [hline]
  exact ((indentation indent).append hbrace).append newline

theorem line {l : Line} (h : l.Sound) : Cuts l.chars l.scanned := by
  cases l with
  | text s =>
    rcases h with rfl | ⟨cs, rfl, hcs⟩
    · exact newline
    · have hline : (Line.text ("/*" ++ String.ofList cs ++ "*/")).chars =
          '/' :: '*' :: (cs ++ ['*', '/']) ++ ['\n'] := by
        simp [Line.chars, Line.render]
      rw [hline]
      exact (comment hcs).append newline
  | openNode indent label name => exact openNode h
  | prop indent name value => exact prop h
  | close indent => exact close indent

theorem lines {ls : List Line} (h : ∀ l ∈ ls, l.Sound) :
    Cuts (ls.flatMap Line.chars) (ls.flatMap Line.scanned) := by
  induction ls with
  | nil => exact spaces (by simp)
  | cons l ls ih =>
    rw [List.forall_mem_cons] at h
    exact (line h.1).append (ih h.2)

end Cuts

/-! ### Sound lines from parts -/

theorem isLabel_append {s t : String} (hs : isLabel s = true)
    (ht : ∀ c ∈ t.toList, isWordChar c = true) : isLabel (s ++ t) = true := by
  obtain ⟨hall, hhead⟩ := Bool.and_eq_true_iff.mp hs
  obtain ⟨hne, -⟩ := isLabel_chars hs
  rw [isLabel, String.toList_append, List.all_append, hall, List.all_eq_true.mpr ht,
    List.head?_append_of_ne_nil _ hne, hhead]
  rfl

theorem isNodeName_of_chars {s : String} (hne : s.toList ≠ [])
    (h : ∀ c ∈ s.toList, isNodeChar c = true) : isNodeName s = true := by
  unfold isNodeName
  split
  · next label heq =>
    exact absurd (h '&' (heq ▸ List.mem_cons_self)) (by decide)
  · rw [List.all_eq_true.mpr h, Bool.and_true]
    simpa using hne

theorem isValue_of_chars {cs : List Char} (hstart : ∃ c ∈ cs.head?, isSpace c = false)
    (h : ∀ c ∈ cs, isValueChar c = true) : IsValue cs where
  start := hstart
  closed := by
    clear hstart
    induction cs with
    | nil => rfl
    | cons c cs ih =>
      rw [List.forall_mem_cons] at h
      have hquote : c ≠ '"' := by
        rintro rfl
        exact absurd h.1 (by decide)
      rw [List.foldlM_cons]
      simp only [valueStep, if_neg hquote, h.1, Bool.false_eq_true, if_false, if_true]
      exact ih h.2

/-- Whether the reader of string lists is in a literal. -/
def StringMode.isInside : StringMode → Bool
  | inside _ => true
  | _ => false

theorem valueStep_of_string {xs xs' : List String} {m m' : StringMode} {c : Char}
    (h : readStringChar (xs, m) c = some (xs', m')) :
    valueStep m.isInside c = some m'.isInside := by
  have hspace (hc : isSpace c = true) : c ≠ '"' ∧ isValueChar c = true := by
    refine ⟨?_, by simp [isValueChar, hc]⟩
    rintro rfl
    cases hc
  cases m with
  | before =>
    simp only [readStringChar] at h
    split_ifs at h with hc hquote
    · cases h
      simp [valueStep, StringMode.isInside, hspace hc]
    · cases h
      subst c
      rfl
  | inside cs =>
    simp only [readStringChar] at h
    split_ifs at h with hquote hplain
    · cases h
      subst c
      rfl
    · cases h
      simp [valueStep, StringMode.isInside, hquote, hplain]
  | behind =>
    simp only [readStringChar] at h
    split_ifs at h with hc hcomma
    · cases h
      simp [valueStep, StringMode.isInside, hspace hc]
    · cases h
      subst c
      rfl

/-- The text of a string list is the text of a value. -/
theorem isValue_of_spells {cs : List Char} {xs : List String} (h : Spells cs xs)
    (hstart : cs.head? = some '"') : IsValue cs where
  start := ⟨'"', hstart, rfl⟩
  closed := by
    have hfold {ys ys' : List String} {m m' : StringMode} {ds : List Char}
        (hd : ds.foldlM readStringChar (ys, m) = some (ys', m')) :
        ds.foldlM valueStep m.isInside = some m'.isInside := by
      induction ds generalizing ys m with
      | nil => cases hd; rfl
      | cons d ds ih =>
        rw [List.foldlM_cons] at hd
        obtain ⟨⟨ys₁, m₁⟩, hstep, hrest⟩ := Option.bind_eq_some_iff.mp hd
        rw [List.foldlM_cons, valueStep_of_string hstep]
        exact ih hrest
    exact hfold (h [])

theorem sound_comment (body : String) (h : body.toList.all (· != '*') = true) :
    (Line.text ("/*" ++ body ++ "*/")).Sound := by
  refine .inr ⟨body.toList, by rw [String.ofList_toList], fun c hc => ?_⟩
  exact bne_iff_ne.mp (List.all_eq_true.mp h c hc)

theorem sound_flatMap {α : Type} {xs : List α} {lines : α → List Line}
    (h : ∀ x ∈ xs, ∀ l ∈ lines x, l.Sound) : ∀ l ∈ xs.flatMap lines, l.Sound := by
  intro l hl
  obtain ⟨x, hx, hl⟩ := List.mem_flatMap.mp hl
  exact h x hx l hl

theorem sound_props {ps : List (String × String)}
    (h : ∀ p ∈ ps, isPropName p.1 = true ∧ IsValue p.2.toList) (indent : ℕ) :
    ∀ l ∈ Line.props indent ps, l.Sound :=
  List.forall_mem_map.mpr h

theorem sound_block {body : List Line} (hbody : ∀ l ∈ body, l.Sound) {label : Option String}
    {name : String} (hlabel : ∀ l ∈ label, isLabel l = true) (hname : isNodeName name = true)
    (indent : ℕ) : ∀ l ∈ block indent label name body, l.Sound :=
  List.forall_mem_cons.mpr ⟨⟨hlabel, hname⟩,
    List.forall_mem_append.mpr ⟨hbody, List.forall_mem_singleton.mpr trivial⟩⟩

/-! ### Reading the text of lines -/

theorem readLine_scanned (l : Line) (stack : List Node) :
    l.scanned.foldlM readLine stack = readLine stack l := by
  cases l with
  | text s =>
    cases stack with
    | nil => rfl
    | cons node rest => cases node; rfl
  | openNode indent label name =>
    cases stack with
    | nil => rfl
    | cons node rest => cases node; rfl
  | prop indent name value =>
    cases stack with
    | nil => rfl
    | cons node rest => cases node; rfl
  | close indent =>
    cases stack with
    | nil => rfl
    | cons node rest =>
      cases node
      cases rest with
      | nil => rfl
      | cons parent rest => cases parent; rfl

theorem readFile_scanned (ls : List Line) : readFile (ls.flatMap Line.scanned) = readFile ls := by
  have hfold (stack : List Node) :
      (ls.flatMap Line.scanned).foldlM readLine stack = ls.foldlM readLine stack := by
    induction ls generalizing stack with
    | nil => rfl
    | cons l ls ih =>
      rw [List.flatMap_cons, List.foldlM_append, readLine_scanned, List.foldlM_cons]
      exact congrArg _ (funext ih)
  rw [readFile, readFile, hfold]

/-- A file of sound lines, the last one empty, is read from its text as it is read line by line. -/
theorem readTree_fileText {ls : List Line} (h : ∀ l ∈ ls, l.Sound)
    (hend : ls.getLast? = some (.text "")) : readTree (fileText ls) = readFile ls := by
  obtain ⟨front, rfl⟩ := List.getLast?_eq_some_iff.mp hend
  have hscan := Cuts.lines (List.forall_mem_append.mp h).1 []
  rw [List.nil_append] at hscan
  rw [readTree, fileText_toList, hscan]
  have hfront : (front ++ [Line.text ""]).flatMap Line.scanned = front.flatMap Line.scanned := by
    rw [List.flatMap_append]
    exact List.append_nil _
  change readFile (front.flatMap Line.scanned) = _
  rw [← hfront, readFile_scanned]

/-- Parts that each end in an empty line. -/
theorem getLast?_flatMap_blank {α : Type} {xs : List α} {lines : α → List Line}
    (h : ∀ x ∈ xs, (lines x).getLast? = some (.text "")) {front : List Line}
    (hfront : front.getLast? = some (.text "")) :
    (front ++ xs.flatMap lines).getLast? = some (.text "") := by
  induction xs generalizing front with
  | nil => rwa [List.flatMap_nil, List.append_nil]
  | cons x xs ih =>
    rw [List.forall_mem_cons] at h
    rw [List.flatMap_cons, ← List.append_assoc]
    refine ih h.2 ?_
    rw [List.getLast?_append, h.1]
    rfl

/-! ### What is read is named -/

/-- The line opens no node, or one with a name. -/
def Line.Named : Line → Prop
  | .openNode _ _ name => isNodeName name = true
  | _ => True

theorem nodeHead_named {cs : List Char} {l : Line} (h : nodeHead cs = some l) : l.Named := by
  unfold nodeHead at h
  split at h
  · split_ifs at h with hname
    cases h
    exact hname
  · simp only at h
    split_ifs at h with hname
    cases h
    exact hname.2

theorem treeChar_named {s s' : TreeState} {c : Char} (hs : ∀ l ∈ s.1, l.Named)
    (h : treeChar s c = some s') : ∀ l ∈ s'.1, l.Named := by
  have hadd {l : Line} (hl : l.Named) : ∀ l' ∈ s.1 ++ [l], l'.Named :=
    List.forall_mem_append.mpr ⟨hs, List.forall_mem_singleton.mpr hl⟩
  obtain ⟨ls, mode⟩ := s
  cases mode with
  | between =>
    simp only [treeChar] at h
    split_ifs at h <;> cases h <;> exact hs
  | slash =>
    simp only [treeChar] at h
    split_ifs at h
    cases h
    exact hs
  | comment =>
    cases h
    exact hs
  | star =>
    cases h
    exact hs
  | head cs =>
    simp only [treeChar] at h
    split_ifs at h
    · obtain ⟨l, hl, rfl⟩ := Option.map_eq_some_iff.mp h
      exact hadd (nodeHead_named hl)
    · cases h
      exact hs
    · cases h
      exact hs
  | value name cs inside =>
    simp only [treeChar] at h
    split_ifs at h
    · cases h
      have hl : (Line.prop 0 name (String.ofList cs)).Named := trivial
      exact hadd hl
    · cases h
      exact hs
    · obtain ⟨inside', -, rfl⟩ := Option.map_eq_some_iff.mp h
      exact hs
  | closing =>
    simp only [treeChar] at h
    split_ifs at h
    · cases h
      exact hs
    · cases h
      have hl : (Line.close 0).Named := trivial
      exact hadd hl

/-- The node and all nodes in it have names. -/
inductive Node.Named : Node → Prop
  | mk {label : Option String} {name : String} {props : List (String × String)}
      {children : List Node} (hname : isNodeName name = true)
      (hchildren : ∀ child ∈ children, child.Named) : Named (.mk label name props children)

theorem Node.Named.name_ok {node : Node} (h : node.Named) : isNodeName node.name = true := by
  cases h with
  | mk hname _ => exact hname

theorem Node.Named.children_ok {node : Node} (h : node.Named) :
    ∀ child ∈ node.children, child.Named := by
  cases h with
  | mk _ hchildren => exact hchildren

/-- The nodes that are open have names, and so have the nodes at the top of the file. -/
def StackNamed : List Node → Prop
  | [] => True
  | [root] => ∀ node ∈ root.children, node.Named
  | node :: rest => node.Named ∧ StackNamed rest

/-- Properties may be added to the innermost node. -/
theorem StackNamed.congr {l : Option String} {n : String} {ps ps' : List (String × String)}
    {cs : List Node} {rest : List Node} (h : StackNamed (.mk l n ps cs :: rest)) :
    StackNamed (.mk l n ps' cs :: rest) := by
  cases rest with
  | nil => exact h
  | cons parent rest => exact ⟨.mk h.1.name_ok h.1.children_ok, h.2⟩

theorem readLine_named {stack stack' : List Node} {l : Line} (hstack : StackNamed stack)
    (hl : l.Named) (h : readLine stack l = some stack') : StackNamed stack' := by
  unfold readLine at h
  split at h
  · cases h
    exact hstack
  · cases h
    exact hstack.congr
  · cases h
    exact ⟨.mk hl (by simp), hstack⟩
  · next node l n ps cs rest _ =>
    cases h
    obtain ⟨hnode, hparent⟩ := hstack
    have hadd (hcs : ∀ child ∈ cs, child.Named) : ∀ child ∈ cs ++ [node], child.Named :=
      List.forall_mem_append.mpr ⟨hcs, List.forall_mem_singleton.mpr hnode⟩
    cases rest with
    | nil => exact hadd hparent
    | cons parent rest => exact ⟨.mk hparent.1.name_ok (hadd hparent.1.children_ok), hparent.2⟩
  · cases h

/-- The nodes of a file that can be read have names. -/
theorem readTree_named {text : String} {nodes : List Node} (h : readTree text = some nodes) :
    ∀ node ∈ nodes, node.Named := by
  unfold readTree at h
  split at h
  · next ls hscan =>
    have hlines : ∀ l ∈ ls, l.Named :=
      foldlM_invariant (P := fun s : TreeState => ∀ l ∈ s.1, l.Named) (Q := fun _ => True)
        (fun s c s' hs _ hc => treeChar_named hs hc) (s := ([], .between)) (by simp)
        (fun _ _ => trivial) hscan
    unfold readFile at h
    split at h
    · next label name cs hfold =>
      cases h
      have hstart : StackNamed [.mk none "" [] []] := by simp [StackNamed, Node.children]
      exact foldlM_invariant (fun _ _ _ hs hl hstep => readLine_named hs hl hstep) hstart hlines
        hfold
    · cases h
  · cases h

end Dts
