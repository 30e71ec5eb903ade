import AximuxSystem.Foundation.DtsText
import AximuxSystem.Foundation.Text

/-!
# Reading device tree source

A reader for files of reference nodes with string list properties. Characters
are scanned into tokens, tokens are parsed into nodes; both are folds over an
explicit state. The rules below say what the reader makes of text put together
from parts. Whatever a file says, the nodes read from it have well-formed labels
and no empty list.
-/

namespace Dts

open Text

/-! ### Tokens -/

inductive Token where
  | reference (label : String)
  | word (name : String)
  | literal (s : String)
  | mark (c : Char)
  deriving DecidableEq, Repr

/-- What the scanner is in the middle of. -/
inductive ScanMode where
  | between
  | slash
  | comment
  | star
  | reference (cs : List Char)
  | word (cs : List Char)
  | literal (cs : List Char)
  deriving DecidableEq, Repr

/-- A label is an identifier that does not start with a digit. -/
def isLabel (s : String) : Bool :=
  s.toList.all isWordChar && (s.toList.head?.map Char.isDigit) == some false

/-- A character of a property name. -/
def isNameChar (c : Char) : Bool := isWordChar c || c == '-'

def isName (s : String) : Bool := !s.toList.isEmpty && s.toList.all isNameChar

def isMark (c : Char) : Bool := ['\x7b', '\x7d', '=', ',', ';'].contains c

abbrev ScanState := List Token × ScanMode

/-- The character starts something new. -/
def scanStart (ts : List Token) (c : Char) : Option ScanState :=
  if isSpace c then some (ts, .between)
  else if c = '/' then some (ts, .slash)
  else if c = '&' then some (ts, .reference [])
  else if c = '"' then some (ts, .literal [])
  else if isNameChar c then some (ts, .word [c])
  else if isMark c then some (ts ++ [.mark c], .between)
  else none

def scanChar : ScanState → Char → Option ScanState
  | (ts, .between), c => scanStart ts c
  | (ts, .slash), c => if c = '*' then some (ts, .comment) else none
  | (ts, .comment), c => some (ts, if c = '*' then .star else .comment)
  | (ts, .star), c => some (ts, if c = '/' then .between else if c = '*' then .star else .comment)
  | (ts, .reference cs), c =>
    if isWordChar c then some (ts, .reference (cs ++ [c]))
    else if isLabel (String.ofList cs) then scanStart (ts ++ [.reference (String.ofList cs)]) c
    else none
  | (ts, .word cs), c =>
    if isNameChar c then some (ts, .word (cs ++ [c]))
    else scanStart (ts ++ [.word (String.ofList cs)]) c
  | (ts, .literal cs), c =>
    if c = '"' then some (ts ++ [.literal (String.ofList cs)], .between)
    else if isPlain c then some (ts, .literal (cs ++ [c]))
    else none

/-- Between tokens, the characters are scanned as these tokens. -/
def Scans (cs : List Char) (ts : List Token) : Prop :=
  ∀ done, cs.foldlM scanChar (done, .between) = some (done ++ ts, .between)

namespace Scans

variable {cs cs₁ cs₂ : List Char} {ts ts₁ ts₂ : List Token}

theorem append (h₁ : Scans cs₁ ts₁) (h₂ : Scans cs₂ ts₂) : Scans (cs₁ ++ cs₂) (ts₁ ++ ts₂) := by
  intro done
  rw [List.foldlM_append, h₁]
  change cs₂.foldlM scanChar (done ++ ts₁, .between) = _
  rw [h₂, List.append_assoc]

theorem spaces (h : ∀ c ∈ cs, isSpace c = true) : Scans cs [] := by
  induction cs with
  | nil =>
    intro done
    rw [List.append_nil]
    rfl
  | cons c cs ih =>
    rw [List.forall_mem_cons] at h
    intro done
    rw [List.foldlM_cons]
    simp only [scanChar, scanStart, h.1, if_true]
    exact ih h.2 done

theorem mark {c : Char} (h : isMark c = true) : Scans [c] [.mark c] := by
  intro done
  rw [isMark, List.contains_iff_mem] at h
  fin_cases h <;> rfl

theorem fold_comment (h : ∀ c ∈ cs, c ≠ '*') (done : List Token) :
    cs.foldlM scanChar (done, .comment) = some (done, .comment) := by
  induction cs with
  | nil => rfl
  | cons c cs ih =>
    rw [List.forall_mem_cons] at h
    rw [List.foldlM_cons]
    simp only [scanChar, if_neg h.1]
    exact ih h.2

theorem comment (h : ∀ c ∈ cs, c ≠ '*') : Scans ('/' :: '*' :: (cs ++ ['*', '/'])) [] := by
  intro done
  rw [List.append_nil]
  change (cs ++ ['*', '/']).foldlM scanChar (done, .comment) = _
  rw [List.foldlM_append, fold_comment h]
  rfl

theorem fold_reference (h : ∀ c ∈ cs, isWordChar c = true) (done : List Token) (front : List Char) :
    cs.foldlM scanChar (done, .reference front) = some (done, .reference (front ++ cs)) := by
  induction cs generalizing front with
  | nil => rw [List.append_nil]; rfl
  | cons c cs ih =>
    rw [List.forall_mem_cons] at h
    rw [List.foldlM_cons]
    simp only [scanChar, h.1, if_true]
    change cs.foldlM scanChar _ = _
    rw [ih h.2, List.append_assoc, List.singleton_append]

/-- A reference ends at white space. -/
theorem reference {label : String} (h : isLabel label = true) :
    Scans ('&' :: (label.toList ++ [' '])) [.reference label] := by
  intro done
  have hchars := (Bool.and_eq_true_iff.mp h).1
  rw [List.all_eq_true] at hchars
  change (label.toList ++ [' ']).foldlM scanChar (done, .reference []) = _
  rw [List.foldlM_append, fold_reference hchars, List.nil_append]
  have hspace : scanChar (done, .reference label.toList) ' ' =
      some (done ++ [.reference label], .between) := by
    have hword : isWordChar ' ' = false := rfl
    simp only [scanChar, hword, Bool.false_eq_true, if_false, String.ofList_toList, h, if_true]
    rfl
  change [' '].foldlM scanChar (done, .reference label.toList) = _
  rw [List.foldlM_cons, hspace]
  rfl

theorem fold_word (h : ∀ c ∈ cs, isNameChar c = true) (done : List Token) (front : List Char) :
    cs.foldlM scanChar (done, .word front) = some (done, .word (front ++ cs)) := by
  induction cs generalizing front with
  | nil => rw [List.append_nil]; rfl
  | cons c cs ih =>
    rw [List.forall_mem_cons] at h
    rw [List.foldlM_cons]
    simp only [scanChar, h.1, if_true]
    change cs.foldlM scanChar _ = _
    rw [ih h.2, List.append_assoc, List.singleton_append]

/-- A character of a name starts a name. -/
theorem scanStart_nameChar {c : Char} (h : isNameChar c = true) (done : List Token) :
    scanStart done c = some (done, .word [c]) := by
  have hspace : isSpace c = false := by
    by_contra hc
    rw [Bool.not_eq_false, isSpace, Bool.or_eq_true, Bool.or_eq_true, beq_iff_eq, beq_iff_eq,
      beq_iff_eq] at hc
    rcases hc with (rfl | rfl) | rfl <;> exact absurd h (by decide)
  have hslash : c ≠ '/' := by
    rintro rfl
    exact absurd h (by decide)
  have hamp : c ≠ '&' := by
    rintro rfl
    exact absurd h (by decide)
  have hquote : c ≠ '"' := by
    rintro rfl
    exact absurd h (by decide)
  simp only [scanStart, hspace, Bool.false_eq_true, if_false, if_neg hslash, if_neg hamp,
    if_neg hquote, h, if_true]

/-- A name ends at white space. -/
theorem word {name : String} (hne : name.toList ≠ [])
    (h : ∀ c ∈ name.toList, isNameChar c = true) :
    Scans (name.toList ++ [' ']) [.word name] := by
  intro done
  obtain ⟨c, cs, hname⟩ := List.exists_cons_of_ne_nil hne
  rw [hname, List.forall_mem_cons] at h
  have hword : name = String.ofList (c :: cs) := by rw [← hname, String.ofList_toList]
  rw [hname, List.cons_append, List.foldlM_cons]
  change (scanStart done c).bind (fun s => (cs ++ [' ']).foldlM scanChar s) = _
  rw [scanStart_nameChar h.1, Option.bind_some, List.foldlM_append, fold_word h.2, hword]
  rfl

end Scans

/-! ### Nodes -/

/-- A reference node with string list properties. -/
structure RefNode where
  label : String
  props : List (String × List String)
  deriving DecidableEq, Repr

/-- Where in a node the parser is. -/
inductive ParseMode where
  | top
  | opening (label : String)
  | body (label : String) (props : List (String × List String))
  | equals (label : String) (props : List (String × List String)) (name : String)
  | value (label : String) (props : List (String × List String)) (name : String) (xs : List String)
  | behind (label : String) (props : List (String × List String)) (name : String) (xs : List String)
  | closing (label : String) (props : List (String × List String))

abbrev ParseState := List RefNode × ParseMode

def parseToken : ParseState → Token → Option ParseState
  | (nodes, .top), .reference label => some (nodes, .opening label)
  | (nodes, .opening label), .mark '\x7b' => some (nodes, .body label [])
  | (nodes, .body label props), .word name => some (nodes, .equals label props name)
  | (nodes, .body label props), .mark '\x7d' => some (nodes, .closing label props)
  | (nodes, .equals label props name), .mark '=' => some (nodes, .value label props name [])
  | (nodes, .value label props name xs), .literal x =>
    some (nodes, .behind label props name (xs ++ [x]))
  | (nodes, .behind label props name xs), .mark ',' => some (nodes, .value label props name xs)
  | (nodes, .behind label props name xs), .mark ';' =>
    some (nodes, .body label (props ++ [(name, xs)]))
  | (nodes, .closing label props), .mark ';' => some (nodes ++ [⟨label, props⟩], .top)
  | _, _ => none

/-- The characters of a line with its line break. -/
def Line.chars (l : Line) : List Char := l.render.toList ++ ['\n']

/-- The nodes of a file: `&label { name = "s", "s"; };` over and over, with comments and white
space in between. -/
def readSource (text : String) : Option (List RefNode) :=
  match text.toList.foldlM scanChar ([], .between) with
  | some (ts, .between) =>
    match ts.foldlM parseToken ([], .top) with
    | some (nodes, .top) => some nodes
    | _ => none
  | _ => none

/-- The text leads the parser from one state to another. -/
def Reads (cs : List Char) (p q : ParseState) : Prop :=
  ∃ ts, Scans cs ts ∧ ts.foldlM parseToken p = some q

namespace Reads

variable {cs cs₁ cs₂ : List Char} {p q r : ParseState}

theorem trans (h₁ : Reads cs₁ p q) (h₂ : Reads cs₂ q r) : Reads (cs₁ ++ cs₂) p r := by
  obtain ⟨ts₁, hs₁, hp₁⟩ := h₁
  obtain ⟨ts₂, hs₂, hp₂⟩ := h₂
  refine ⟨ts₁ ++ ts₂, hs₁.append hs₂, ?_⟩
  rw [List.foldlM_append, hp₁]
  exact hp₂

theorem skip (h : Scans cs []) : Reads cs p p := ⟨[], h, rfl⟩

theorem token {t : Token} (h : Scans cs [t]) (ht : parseToken p t = some q) : Reads cs p q := by
  refine ⟨[t], h, ?_⟩
  rw [List.foldlM_cons, ht]
  rfl

/-- Text the reader takes from start to end. -/
theorem readSource {text : String} {nodes : List RefNode}
    (h : Reads text.toList ([], .top) (nodes, .top)) : readSource text = some nodes := by
  obtain ⟨ts, hs, hp⟩ := h
  have hscan := hs []
  rw [List.nil_append] at hscan
  rw [Dts.readSource, hscan]
  simp only [hp]

/-! ### String lists -/

/-- Scanner and parser inside the value of a property, next to the reader of string lists. -/
def scanMode : StringMode → ScanMode
  | .inside cs => .literal cs
  | _ => .between

def parseMode (label : String) (props : List (String × List String)) (name : String)
    (xs : List String) : StringMode → ParseMode
  | .behind => .behind label props name xs
  | _ => .value label props name xs

section Values

variable (nodes : List RefNode) (label name : String) (props : List (String × List String))

theorem value_step {xs xs' : List String} {m m' : StringMode} {c : Char}
    (h : readStringChar (xs, m) c = some (xs', m')) : ∃ ts : List Token,
      (∀ done, scanChar (done, scanMode m) c = some (done ++ ts, scanMode m')) ∧
      ts.foldlM parseToken (nodes, parseMode label props name xs m) =
        some (nodes, parseMode label props name xs' m') := by
  cases m with
  | before =>
    simp only [readStringChar] at h
    split_ifs at h with hspace hquote
    · cases h
      exact ⟨[], fun done => by simp [scanMode, scanChar, scanStart, hspace], rfl⟩
    · cases h
      subst c
      exact ⟨[], fun done => by rw [List.append_nil]; rfl, rfl⟩
  | inside cs =>
    simp only [readStringChar] at h
    split_ifs at h with hquote hplain
    · cases h
      subst c
      exact ⟨[.literal (String.ofList cs)], fun done => rfl, rfl⟩
    · cases h
      exact ⟨[], fun done => by simp [scanMode, scanChar, hquote, hplain], rfl⟩
  | behind =>
    simp only [readStringChar] at h
    split_ifs at h with hspace hcomma
    · cases h
      exact ⟨[], fun done => by simp [scanMode, scanChar, scanStart, hspace], rfl⟩
    · cases h
      subst c
      exact ⟨[.mark ','], fun done => rfl, rfl⟩

/-- Where the reader of string lists gets, scanner and parser get with the same strings. -/
theorem value_fold {cs : List Char} {xs xs' : List String} {m m' : StringMode}
    (h : cs.foldlM readStringChar (xs, m) = some (xs', m')) : ∃ ts : List Token,
      (∀ done, cs.foldlM scanChar (done, scanMode m) = some (done ++ ts, scanMode m')) ∧
      ts.foldlM parseToken (nodes, parseMode label props name xs m) =
        some (nodes, parseMode label props name xs' m') := by
  induction cs generalizing xs m with
  | nil =>
    cases h
    exact ⟨[], fun done => by rw [List.append_nil]; rfl, rfl⟩
  | cons c cs ih =>
    rw [List.foldlM_cons] at h
    obtain ⟨⟨xs₁, m₁⟩, hstep, hrest⟩ := Option.bind_eq_some_iff.mp h
    obtain ⟨ts₁, hscan₁, hparse₁⟩ := value_step nodes label name props hstep
    obtain ⟨ts₂, hscan₂, hparse₂⟩ := ih hrest
    refine ⟨ts₁ ++ ts₂, fun done => ?_, ?_⟩
    · rw [List.foldlM_cons, hscan₁]
      change cs.foldlM scanChar (done ++ ts₁, scanMode m₁) = _
      rw [hscan₂, List.append_assoc]
    · rw [List.foldlM_append, hparse₁]
      exact hparse₂

end Values

variable {nodes : List RefNode} {label name : String} {props : List (String × List String)}

theorem strings {xs : List String} (h : Spells cs xs) :
    Reads cs (nodes, .value label props name []) (nodes, .behind label props name xs) := by
  obtain ⟨ts, hscan, hparse⟩ := value_fold nodes label name props (h [])
  exact ⟨ts, hscan, hparse⟩

/-! ### Lines of a node -/

theorem newline : Reads ['\n'] p p := skip (Scans.spaces (List.forall_mem_singleton.mpr rfl))

theorem prop {value : String} {xs : List String} (hvalue : Spells value.toList xs)
    (hname : isName name = true) (indent : ℕ) :
    Reads (Line.chars (.prop indent name value)) (nodes, .body label props)
      (nodes, .body label (props ++ [(name, xs)])) := by
  obtain ⟨hne, hchars⟩ := Bool.and_eq_true_iff.mp hname
  rw [List.all_eq_true] at hchars
  have hspaces : Reads (Line.spaces indent).toList (nodes, .body label props)
      (nodes, .body label props) := skip (Scans.spaces fun c hc => by
    rw [Line.spaces, String.toList_ofList] at hc
    rw [List.eq_of_mem_replicate hc]
    rfl)
  have hword : Reads (name.toList ++ [' ']) (nodes, .body label props)
      (nodes, .equals label props name) := token (Scans.word (by simpa using hne) hchars) rfl
  have hequals : Reads ['='] (nodes, .equals label props name)
      (nodes, .value label props name []) := token (Scans.mark rfl) rfl
  have hspace : Reads [' '] (nodes, .value label props name [])
      (nodes, .value label props name []) := skip (Scans.spaces (List.forall_mem_singleton.mpr rfl))
  have hend : Reads [';'] (nodes, .behind label props name xs)
      (nodes, .body label (props ++ [(name, xs)])) := token (Scans.mark rfl) rfl
  have hline : Line.chars (.prop indent name value) =
      (Line.spaces indent).toList ++ (name.toList ++ [' ']) ++ ['='] ++ [' '] ++ value.toList ++
        [';'] ++ ['\n'] := by
    simp [Line.chars, Line.render]
  rw [hline]
  exact (((((hspaces.trans hword).trans hequals).trans hspace).trans (strings hvalue)).trans
    hend).trans newline

theorem openNode (h : isLabel label = true) :
    Reads (Line.chars (.openNode 0 none ("&" ++ label))) (nodes, .top) (nodes, .body label []) := by
  have hreference : Reads ('&' :: (label.toList ++ [' '])) (nodes, .top)
      (nodes, .opening label) := token (Scans.reference h) rfl
  have hbrace : Reads ['\x7b'] (nodes, .opening label) (nodes, .body label []) :=
    token (Scans.mark rfl) rfl
  have hline : Line.chars (.openNode 0 none ("&" ++ label)) =
      '&' :: (label.toList ++ [' ']) ++ ['\x7b'] ++ ['\n'] := by
    simp [Line.chars, Line.render, Line.spaces]
  rw [hline]
  exact (hreference.trans hbrace).trans newline

theorem close : Reads (Line.chars (.close 0)) (nodes, .body label props)
    (nodes ++ [⟨label, props⟩], .top) := by
  have hbrace : Reads ['\x7d'] (nodes, .body label props) (nodes, .closing label props) :=
    token (Scans.mark rfl) rfl
  have hend : Reads [';'] (nodes, .closing label props) (nodes ++ [⟨label, props⟩], .top) :=
    token (Scans.mark rfl) rfl
  exact (hbrace.trans hend).trans newline

theorem blank : Reads (Line.chars (.text "")) p p := newline

theorem comment {cs : List Char} (h : ∀ c ∈ cs, c ≠ '*') :
    Reads (Line.chars (.text ("/*" ++ String.ofList cs ++ "*/"))) p p := by
  have hline : Line.chars (.text ("/*" ++ String.ofList cs ++ "*/")) =
      '/' :: '*' :: (cs ++ ['*', '/']) ++ ['\n'] := by
    simp [Line.chars, Line.render]
  rw [hline]
  exact (skip (Scans.comment h)).trans newline

/-- The property with its text is read as the property with its strings. -/
structure IsProp (text : String × String) (prop : String × List String) : Prop where
  name : text.1 = prop.1
  isName : isName text.1 = true
  spells : Spells text.2.toList prop.2

theorem properties {texts : List (String × String)} {done read : List (String × List String)}
    (h : List.Forall₂ IsProp texts read) (indent : ℕ) :
    Reads ((Line.props indent texts).flatMap Line.chars) (nodes, .body label done)
      (nodes, .body label (done ++ read)) := by
  induction h generalizing done with
  | nil =>
    rw [List.append_nil]
    exact skip (Scans.spaces nofun)
  | @cons text entry texts read hprop _ ih =>
    obtain ⟨name, value⟩ := text
    obtain ⟨name', xs⟩ := entry
    obtain ⟨rfl, hname, hspells⟩ := hprop
    have hfirst : Reads (Line.chars (.prop indent name value)) (nodes, .body label done)
        (nodes, .body label (done ++ [(name, xs)])) := prop hspells hname indent
    have hrest : Reads _ _ (nodes, .body label (done ++ [(name, xs)] ++ read)) := ih
    rw [List.append_assoc] at hrest
    exact hfirst.trans hrest

/-- A reference node with its properties. -/
theorem block {texts : List (String × String)} {read : List (String × List String)}
    (hlabel : isLabel label = true) (h : List.Forall₂ IsProp texts read) (indent : ℕ) :
    Reads ((Dts.block 0 none ("&" ++ label) (Line.props indent texts)).flatMap Line.chars)
      (nodes, .top) (nodes ++ [⟨label, read⟩], .top) := by
  have hbody : Reads ((Line.props indent texts).flatMap Line.chars) (nodes, .body label [])
      (nodes, .body label read) := properties h indent
  have hlines := (openNode hlabel).trans (hbody.trans close)
  simpa [Dts.block] using hlines

end Reads

/-- A file that ends in an empty line is its other lines with a line break behind each. -/
theorem fileText_toList (ls : List Line) :
    (fileText (ls ++ [.text ""])).toList = ls.flatMap Line.chars := by
  have hcons (l : Line) (ls : List Line) (hne : ls ≠ []) :
      fileText (l :: ls) = l.render ++ "\n" ++ fileText ls := by
    obtain ⟨l', ls', rfl⟩ := List.exists_cons_of_ne_nil hne
    exact String.intercalate_cons_cons
  induction ls with
  | nil => rfl
  | cons l ls ih =>
    rw [List.cons_append, hcons l _ (by simp), String.toList_append, String.toList_append, ih,
      List.flatMap_cons]
    rfl

/-! ### What is read is well formed -/

/-- An invariant of the steps of a fold that may fail holds at its end. -/
theorem foldlM_invariant {σ α : Type} {f : σ → α → Option σ} {P : σ → Prop} {Q : α → Prop}
    (hstep : ∀ s x s', P s → Q x → f s x = some s' → P s') {xs : List α} {s s' : σ}
    (hs : P s) (hxs : ∀ x ∈ xs, Q x) (h : xs.foldlM f s = some s') : P s' := by
  induction xs generalizing s with
  | nil =>
    cases h
    exact hs
  | cons x xs ih =>
    rw [List.forall_mem_cons] at hxs
    rw [List.foldlM_cons] at h
    obtain ⟨s₁, hfirst, hrest⟩ := Option.bind_eq_some_iff.mp h
    exact ih (hstep s x s₁ hs hxs.1 hfirst) hxs.2 hrest

def Token.WellFormed : Token → Prop
  | .reference label => isLabel label = true
  | _ => True

/-- The label is a label, and every property has at least one string. -/
structure RefNode.WellFormed (node : RefNode) : Prop where
  label : isLabel node.label = true
  props : ∀ p ∈ node.props, p.2 ≠ []

def ParseMode.WellFormed : ParseMode → Prop
  | top => True
  | opening label => isLabel label = true
  | body label props => RefNode.WellFormed ⟨label, props⟩
  | equals label props _ => RefNode.WellFormed ⟨label, props⟩
  | value label props _ _ => RefNode.WellFormed ⟨label, props⟩
  | behind label props _ xs => RefNode.WellFormed ⟨label, props⟩ ∧ xs ≠ []
  | closing label props => RefNode.WellFormed ⟨label, props⟩

theorem scanStart_wellFormed {ts : List Token} {c : Char} {s : ScanState}
    (hts : ∀ t ∈ ts, t.WellFormed) (h : scanStart ts c = some s) : ∀ t ∈ s.1, t.WellFormed := by
  unfold scanStart at h
  split_ifs at h <;> cases h
  all_goals first
    | exact hts
    | exact List.forall_mem_append.mpr ⟨hts, List.forall_mem_singleton.mpr trivial⟩

theorem scanChar_wellFormed {s s' : ScanState} {c : Char} (hs : ∀ t ∈ s.1, t.WellFormed)
    (h : scanChar s c = some s') : ∀ t ∈ s'.1, t.WellFormed := by
  have hadd {t : Token} (ht : t.WellFormed) : ∀ t' ∈ s.1 ++ [t], t'.WellFormed :=
    List.forall_mem_append.mpr ⟨hs, List.forall_mem_singleton.mpr ht⟩
  obtain ⟨ts, mode⟩ := s
  cases mode with
  | between => exact scanStart_wellFormed hs h
  | slash =>
    simp only [scanChar] at h
    split_ifs at h
    cases h
    exact hs
  | comment =>
    cases h
    exact hs
  | star =>
    cases h
    exact hs
  | reference cs =>
    simp only [scanChar] at h
    split_ifs at h with hword hlabel
    · cases h
      exact hs
    · have ht : (Token.reference (String.ofList cs)).WellFormed := hlabel
      exact scanStart_wellFormed (hadd ht) h
  | word cs =>
    simp only [scanChar] at h
    split_ifs at h
    · cases h
      exact hs
    · have ht : (Token.word (String.ofList cs)).WellFormed := trivial
      exact scanStart_wellFormed (hadd ht) h
  | literal cs =>
    simp only [scanChar] at h
    split_ifs at h <;> cases h
    · have ht : (Token.literal (String.ofList cs)).WellFormed := trivial
      exact hadd ht
    · exact hs

/-- The nodes read so far are well formed, and so is what is read of the next one. -/
structure ParseState.WellFormed (p : ParseState) : Prop where
  nodes : ∀ node ∈ p.1, node.WellFormed
  mode : p.2.WellFormed

theorem parseToken_wellFormed {p q : ParseState} {t : Token} (hp : ParseState.WellFormed p)
    (ht : t.WellFormed) (h : parseToken p t = some q) : ParseState.WellFormed q := by
  obtain ⟨hnodes, hmode⟩ := hp
  unfold parseToken at h
  split at h
  · -- a reference opens a node
    cases h
    exact ⟨hnodes, ht⟩
  · cases h
    exact ⟨hnodes, hmode, nofun⟩
  · cases h
    exact ⟨hnodes, hmode⟩
  · cases h
    exact ⟨hnodes, hmode⟩
  · cases h
    exact ⟨hnodes, hmode⟩
  · -- a string is behind every value that may end
    cases h
    exact ⟨hnodes, hmode, by simp⟩
  · cases h
    exact ⟨hnodes, hmode.1⟩
  · cases h
    refine ⟨hnodes, hmode.1.label, List.forall_mem_append.mpr ⟨hmode.1.props, ?_⟩⟩
    exact List.forall_mem_singleton.mpr hmode.2
  · cases h
    exact ⟨List.forall_mem_append.mpr ⟨hnodes, List.forall_mem_singleton.mpr hmode⟩, trivial⟩
  · cases h

/-- A file that can be read is a token list, and the token list a node list. -/
theorem tokens_of_readSource {text : String} {nodes : List RefNode}
    (h : readSource text = some nodes) :
    ∃ ts, text.toList.foldlM scanChar ([], .between) = some (ts, .between) ∧
      ts.foldlM parseToken ([], .top) = some (nodes, .top) := by
  unfold readSource at h
  split at h
  next ts hscan =>
    split at h
    next nodes' hparse =>
      cases h
      exact ⟨ts, hscan, hparse⟩
    next => cases h
  next => cases h

/-- Every file that can be read consists of well-formed nodes. -/
theorem readSource_wellFormed {text : String} {nodes : List RefNode}
    (h : readSource text = some nodes) : ∀ node ∈ nodes, node.WellFormed := by
  obtain ⟨ts, hscan, hparse⟩ := tokens_of_readSource h
  have htokens : ∀ t ∈ ts, t.WellFormed :=
    foldlM_invariant (P := fun s : ScanState => ∀ t ∈ s.1, t.WellFormed) (Q := fun _ => True)
      (fun s c s' hs _ hc => scanChar_wellFormed hs hc) (s := ([], .between)) nofun
      (fun _ _ => trivial) hscan
  have hstart : ParseState.WellFormed ([], .top) := ⟨nofun, trivial⟩
  exact (foldlM_invariant (fun _ _ _ hp ht hq => parseToken_wellFormed hp ht hq) hstart htokens
    hparse).nodes

end Dts
