import AximuxSystem.Tool.Dump
import AximuxSystem.Tool.SourceText

/-!
# A run of the tool

`main` writes up to three files: the dump of the records, the output in one of
three styles, and the groups of the consumers; without an output file the text
goes to standard output. A file that is named twice holds what was written to it
last. Everything that is written is read back.
-/

namespace AximuxSystem.Tool

open Collections Text Dts Json

/-! ### The run -/

/-- The choices of `--style`. -/
inductive Style where
  | legacy | pinctrl2 | json
  deriving DecidableEq, Repr

/-- The arguments that say what is written where. -/
structure Args where
  output : Option String
  style : Style
  consumers : Option String
  dumpJson : Option String

/-- What a run leaves: the texts written to files, in order, and the two streams. -/
structure Outcome where
  written : List (String × String)
  stdout : String
  stderr : List String
  deriving DecidableEq, Repr

/-- What a file holds after the run. -/
def Outcome.file (out : Outcome) (path : String) : Option String := Grouping.lastOf path out.written

/-- `text if text.endswith("\n") else text + "\n"` -/
def terminated (text : String) : String :=
  if text.toList.getLast? = some '\n' then text else text ++ "\n"

variable (re : Regex) (naming : Naming)

def styleText (muxes : List Mux) : Style → String
  | .json => dumpText muxes
  | .pinctrl2 => fileText (emitPinctrl2 re naming muxes)
  | .legacy => fileText (emitLegacy re naming muxes)

/-- `main` with the naming table and the document already loaded. -/
def main (root : Element) (args : Args) : Outcome :=
  let muxes := parseMuxes root
  let text := terminated (styleText re naming muxes args.style)
  let written :=
    args.dumpJson.toList.map (fun path => (path, dumpText muxes)) ++
    args.output.toList.map (fun path => (path, text)) ++
    args.consumers.toList.map
      (fun path => (path, terminated (fileText (emitConsumers re naming muxes))))
  { written := written
    stdout := if args.output = none then text else ""
    stderr := (if muxes = [] then ["warning: no axi_mux/aximux modules found"] else []) ++
      written.map fun entry => "wrote " ++ entry.1 }

/-! ### Reading back -/

/-- The text gives back what the style writes of the muxes. -/
def ReadsBack (muxes : List Mux) : Style → String → Prop
  | .json, text => loadDump text = some muxes
  | .pinctrl2, text => readTree text = some (muxes.map (controllerNode re naming) ++
      (byConsumer re naming muxes).sortedItems.map consumerNode)
  | .legacy, text => readSource text = some (muxes.map (legacyNode re naming))

/-- The names the style writes outside of string literals are labels, and no list is empty. -/
def Readable (muxes : List Mux) : Style → Prop
  | .json => True
  | .pinctrl2 => (∀ mux ∈ muxes, isLabel mux.inst = true) ∧
      ∀ cons, IsWired re naming muxes cons → isLabel cons = true
  | .legacy => ∀ mux ∈ muxes, mux.pins ≠ [] ∧ isLabel mux.inst = true

/-- The names the style writes in string literals stand for themselves. -/
def Style.Plain (mux : Mux) : Style → Prop
  | .json => True
  | .pinctrl2 => PlainFunctions re naming mux
  | .legacy => PlainNames re naming mux

variable {re naming} {root : Element} {args : Args} {muxes : List Mux}

theorem terminated_eq {text : String} (h : text.toList.getLast? = some '\n') :
    terminated text = text := if_pos h

theorem terminated_fileText {ls : List Line} (hend : ls.getLast? = some (.text ""))
    (hlen : 2 ≤ ls.length) : terminated (fileText ls) = fileText ls := by
  obtain ⟨front, rfl⟩ := List.getLast?_eq_some_iff.mp hend
  have hne : front ≠ [] := by
    rintro rfl
    simp at hlen
  obtain ⟨front, l, rfl⟩ := (List.eq_nil_or_concat' front).resolve_left hne
  apply terminated_eq
  rw [fileText_toList, List.flatMap_append, List.flatMap_singleton, Line.chars, ← List.append_assoc,
    List.getLast?_concat]

theorem emitLegacy_last (re : Regex) (naming : Naming) (muxes : List Mux) :
    (emitLegacy re naming muxes).getLast? = some (.text "") :=
  getLast?_flatMap_blank (fun _ _ => List.getLast?_concat) rfl

/-- Every style ends its text with a line break. -/
theorem terminated_styleText (re : Regex) (naming : Naming) (muxes : List Mux) (style : Style) :
    terminated (styleText re naming muxes style) = styleText re naming muxes style := by
  cases style with
  | legacy => exact terminated_fileText (emitLegacy_last re naming muxes) (by simp [emitLegacy])
  | pinctrl2 =>
    exact terminated_fileText (emitPinctrl2_last re naming muxes) (by simp [emitPinctrl2])
  | json =>
    apply terminated_eq
    rw [styleText, dumpText, String.toList_ofList, List.getLast?_concat]

theorem readsBack_iff (style : Style) (hplain : ∀ mux ∈ muxes, style.Plain re naming mux) :
    ReadsBack re naming muxes style (styleText re naming muxes style) ↔
      Readable re naming muxes style := by
  cases style with
  | legacy => exact readSource_emitLegacy_iff hplain
  | pinctrl2 => exact readTree_emitPinctrl2_iff hplain
  | json => exact iff_of_true (loadDump_dumpText muxes) trivial

/-- The last text written to a file is the one of the option evaluated last. -/
theorem file_main (path : String) : (main re naming root args).file path =
    if args.consumers = some path then
      some (fileText (emitConsumers re naming (parseMuxes root)))
    else if args.output = some path then some (styleText re naming (parseMuxes root) args.style)
    else if args.dumpJson = some path then some (dumpText (parseMuxes root))
    else none := by
  have hpart (arg : Option String) (text : String) :
      Grouping.lastOf path (arg.toList.map fun path => (path, text)) =
        if arg = some path then some text else none := by
    cases arg with
    | none => rfl
    | some p =>
      have hsingle := Grouping.lastOf_singleton path (p, text)
      simpa using hsingle
  have hconsumers : terminated (fileText (emitConsumers re naming (parseMuxes root))) =
      fileText (emitConsumers re naming (parseMuxes root)) :=
    terminated_fileText (emitConsumers_last re naming _) (by simp [emitConsumers])
  rw [Outcome.file, main]
  simp only [Grouping.lastOf_append, hpart, terminated_styleText, hconsumers]
  split_ifs <;> rfl

/-- What the run writes is read back, each file exactly if the names in it allow it. -/
structure RunReadsBack (re : Regex) (naming : Naming) (root : Element) (args : Args) : Prop where
  printed : args.output = none →
    (ReadsBack re naming (parseMuxes root) args.style (main re naming root args).stdout ↔
      Readable re naming (parseMuxes root) args.style)
  silent : args.output ≠ none → (main re naming root args).stdout = ""
  output : ∀ path, args.output = some path → args.consumers ≠ some path →
    ∃ text, (main re naming root args).file path = some text ∧
      (ReadsBack re naming (parseMuxes root) args.style text ↔
        Readable re naming (parseMuxes root) args.style)
  dump : ∀ path, args.dumpJson = some path → args.output ≠ some path →
    args.consumers ≠ some path → ∃ text, (main re naming root args).file path = some text ∧
      loadDump text = some (parseMuxes root) ∧ Ascii text.toList
  consumers : ∀ path, args.consumers = some path →
    ∃ text, (main re naming root args).file path = some text ∧
      (readTree text =
          some ((legacyGroups re naming (parseMuxes root)).sortedItems.map legacyInstNode) ↔
        LegacyNamed re naming (parseMuxes root))
  others : ∀ path, args.dumpJson ≠ some path → args.output ≠ some path →
    args.consumers ≠ some path → (main re naming root args).file path = none

/-- Whatever the design and the options are, the files and the standard output of a run are read
back as the records, the nodes and the groups they are written for. -/
theorem run_reads_back (re : Regex) (naming : Naming) (root : Element) (args : Args)
    (hplain : ∀ mux ∈ parseMuxes root, args.style.Plain re naming mux) :
    RunReadsBack re naming root args where
  printed hout := by
    rw [main, if_pos hout, terminated_styleText]
    exact readsBack_iff args.style hplain
  silent hout := if_neg hout
  output path hout hcons := by
    refine ⟨_, ?_, readsBack_iff args.style hplain⟩
    rw [file_main, if_neg hcons, if_pos hout]
  dump path hdump hout hcons := by
    refine ⟨_, ?_, loadDump_dumpText _, ascii_dumpText _⟩
    rw [file_main, if_neg hcons, if_neg hout, if_pos hdump]
  consumers path hcons := by
    refine ⟨_, ?_, readTree_emitConsumers_iff⟩
    rw [file_main, if_pos hcons]
  others path hdump hout hcons := by
    rw [file_main, if_neg hcons, if_neg hout, if_neg hdump]

def sampleArgs : Args := ⟨some "pinmux.dtsi", .pinctrl2, some "groups.dtsi", some "map.json"⟩

theorem sampleDesign_plain :
    ∀ mux ∈ parseMuxes sampleDesign, PlainFunctions noRules defaultNaming mux := by
  have hall : ((parseMuxes sampleDesign).all fun mux => mux.pins.all fun pin =>
      (functionNames noRules defaultNaming mux pin).all fun name =>
        name.toList.all isPlain) = true := by decide +kernel
  simpa only [List.all_eq_true, PlainFunctions] using hall

theorem run_reads_back_sample : ∃ text,
    (main noRules defaultNaming sampleDesign sampleArgs).file "map.json" = some text ∧
      loadDump text = some (parseMuxes sampleDesign) := by
  have hrun := run_reads_back noRules defaultNaming sampleDesign sampleArgs sampleDesign_plain
  obtain ⟨text, hfile, hload, -⟩ := hrun.dump "map.json" rfl (by decide) (by decide)
  exact ⟨text, hfile, hload⟩

/-- An instance name that is no label makes the output unreadable. -/
example : ¬ ReadsBack noRules defaultNaming [⟨"axi mux_0", some "aximux", [], 0, .nil⟩] .pinctrl2
    (styleText noRules defaultNaming [⟨"axi mux_0", some "aximux", [], 0, .nil⟩] .pinctrl2) := by
  rw [readsBack_iff]
  · intro h
    exact absurd (h.1 _ (List.mem_singleton_self _)) (by decide)
  · simp [Style.Plain, PlainFunctions]

end AximuxSystem.Tool
