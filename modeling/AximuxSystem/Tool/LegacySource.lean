import AximuxSystem.Foundation.DtsSource
import AximuxSystem.Tool.Legacy
import AximuxSystem.Tool.Nodes

/-!
# Legacy output read back

The text of `emit_legacy` is read as reference nodes with string list
properties. It gives back every mux with its two lists, unless there is a mux
without pins, whose lists have no text, or one whose name is no label.
-/

namespace AximuxSystem.Tool

open Collections Text Dts

variable {re : Regex} {naming : Naming} {mux : Mux} {muxes : List Mux}

/-- The node a mux is written as. -/
def legacyNode (re : Regex) (naming : Naming) (mux : Mux) : RefNode :=
  ⟨mux.inst, [("signal-names", signalNames re naming mux),
    ("alternate-names", alternateNames re naming mux)]⟩

/-- The names of the mux stand for themselves in string literals. -/
def PlainNames (re : Regex) (naming : Naming) (mux : Mux) : Prop :=
  ∀ name ∈ signalNames re naming mux ++ alternateNames re naming mux,
    ∀ c ∈ name.toList, isPlain c = true

/-! ### Reading the text -/

theorem legacyProps_read (hpins : mux.pins ≠ []) (hplain : PlainNames re naming mux) :
    List.Forall₂ Reads.IsProp (legacyProps re naming mux) (legacyNode re naming mux).props := by
  have hsignals : Spells (csvStrings (signalNames re naming mux) 17).toList
      (signalNames re naming mux) :=
    spells_csvStrings (by simpa [signalNames] using hpins)
      (fun name hname => hplain name (List.mem_append_left _ hname)) 17
  have halternates : Spells (csvStrings (alternateNames re naming mux) 17).toList
      (alternateNames re naming mux) :=
    spells_csvStrings (by simpa [alternateNames] using hpins)
      (fun name hname => hplain name (List.mem_append_right _ hname)) 17
  have hsignalsName : isName "signal-names" = true := by decide +kernel
  have halternatesName : isName "alternate-names" = true := by decide +kernel
  exact .cons ⟨rfl, hsignalsName, hsignals⟩ (.cons ⟨rfl, halternatesName, halternates⟩ .nil)

/-- The lines of the muxes, each behind an empty line, are read as their nodes. -/
theorem reads_muxes (hmuxes : ∀ mux ∈ muxes, mux.pins ≠ [] ∧ isLabel mux.inst = true)
    (hplain : ∀ mux ∈ muxes, PlainNames re naming mux) (nodes : List RefNode) :
    Reads ((muxes.flatMap fun mux => .text "" ::
        block 0 none ("&" ++ mux.inst) (Line.props 2 (legacyProps re naming mux))).flatMap
      Line.chars) (nodes, .top) (nodes ++ muxes.map (legacyNode re naming), .top) := by
  induction muxes generalizing nodes with
  | nil =>
    rw [List.map_nil, List.append_nil]
    exact .skip (Scans.spaces nofun)
  | cons mux muxes ih =>
    rw [List.forall_mem_cons] at hmuxes hplain
    have hmux : Reads ((block 0 none ("&" ++ mux.inst)
        (Line.props 2 (legacyProps re naming mux))).flatMap Line.chars) (nodes, .top)
        (nodes ++ [legacyNode re naming mux], .top) :=
      .block hmuxes.1.2 (legacyProps_read hmuxes.1.1 hplain.1) 2
    have hrest := ih hmuxes.2 hplain.2 (nodes ++ [legacyNode re naming mux])
    rw [List.append_assoc, List.singleton_append, ← List.map_cons] at hrest
    rw [List.flatMap_cons, List.flatMap_append, List.flatMap_cons]
    exact (Reads.blank.trans hmux).trans hrest

/-- The empty line behind each mux stands before the next one. -/
theorem emitLegacy_eq (re : Regex) (naming : Naming) (muxes : List Mux) :
    emitLegacy re naming muxes =
      .text "/* AUTO-GENERATED from system.hwh — do not edit by hand. */" ::
      (muxes.flatMap fun mux => .text "" ::
        block 0 none ("&" ++ mux.inst) (Line.props 2 (legacyProps re naming mux))) ++
      [.text ""] := by
  have hrotate : .text "" :: muxes.flatMap (legacyLines re naming) =
      (muxes.flatMap fun mux => .text "" ::
        block 0 none ("&" ++ mux.inst) (Line.props 2 (legacyProps re naming mux))) ++
      [.text ""] := by
    induction muxes with
    | nil => rfl
    | cons mux muxes ih =>
      rw [List.flatMap_cons, List.flatMap_cons, List.append_assoc, ← ih, legacyLines,
        List.append_assoc]
      rfl
  rw [List.cons_append, ← hrotate]
  rfl

theorem readSource_emitLegacy (hmuxes : ∀ mux ∈ muxes, mux.pins ≠ [] ∧ isLabel mux.inst = true)
    (hplain : ∀ mux ∈ muxes, PlainNames re naming mux) :
    readSource (fileText (emitLegacy re naming muxes)) =
      some (muxes.map (legacyNode re naming)) := by
  apply Reads.readSource
  rw [emitLegacy_eq, fileText_toList, List.flatMap_cons]
  have hcomment : ∀ c ∈ " AUTO-GENERATED from system.hwh — do not edit by hand. ".toList,
      c ≠ '*' := by
    have hall : (" AUTO-GENERATED from system.hwh — do not edit by hand. ".toList.all
        (· != '*')) = true := by decide +kernel
    simpa only [List.all_eq_true, bne_iff_ne] using hall
  have hheader := Reads.comment hcomment (p := ([], .top))
  exact hheader.trans (reads_muxes hmuxes hplain [])

/-! ### When the text gives back the muxes -/

/-- The text is read as one node for every mux, with two lists of its pin count. -/
structure LegacyRoundTrip (re : Regex) (naming : Naming) (muxes : List Mux) : Prop where
  read : readSource (fileText (emitLegacy re naming muxes)) =
    some (muxes.map (legacyNode re naming))
  counts : ∀ mux ∈ muxes, (signalNames re naming mux).length = mux.npins ∧
    (alternateNames re naming mux).length = mux.npins

/-- The pin count of a parsed mux is the number of its pins. -/
theorem parseMuxes_npins {root : Element} (h : mux ∈ parseMuxes root) :
    mux.npins = mux.pins.length := by
  rw [parseMuxes, List.mem_insertionSort] at h
  obtain ⟨m, -, rfl⟩ := List.mem_map.mp h
  exact Mux.ofPins_npins _ _ _

/-- The output of the tool is read back exactly if every mux has a pin and a label for a name. -/
theorem legacy_roundtrip_iff {root : Element}
    (hplain : ∀ mux ∈ parseMuxes root, PlainNames re naming mux) :
    LegacyRoundTrip re naming (parseMuxes root) ↔
      ∀ mux ∈ parseMuxes root, mux.pins ≠ [] ∧ isLabel mux.inst = true := by
  constructor
  · intro h mux hmux
    have hnode := readSource_wellFormed h.read _ (List.mem_map_of_mem hmux)
    refine ⟨?_, hnode.label⟩
    rintro hpins
    refine hnode.props ("signal-names", signalNames re naming mux) List.mem_cons_self ?_
    rw [signalNames, hpins, List.map_nil]
  · intro h
    refine ⟨readSource_emitLegacy h hplain, fun mux hmux => ?_⟩
    rw [signalNames, alternateNames, List.length_map, List.length_map, parseMuxes_npins hmux]
    exact ⟨rfl, rfl⟩

/-- A module that is a mux by its name, with no signal connected. -/
def emptyDesign : Element :=
  .mk "EDKSYSTEM" [] [.mk "MODULES" [] [sampleModule "axi_mux_0" "aximux" []]]

theorem emptyDesign_plain :
    ∀ mux ∈ parseMuxes emptyDesign, PlainNames noRules defaultNaming mux := by
  have hall : ((parseMuxes emptyDesign).all fun mux =>
      (signalNames noRules defaultNaming mux ++ alternateNames noRules defaultNaming mux).all
        fun name => name.toList.all isPlain) = true := by decide +kernel
  simpa only [List.all_eq_true, PlainNames] using hall

theorem emptyDesign_lost : ¬ LegacyRoundTrip noRules defaultNaming (parseMuxes emptyDesign) := by
  intro h
  have hread : readSource (fileText (emitLegacy noRules defaultNaming (parseMuxes emptyDesign))) =
      none := by decide +kernel
  rw [h.read] at hread
  cases hread

/-- The lists of a mux without pins are written as nothing between `=` and `;`. -/
theorem legacy_roundtrip_fails : ¬ ∀ (re : Regex) (naming : Naming) (root : Element),
    (∀ mux ∈ parseMuxes root, PlainNames re naming mux) →
      LegacyRoundTrip re naming (parseMuxes root) := fun h =>
  emptyDesign_lost (h noRules defaultNaming emptyDesign emptyDesign_plain)

theorem legacy_roundtrip_iff_sample :
    ¬ ∀ mux ∈ parseMuxes emptyDesign, mux.pins ≠ [] ∧ isLabel mux.inst = true := by
  rw [← legacy_roundtrip_iff emptyDesign_plain]
  exact emptyDesign_lost

end AximuxSystem.Tool
