import AximuxSystem.Foundation.DtsTree
import AximuxSystem.Tool.Children
import AximuxSystem.Tool.ConsumerWiring
import AximuxSystem.Tool.LegacyGroups
import AximuxSystem.Tool.LegacySource

/-!
# The emitted source as text

The lines of the emitted files are sound lines of a source file if the names of
the muxes and of the consumers are labels and the function names stand for
themselves in string literals. Then the text of a file is read as the nodes that
its lines spell; a name that is no label makes it unreadable.
-/

namespace AximuxSystem.Tool

open Collections Text Dts

variable {re : Regex} {naming : Naming} {mux : Mux} {muxes : List Mux}

/-- The function names of the pins stand for themselves in string literals. -/
def PlainFunctions (re : Regex) (naming : Naming) (mux : Mux) : Prop :=
  ∀ pin ∈ mux.pins, ∀ name ∈ functionNames re naming mux pin, ∀ c ∈ name.toList, isPlain c = true

/-! ### Values -/

theorem head_intercalate {sep s : String} (ss : List String) (h : s.toList.head? = some '"') :
    (sep.intercalate (s :: ss)).toList.head? = some '"' := by
  cases ss with
  | nil => rwa [String.intercalate_singleton]
  | cons t ss =>
    have hne : s.toList ≠ [] := by
      intro hnil
      rw [hnil] at h
      cases h
    rw [String.intercalate_cons_cons, String.append_assoc, String.toList_append,
      List.head?_append_of_ne_nil _ hne, h]

theorem head_csvRow {xs : List String} (hne : xs ≠ []) : (csvRow xs).toList.head? = some '"' := by
  obtain ⟨x, xs, rfl⟩ := List.exists_cons_of_ne_nil hne
  exact head_intercalate _ (by rw [quote_toList]; rfl)

theorem head_csvStrings {xs : List String} (hne : xs ≠ []) (indent : ℕ) :
    (csvStrings xs indent).toList.head? = some '"' := by
  obtain ⟨rows, hrows, htext⟩ := csvStrings_eq xs indent
  have hrowsne : rows ≠ [] := by
    rintro rfl
    exact hne hrows.strings.symm
  obtain ⟨row, rows, rfl⟩ := List.exists_cons_of_ne_nil hrowsne
  rw [htext, List.map_cons]
  exact head_intercalate _ (head_csvRow (hrows.ne_nil row List.mem_cons_self))

theorem isValue_quote {s : String} (h : ∀ c ∈ s.toList, isPlain c = true) :
    IsValue (quote s).toList :=
  isValue_of_spells (spells_iff.mpr (SpellsWith.quote (by decide) h)) (by rw [quote_toList]; rfl)

theorem isValue_csvStrings {xs : List String} (hne : xs ≠ [])
    (h : ∀ x ∈ xs, ∀ c ∈ x.toList, isPlain c = true) (indent : ℕ) :
    IsValue (csvStrings xs indent).toList :=
  isValue_of_spells (spells_csvStrings hne h indent) (head_csvStrings hne indent)

/-- Text between angle brackets. -/
theorem isValue_angle {s : String} (h : ∀ c ∈ s.toList, isValueChar c = true) :
    IsValue ("<" ++ s ++ ">").toList := by
  rw [String.toList_append, String.toList_append]
  exact isValue_of_chars ⟨'<', rfl, rfl⟩ (List.forall_mem_append.mpr
    ⟨List.forall_mem_append.mpr ⟨List.all_eq_true.mp rfl, h⟩, List.all_eq_true.mp rfl⟩)

theorem isWordChar_toString {n : ℕ} : ∀ c ∈ (toString n).toList, isWordChar c = true := by
  intro c hc
  rw [isWordChar, Char.isAlphanum, isDigit_of_mem_toString hc, Bool.or_true, Bool.true_or]

theorem isValueChar_of_isWordChar {c : Char} (h : isWordChar c = true) : isValueChar c = true := by
  rw [isValueChar, h, Bool.true_or, Bool.true_or]

theorem intercalate_chars {P : Char → Prop} {sep : String} {ss : List String}
    (hsep : ∀ c ∈ sep.toList, P c) (h : ∀ s ∈ ss, ∀ c ∈ s.toList, P c) :
    ∀ c ∈ (sep.intercalate ss).toList, P c := by
  induction ss with
  | nil => simp
  | cons s ss ih =>
    rw [List.forall_mem_cons] at h
    cases ss with
    | nil => rw [String.intercalate_singleton]; exact h.1
    | cons t ss =>
      rw [String.intercalate_cons_cons, String.toList_append, String.toList_append]
      exact List.forall_mem_append.mpr ⟨List.forall_mem_append.mpr ⟨h.1, hsep⟩, ih h.2⟩

theorem isValue_cells (ns : List ℕ) :
    IsValue ("<" ++ " ".intercalate (ns.map toString) ++ ">").toList :=
  isValue_angle (intercalate_chars (List.all_eq_true.mp rfl) (List.forall_mem_map.mpr
    fun _ _ c hc => isValueChar_of_isWordChar (isWordChar_toString c hc)))

/-! ### Lines -/

theorem isLabel_pinLabel {inst : String} (h : isLabel inst = true) (pin : ℕ) :
    isLabel (pinLabel inst pin) = true :=
  isLabel_append (isLabel_append h (List.all_eq_true.mp rfl)) isWordChar_toString

theorem isLabel_groupLabel {name : String} (h : ∀ c ∈ name.toList, isWordChar c = true) :
    isLabel (groupLabel name) = true :=
  isLabel_append (by decide) h

theorem isNodeName_pinNodeName (pin : ℕ) : isNodeName (pinNodeName pin) = true := by
  have hchars : (pinNodeName pin).toList = "pin@".toList ++ (toString pin).toList :=
    String.toList_append
  refine isNodeName_of_chars (by rw [hchars]; simp) ?_
  rw [hchars]
  exact List.forall_mem_append.mpr
    ⟨List.all_eq_true.mp rfl, fun c hc => isNodeChar_of_isWordChar (isWordChar_toString c hc)⟩

theorem isNodeName_groupNodeName {name : String} (h : ∀ c ∈ name.toList, isWordChar c = true) :
    isNodeName (groupNodeName name) = true := by
  have hchars : (groupNodeName name).toList = name.toList ++ "-grp".toList := String.toList_append
  refine isNodeName_of_chars (by rw [hchars]; simp) ?_
  rw [hchars]
  exact List.forall_mem_append.mpr
    ⟨fun c hc => isNodeChar_of_isWordChar (h c hc), List.all_eq_true.mp rfl⟩

theorem sound_blank {ls : List Line} (h : ∀ l ∈ ls, l.Sound) :
    ∀ l ∈ ls ++ [Line.text ""], l.Sound :=
  List.forall_mem_append.mpr ⟨h, List.forall_mem_singleton.mpr (.inl rfl)⟩

/-- A property line is sound if its name and its value are. -/
theorem sound_prop {name value : String} (hname : isPropName name = true)
    (hvalue : IsValue value.toList) :
    isPropName (name, value).1 = true ∧ IsValue (name, value).2.toList := ⟨hname, hvalue⟩

theorem sound_pinLines (hinst : isLabel mux.inst = true) {pin : Pin} (hpin : pin ∈ mux.pins)
    (hplain : PlainFunctions re naming mux) : ∀ l ∈ pinLines re naming mux pin, l.Sound := by
  have hreg : IsValue ("<" ++ toString pin.index ++ ">").toList :=
    isValue_angle fun c hc => isValueChar_of_isWordChar (isWordChar_toString c hc)
  have hnames : IsValue (csvStrings (functionNames re naming mux pin) 20).toList :=
    isValue_csvStrings (functionNames_ne re naming mux pin) (hplain pin hpin) 20
  refine sound_blank (sound_block (sound_props ?_ 4) ?_ (isNodeName_pinNodeName pin.index) 2)
  · rw [pinProps, List.forall_mem_cons, List.forall_mem_singleton]
    exact ⟨sound_prop (by decide) hreg, sound_prop (by decide) hnames⟩
  · rintro l ⟨⟩
    exact isLabel_pinLabel hinst pin.index

theorem sound_groupLines {name : String} {entries : List (ℕ × ℕ)}
    (hname : ∀ c ∈ name.toList, isWordChar c = true) (hne : entries ≠ []) :
    ∀ l ∈ groupLines name entries, l.Sound := by
  have hplain : ∀ c ∈ name.toList, isPlain c = true := fun c hc =>
    isPlain_of_isWordChar (hname c hc)
  have hnode : IsValue (quote (groupNodeName name)).toList := by
    refine isValue_quote ?_
    rw [groupNodeName, String.toList_append]
    exact List.forall_mem_append.mpr ⟨hplain, List.all_eq_true.mp rfl⟩
  have hpins : IsValue (", ".intercalate
      (entries.map fun e => quote ("pin" ++ toString e.1))).toList := by
    have hrowne : (entries.map fun e => Driver.pinName e.1) ≠ [] := by simpa using hne
    have hrow := isValue_of_spells (spells_csvRow hrowne
      (List.forall_mem_map.mpr fun e _ => isPlain_pinName e.1)) (head_csvRow hrowne)
    rwa [csvRow, List.map_map] at hrow
  have hmux : IsValue
      ("<" ++ " ".intercalate (entries.map fun e => toString e.2) ++ ">").toList := by
    have hcells := isValue_cells (entries.map Prod.snd)
    rwa [List.map_map] at hcells
  refine sound_blank (sound_block (sound_props ?_ 4) ?_ (isNodeName_groupNodeName hname) 2)
  · rw [groupProps, List.forall_mem_cons, List.forall_mem_cons, List.forall_mem_cons,
      List.forall_mem_cons, List.forall_mem_singleton]
    exact ⟨sound_prop (by decide) (isValue_quote hplain), sound_prop (by decide) hnode,
      sound_prop (by decide) hpins, sound_prop (by decide) (isValue_quote hplain),
      sound_prop (by decide) hmux⟩
  · rintro l ⟨⟩
    exact isLabel_groupLabel hname

theorem sound_controllerLines (hinst : isLabel mux.inst = true)
    (hplain : PlainFunctions re naming mux) : ∀ l ∈ controllerLines re naming mux, l.Sound := by
  have hprops : ∀ p ∈ controllerProps, isPropName p.1 = true ∧ IsValue p.2.toList := by
    rw [controllerProps, List.forall_mem_cons, List.forall_mem_cons, List.forall_mem_cons,
      List.forall_mem_singleton]
    exact ⟨sound_prop (by decide) (isValue_quote (List.all_eq_true.mp rfl)),
      sound_prop (by decide) (isValue_cells [1]), sound_prop (by decide) (isValue_cells [0]),
      sound_prop (by decide) (isValue_cells [0])⟩
  refine sound_blank (sound_block ?_ (by simp) ?_ 0)
  · refine List.forall_mem_append.mpr ⟨List.forall_mem_append.mpr
      ⟨sound_blank (sound_props hprops 2), fun l hl => ?_⟩, fun l hl => ?_⟩
    · exact sound_flatMap (fun pin hpin => sound_pinLines hinst hpin hplain) l hl
    · exact sound_flatMap (fun grp hgrp =>
        sound_groupLines (emittedGroups_chars hgrp) (emittedGroups_ne hgrp)) l hl
  · rw [isNodeName_reference]
    exact hinst

theorem sound_consumerLines {item : String × List String} (hcons : isLabel item.1 = true)
    (hlabel : ∀ c ∈ (item.2.headD "").toList, isWordChar c = true) :
    ∀ l ∈ consumerLines item.1 item.2, l.Sound := by
  have hreference : IsValue ("<&" ++ item.2.headD "" ++ ">").toList := by
    have hangle := isValue_angle (s := "&" ++ item.2.headD "") (by
      rw [String.toList_append]
      exact List.forall_mem_append.mpr
        ⟨List.all_eq_true.mp rfl, fun c hc => isValueChar_of_isWordChar (hlabel c hc)⟩)
    rwa [← String.append_assoc] at hangle
  refine sound_blank (sound_block (sound_props ?_ 2) (by simp) ?_ 0)
  · rw [consumerProps, List.forall_mem_cons, List.forall_mem_singleton]
    exact ⟨sound_prop (by decide) (isValue_quote (List.all_eq_true.mp rfl)),
      sound_prop (by decide) hreference⟩
  · rw [isNodeName_reference]
    exact hcons

/-! ### The file -/

theorem emitPinctrl2_last (re : Regex) (naming : Naming) (muxes : List Mux) :
    (emitPinctrl2 re naming muxes).getLast? = some (.text "") := by
  refine getLast?_flatMap_blank (fun item _ => ?_) ?_
  · rw [consumerLines, List.getLast?_concat]
  · rw [List.getLast?_append]
    rfl

/-- A consumer that gets a node: a device label that is served and not to be skipped. -/
def IsWired (re : Regex) (naming : Naming) (muxes : List Mux) (cons : String) : Prop :=
  cons ≠ "" ∧ cons ∉ naming.skipConsumers ∧ ∃ g, Serves re naming muxes g cons

theorem byConsumer_headD {cons : String} {plabels : List String}
    (h : (byConsumer re naming muxes).get? cons = some plabels) :
    ∀ c ∈ (plabels.headD "").toList, isWordChar c = true := by
  obtain ⟨g, hhead, ⟨mux, -, grp, hgrp, -⟩, -⟩ := first_group h
  rw [hhead, groupLabel, String.toList_append]
  exact List.forall_mem_append.mpr
    ⟨List.all_eq_true.mp rfl, groups_chars ((Dict.mem_keys _).mpr ⟨grp, hgrp⟩)⟩

theorem sound_emitPinctrl2 (hplain : ∀ mux ∈ muxes, PlainFunctions re naming mux)
    (hmuxes : ∀ mux ∈ muxes, isLabel mux.inst = true)
    (hcons : ∀ cons, IsWired re naming muxes cons → isLabel cons = true) :
    ∀ l ∈ emitPinctrl2 re naming muxes, l.Sound := by
  have hblank : (Line.text "").Sound := .inl rfl
  have hstyle := sound_comment " AUTO-GENERATED from system.hwh — brunosmmm,aximux-2.0 style. "
    (by rw [String.toList_ofList]; decide)
  have hwiring := sound_comment " Includes mux pins/groups AND consumer pinctrl-0 wiring. "
    (by rw [String.toList_ofList]; decide)
  have hconsumers := sound_comment " AUTO: consumer pinctrl-0 from HWH peer instances. "
    (by rw [String.toList_ofList]; decide)
  rw [emitPinctrl2, List.forall_mem_append, List.forall_mem_append, List.forall_mem_append,
    List.forall_mem_cons, List.forall_mem_cons, List.forall_mem_singleton, List.forall_mem_cons,
    List.forall_mem_singleton]
  refine ⟨⟨⟨⟨hstyle, hwiring, hblank⟩, ?_⟩, hconsumers, hblank⟩, ?_⟩
  · exact sound_flatMap fun mux hmux => sound_controllerLines (hmuxes mux hmux) (hplain mux hmux)
  · refine sound_flatMap fun item hitem => ?_
    have hget : (byConsumer re naming muxes).get? item.1 = some item.2 :=
      (Dict.mem_sortedItems _).mp hitem
    have hkey := mem_byConsumer_keys.mp ((Dict.mem_keys _).mpr ⟨item.2, hget⟩)
    exact sound_consumerLines (hcons item.1 hkey) (byConsumer_headD hget)

/-- The text of the file is read as the nodes of the muxes and the consumers exactly if the names
of the muxes and of the consumers are labels. -/
theorem readTree_emitPinctrl2_iff (hplain : ∀ mux ∈ muxes, PlainFunctions re naming mux) :
    readTree (fileText (emitPinctrl2 re naming muxes)) =
        some (muxes.map (controllerNode re naming) ++
          (byConsumer re naming muxes).sortedItems.map consumerNode) ↔
      (∀ mux ∈ muxes, isLabel mux.inst = true) ∧
        ∀ cons, IsWired re naming muxes cons → isLabel cons = true := by
  constructor
  · intro h
    have hnamed := readTree_named h
    refine ⟨fun mux hmux => ?_, fun cons hcons => ?_⟩
    · have hnode := (hnamed _ (List.mem_append_left _ (List.mem_map_of_mem hmux))).name_ok
      rwa [controllerNode, Node.name, isNodeName_reference] at hnode
    · obtain ⟨plabels, hget⟩ := (Dict.mem_keys _).mp (mem_byConsumer_keys.mpr hcons)
      have hnode := (hnamed _ (List.mem_append_right _
        (List.mem_map_of_mem ((Dict.mem_sortedItems _).mpr hget)))).name_ok
      rwa [consumerNode, Node.name, isNodeName_reference] at hnode
  · rintro ⟨hmuxes, hcons⟩
    rw [readTree_fileText (sound_emitPinctrl2 hplain hmuxes hcons)
      (emitPinctrl2_last re naming muxes), readFile_emitPinctrl2]

/-! ### The file of legacy groups -/

theorem sound_legacyGroupLines {key : String} (hkey : key ≠ "") (pins : List ℕ) :
    ∀ l ∈ legacyGroupLines key pins, l.Sound := by
  have hchars := sanitize_chars key
  have hne : (sanitize key).toList ≠ [] := by
    rw [sanitize, String.toList_ofList, ne_eq, List.map_eq_nil_iff, String.toList_eq_nil_iff]
    exact hkey
  have hnode : ∀ c ∈ (sanitize key).toList, isNodeChar c = true := fun c hc =>
    isNodeChar_of_isWordChar (hchars c hc)
  have hname : isNodeName (sanitize key ++ "group1") = true := by
    refine isNodeName_of_chars (by rw [String.toList_append]; simp) ?_
    rw [String.toList_append]
    exact List.forall_mem_append.mpr ⟨hnode, List.all_eq_true.mp rfl⟩
  refine sound_block (sound_block (sound_props ?_ 6) ?_ hname 4) (by simp)
    (isNodeName_of_chars hne hnode) 2
  · rw [List.forall_mem_singleton]
    exact sound_prop (by decide) (isValue_cells _)
  · rintro l ⟨⟩
    exact isLabel_groupLabel hchars

theorem emitConsumers_last (re : Regex) (naming : Naming) (muxes : List Mux) :
    (emitConsumers re naming muxes).getLast? = some (.text "") :=
  getLast?_flatMap_blank (fun _ _ => List.getLast?_concat) rfl

/-- Every instance with legacy groups can be referred to, and no group is without a name. -/
def LegacyNamed (re : Regex) (naming : Naming) (muxes : List Mux) : Prop :=
  ∀ inst groups, (legacyGroups re naming muxes).get? inst = some groups →
    isLabel inst = true ∧ "" ∉ groups.keys

theorem sound_emitConsumers (h : LegacyNamed re naming muxes) :
    ∀ l ∈ emitConsumers re naming muxes, l.Sound := by
  have hheader := sound_comment
    " AUTO-GENERATED consumer pin groups from HWH (legacy aximux groups). "
    (by rw [String.toList_ofList]; decide)
  have hblank : (Line.text "").Sound := .inl rfl
  rw [emitConsumers, List.forall_mem_append, List.forall_mem_cons, List.forall_mem_singleton]
  refine ⟨⟨hheader, hblank⟩, sound_flatMap fun item hitem => ?_⟩
  obtain ⟨hinst, hkeys⟩ := h item.1 item.2 ((Dict.mem_sortedItems _).mp hitem)
  refine sound_blank (sound_block (sound_flatMap fun grp hgrp => ?_) (by simp) ?_ 0)
  · refine sound_legacyGroupLines (fun hkey => hkeys ?_) grp.2
    rw [← hkey]
    exact (Dict.mem_keys _).mpr ⟨grp.2, (Dict.mem_sortedItems _).mp hgrp⟩
  · rw [isNodeName_reference]
    exact hinst

theorem readTree_emitConsumers_iff : readTree (fileText (emitConsumers re naming muxes)) =
      some ((legacyGroups re naming muxes).sortedItems.map legacyInstNode) ↔
    LegacyNamed re naming muxes := by
  constructor
  · intro h inst groups hget
    have hnode := readTree_named h _
      (List.mem_map_of_mem ((Dict.mem_sortedItems _).mpr hget))
    refine ⟨?_, fun hkey => ?_⟩
    · have hname := hnode.name_ok
      rwa [legacyInstNode, Node.name, isNodeName_reference] at hname
    · obtain ⟨pins, hpins⟩ := (Dict.mem_keys _).mp hkey
      have hgroup : isNodeName (sanitize "") = true := (hnode.children_ok _
        (List.mem_map_of_mem ((Dict.mem_sortedItems _).mpr hpins))).name_ok
      exact absurd hgroup (by decide)
  · intro h
    rw [readTree_fileText (sound_emitConsumers h) (emitConsumers_last re naming muxes),
      readFile_emitConsumers]

/-! ### The file of two lists for each mux -/

theorem readSource_emitLegacy_iff (hplain : ∀ mux ∈ muxes, PlainNames re naming mux) :
    readSource (fileText (emitLegacy re naming muxes)) = some (muxes.map (legacyNode re naming)) ↔
      ∀ mux ∈ muxes, mux.pins ≠ [] ∧ isLabel mux.inst = true := by
  refine ⟨fun h mux hmux => ?_, fun h => readSource_emitLegacy h hplain⟩
  have hnode := readSource_wellFormed h _ (List.mem_map_of_mem hmux)
  refine ⟨fun hpins => ?_, hnode.label⟩
  refine hnode.props ("signal-names", signalNames re naming mux) List.mem_cons_self ?_
  rw [signalNames, hpins, List.map_nil]

end AximuxSystem.Tool
