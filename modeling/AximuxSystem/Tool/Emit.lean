import AximuxSystem.Foundation.DtsText
import AximuxSystem.Tool.Groups

/-!
# Emitted device tree source

`emit_pinctrl2` and `emit_consumers`, line by line, and the nodes the lines
spell. The comment with which every output begins is left out.
-/

namespace AximuxSystem.Tool

open Collections Text Dts

/-! ### String lists -/

/-- Rows written so far, the row being filled, and its width. -/
structure CsvState where
  rows : List String
  row : List String
  width : ℕ

def csvStep (s : CsvState) (p : String) : CsvState :=
  if s.row ≠ [] ∧ s.width + p.length + 2 > 70 then
    ⟨s.rows ++ [", ".intercalate s.row], [p], p.length + 2⟩
  else ⟨s.rows, s.row ++ [p], s.width + p.length + 2⟩

/-- `_csv_strings` with the indent as a number of spaces -/
def csvStrings (xs : List String) (indent : ℕ) : String :=
  let s := (xs.map quote).foldl csvStep ⟨[], [], 0⟩
  let rows := if s.row ≠ [] then s.rows ++ [", ".intercalate s.row] else s.rows
  (",\n" ++ Line.spaces indent).intercalate rows

/-! ### The controller node of a mux -/

def pinLabel (inst : String) (pin : ℕ) : String := inst ++ "_pin" ++ toString pin

def pinNodeName (pin : ℕ) : String := "pin@" ++ toString pin

def groupLabel (name : String) : String := "pinctrl_" ++ name

def groupNodeName (name : String) : String := name ++ "-grp"

theorem pinLabel_inj {inst inst' : String} {i j : ℕ} (h : pinLabel inst i = pinLabel inst' j) :
    inst = inst' ∧ i = j := by
  have hend : ∀ inst, EndsPlain (inst ++ "_pin") := by
    intro inst c hc
    rw [String.toList_append, List.getLast?_append_of_ne_nil _ (by decide)] at hc
    cases hc
    rfl
  obtain ⟨hinst, hi⟩ := append_number_inj (hend inst) (hend inst') h
  exact ⟨(String.append_left_inj _).mp hinst, hi⟩

theorem pinNodeName_injective : Function.Injective pinNodeName := fun _ _ h =>
  toString_injective ((String.append_right_inj _).mp h)

theorem groupLabel_injective : Function.Injective groupLabel := fun _ _ h =>
  (String.append_right_inj _).mp h

theorem groupNodeName_injective : Function.Injective groupNodeName := fun _ _ h =>
  (String.append_left_inj _).mp h

theorem groupNodeName_endsPlain (name : String) : EndsPlain (groupNodeName name) := by
  intro c hc
  rw [groupNodeName, String.toList_append, List.getLast?_append_of_ne_nil _ (by decide)] at hc
  cases hc
  rfl

variable (re : Regex) (naming : Naming)

/-- The largest alternate of a pin; 0 for a pin without slots. -/
def Pin.maxAlt (pin : Pin) : ℕ := (pin.alts.map Slot.alt).foldr max 0

theorem Pin.maxAlt_le (pin : Pin) {n : ℕ} (h : ∀ a ∈ pin.alts, a.alt ≤ n) : pin.maxAlt ≤ n := by
  rw [Pin.maxAlt]
  generalize pin.alts = alts at h ⊢
  induction alts with
  | nil => exact Nat.zero_le n
  | cons a alts ih =>
    rw [List.forall_mem_cons] at h
    exact max_le h.1 (ih h.2)

def functionNames (mux : Mux) (pin : Pin) : List String :=
  (List.range (pin.maxAlt + 1)).map fun a => fnFor re mux pin.index a naming

def pinProps (mux : Mux) (pin : Pin) : List (String × String) :=
  [("reg", "<" ++ toString pin.index ++ ">"),
    ("function-names", csvStrings (functionNames re naming mux pin) 20)]

def pinLines (mux : Mux) (pin : Pin) : List Line :=
  block 2 (some (pinLabel mux.inst pin.index)) (pinNodeName pin.index)
    (Line.props 4 (pinProps re naming mux pin)) ++
  [.text ""]

def groupProps (name : String) (entries : List (ℕ × ℕ)) : List (String × String) :=
  [("function", quote name),
    ("groups", quote (groupNodeName name)),
    ("brunosmmm,pins", ", ".intercalate (entries.map fun e => quote ("pin" ++ toString e.1))),
    ("brunosmmm,function", quote name),
    ("brunosmmm,mux", "<" ++ " ".intercalate (entries.map fun e => toString e.2) ++ ">")]

/-- The node of a group, and of an alias of one. -/
def groupLines (name : String) (entries : List (ℕ × ℕ)) : List Line :=
  block 2 (some (groupLabel name)) (groupNodeName name) (Line.props 4 (groupProps name entries)) ++
  [.text ""]

/-- The aliases of groups the mux has, under their emitted names, with the entries of the groups. -/
def Mux.aliases (mux : Mux) : List (String × List (ℕ × ℕ)) :=
  naming.groupAliases.items.filterMap fun item =>
    ((collectPinctrl2Groups re naming mux).get? item.1).map fun grp =>
      (sanitize item.2, grp.entries)

/-- The groups and then the aliases of a mux, as they are written. -/
def Mux.emittedGroups (mux : Mux) : List (String × List (ℕ × ℕ)) :=
  ((collectPinctrl2Groups re naming mux).sortedItems.map fun item => (item.1, item.2.entries)) ++
    mux.aliases re naming

section EmittedGroups

variable {re naming} {mux : Mux} {name : String} {entries : List (ℕ × ℕ)}

theorem mem_aliases : (name, entries) ∈ mux.aliases re naming ↔
    ∃ g grp target, (collectPinctrl2Groups re naming mux).get? g = some grp ∧
      naming.groupAliases.get? g = some target ∧ name = sanitize target ∧
        entries = grp.entries := by
  simp only [Mux.aliases, List.mem_filterMap, Option.map_eq_some_iff, Prod.exists, Prod.mk.injEq,
    Dict.mem_items]
  constructor
  · rintro ⟨g, target, halias, grp, hgrp, rfl, rfl⟩
    exact ⟨g, grp, target, hgrp, halias, rfl, rfl⟩
  · rintro ⟨g, grp, target, hgrp, halias, rfl, rfl⟩
    exact ⟨g, target, halias, grp, hgrp, rfl, rfl⟩

/-- What is emitted is a collected group, under its own name or under an alias. -/
theorem mem_emittedGroups : (name, entries) ∈ mux.emittedGroups re naming ↔
    ∃ g grp, (collectPinctrl2Groups re naming mux).get? g = some grp ∧ entries = grp.entries ∧
      (name = g ∨ ∃ target, naming.groupAliases.get? g = some target ∧ name = sanitize target) := by
  rw [Mux.emittedGroups, List.mem_append, mem_aliases]
  simp only [List.mem_map, Prod.exists, Dict.mem_sortedItems, Prod.mk.injEq]
  constructor
  · rintro (⟨g, grp, hgrp, rfl, rfl⟩ | ⟨g, grp, target, hgrp, halias, rfl, rfl⟩)
    · exact ⟨g, grp, hgrp, rfl, .inl rfl⟩
    · exact ⟨g, grp, hgrp, rfl, .inr ⟨target, halias, rfl⟩⟩
  · rintro ⟨g, grp, hgrp, rfl, rfl | ⟨target, halias, rfl⟩⟩
    · exact .inl ⟨name, grp, hgrp, rfl, rfl⟩
    · exact .inr ⟨g, grp, target, hgrp, halias, rfl, rfl⟩

theorem emittedGroups_chars (h : (name, entries) ∈ mux.emittedGroups re naming) :
    ∀ c ∈ name.toList, isWordChar c = true := by
  obtain ⟨g, grp, hgrp, -, rfl | ⟨target, -, rfl⟩⟩ := mem_emittedGroups.mp h
  · exact groups_chars (Dict.mem_keys _ |>.mpr ⟨grp, hgrp⟩)
  · exact sanitize_chars target

theorem emittedGroups_ne (h : (name, entries) ∈ mux.emittedGroups re naming) : entries ≠ [] := by
  obtain ⟨g, grp, hgrp, rfl, -⟩ := mem_emittedGroups.mp h
  exact groups_entries_ne hgrp

theorem emittedGroups_slot (h : (name, entries) ∈ mux.emittedGroups re naming) {e : ℕ × ℕ}
    (he : e ∈ entries) : ∃ pin ∈ mux.pins, ∃ a ∈ pin.alts, e = (pin.index, a.alt) := by
  obtain ⟨g, grp, hgrp, rfl, -⟩ := mem_emittedGroups.mp h
  exact groups_slot hgrp he

/-- The names of the groups and the aliases, in the order in which they are emitted. -/
theorem map_fst_emittedGroups (mux : Mux) : (mux.emittedGroups re naming).map Prod.fst =
    (collectPinctrl2Groups re naming mux).sortedItems.map Prod.fst ++
      (mux.aliases re naming).map Prod.fst := by
  rw [Mux.emittedGroups, List.map_append, List.map_map]
  rfl

/-- The items of the alias table whose groups the mux has. -/
def Mux.presentAliases (re : Regex) (naming : Naming) (mux : Mux) : List (String × String) :=
  naming.groupAliases.items.filter fun item =>
    ((collectPinctrl2Groups re naming mux).get? item.1).isSome

theorem map_fst_aliases (mux : Mux) : (mux.aliases re naming).map Prod.fst =
    (mux.presentAliases re naming).map fun item => sanitize item.2 := by
  rw [Mux.aliases, Mux.presentAliases]
  induction naming.groupAliases.items with
  | nil => rfl
  | cons item items ih =>
    cases hgrp : (collectPinctrl2Groups re naming mux).get? item.1 with
    | none => simpa [hgrp] using ih
    | some grp => simpa [hgrp] using ih

theorem mem_presentAliases {g target : String} : (g, target) ∈ mux.presentAliases re naming ↔
    g ∈ (collectPinctrl2Groups re naming mux).keys ∧ naming.groupAliases.get? g = some target := by
  rw [Mux.presentAliases, List.mem_filter, Dict.mem_items, Dict.mem_keys, and_comm,
    Option.isSome_iff_exists]

end EmittedGroups

def controllerProps : List (String × String) :=
  [("compatible", quote "brunosmmm,aximux-2.0"),
    ("#address-cells", "<1>"),
    ("#size-cells", "<0>"),
    ("#pinctrl-cells", "<0>")]

def controllerLines (mux : Mux) : List Line :=
  block 0 none ("&" ++ mux.inst)
    (Line.props 2 controllerProps ++ [.text ""] ++
      mux.pins.flatMap (pinLines re naming mux) ++
      (mux.emittedGroups re naming).flatMap (fun grp => groupLines grp.1 grp.2)) ++
  [.text ""]

/-! ### Consumers of the groups -/

/-- `set |= set` -/
def unionSet (xs ys : List String) : List String := ys.foldl addToSet xs

/-- The consumers of each group name, over all muxes. -/
def allGroups (muxes : List Mux) : Dict String (List String) :=
  (muxes.flatMap fun mux => (collectPinctrl2Groups re naming mux).sortedItems).foldl
    (fun groups item => groups.modify item.1 [] fun old => unionSet old item.2.consumers) Dict.empty

/-- The group labels that serve each consumer, in the order of the group names. -/
def byConsumer (muxes : List Mux) : Dict String (List String) :=
  ((allGroups re naming muxes).sortedItems.flatMap fun item =>
    ((item.2.insertionSort (· ≤ ·)).filter fun cons => !naming.skipConsumers.contains cons).map
      fun cons => (cons, groupLabel item.1)).foldl
    (fun d x => d.modify x.1 [] (· ++ [x.2])) Dict.empty

def consumerProps (plabels : List String) : List (String × String) :=
  [("pinctrl-names", quote "default"), ("pinctrl-0", "<&" ++ plabels.headD "" ++ ">")]

def consumerLines (cons : String) (plabels : List String) : List Line :=
  block 0 none ("&" ++ cons) (Line.props 2 (consumerProps plabels)) ++ [.text ""]

def emitPinctrl2 (muxes : List Mux) : List Line :=
  [.text "/* AUTO-GENERATED from system.hwh — brunosmmm,aximux-2.0 style. */",
    .text "/* Includes mux pins/groups AND consumer pinctrl-0 wiring. */",
    .text ""] ++
  muxes.flatMap (controllerLines re naming) ++
  [.text "/* AUTO: consumer pinctrl-0 from HWH peer instances. */", .text ""] ++
  (byConsumer re naming muxes).sortedItems.flatMap fun item => consumerLines item.1 item.2

/-! ### Legacy consumer groups -/

/-- The key and the pin an alternate contributes to the legacy groups. -/
def legacyMember (muxInst : String) (pin : ℕ) (a : Slot) : Option (String × ℕ) :=
  if a.alt ≠ 1 then none
  else
    match netLabel a.incoming with
    | none => none
    | some raw =>
      if isNoise (labelInst raw) then none
      else some (cutAtLastDot (applyNaming re (some raw) pin 1 naming muxInst), pin)

def Mux.legacyMembers (mux : Mux) : List (String × ℕ) :=
  mux.pins.flatMap fun pin => pin.alts.filterMap (legacyMember re naming mux.inst pin.index)

/-- The pins of each key of each instance. -/
def legacyGroups (muxes : List Mux) : Dict String (Dict String (List ℕ)) :=
  (muxes.flatMap fun mux => (mux.legacyMembers re naming).map fun m => (mux.inst, m)).foldl
    (fun d x => d.modify x.1 Dict.empty fun groups => groups.modify x.2.1 [] (· ++ [x.2.2]))
    Dict.empty

def legacyGroupLines (key : String) (pins : List ℕ) : List Line :=
  let name := sanitize key
  let cells := (pins.dedup.insertionSort (· ≤ ·)).map toString
  block 2 none name
    (block 4 (some (groupLabel name)) (name ++ "group1")
      (Line.props 6 [("pins", "<" ++ " ".intercalate cells ++ ">")]))

def emitConsumers (muxes : List Mux) : List Line :=
  [.text "/* AUTO-GENERATED consumer pin groups from HWH (legacy aximux groups). */", .text ""] ++
  (legacyGroups re naming muxes).sortedItems.flatMap fun item =>
    block 0 none ("&" ++ item.1)
      (item.2.sortedItems.flatMap fun grp => legacyGroupLines grp.1 grp.2) ++
    [.text ""]

end AximuxSystem.Tool
