import AximuxSystem.Tool.GroupAgreement
import AximuxSystem.Tool.Nodes

/-!
# Legacy consumer groups

`emit_consumers` writes for every mux which pins its peripherals take. The
groups are read back from the output, and compared with the alternate names
`emit_legacy` gives to the same pins.
-/

namespace AximuxSystem.Tool

open Collections Text Dts

variable {re : Regex} {naming : Naming} {muxes : List Mux} {mux : Mux}

/-! ### The pins of a group -/

/-- `emit_consumers` lists the pin in the group of a key of an instance. -/
def LegacyListed (re : Regex) (naming : Naming) (muxes : List Mux) (inst key : String) (p : ℕ) :
    Prop :=
  ∃ groups pins, (legacyGroups re naming muxes).get? inst = some groups ∧
    groups.get? key = some pins ∧ p ∈ pins

/-- A group holds the pins its members contribute, at least one. -/
theorem legacyGroups_pins {inst key : String} {pins : List ℕ} :
    (∃ groups, (legacyGroups re naming muxes).get? inst = some groups ∧
      groups.get? key = some pins) ↔
    pins = ((((muxes.flatMap fun mux => (mux.legacyMembers re naming).map fun m =>
      (mux.inst, m)).filter (·.1 = inst)).filter (·.2.1 = key)).map (·.2.2)) ∧ pins ≠ [] :=
  get?_foldl_groups

theorem legacyListed_iff {inst key : String} {p : ℕ} :
    LegacyListed re naming muxes inst key p ↔
      ∃ mux ∈ muxes, mux.inst = inst ∧ (key, p) ∈ mux.legacyMembers re naming := by
  constructor
  · rintro ⟨groups, pins, hgroups, hpins, hp⟩
    obtain ⟨rfl, -⟩ := legacyGroups_pins.mp ⟨groups, hgroups, hpins⟩
    simp only [List.mem_map, List.mem_filter, List.mem_flatMap, decide_eq_true_eq] at hp
    obtain ⟨x, ⟨⟨⟨mux, hmux, m, hm, rfl⟩, hinst⟩, hkey⟩, hp⟩ := hp
    obtain ⟨key', p'⟩ := m
    obtain rfl : key' = key := hkey
    obtain rfl : p' = p := hp
    exact ⟨mux, hmux, hinst, hm⟩
  · rintro ⟨mux, hmux, rfl, hm⟩
    have hmem : p ∈ (((muxes.flatMap fun mux => (mux.legacyMembers re naming).map fun m =>
        (mux.inst, m)).filter (·.1 = mux.inst)).filter (·.2.1 = key)).map (·.2.2) := by
      simp only [List.mem_map, List.mem_filter, List.mem_flatMap, decide_eq_true_eq]
      exact ⟨(mux.inst, key, p), ⟨⟨⟨mux, hmux, (key, p), hm, rfl⟩, rfl⟩, rfl⟩, rfl⟩
    obtain ⟨groups, hgroups, hpins⟩ := legacyGroups_pins.mpr ⟨rfl, List.ne_nil_of_mem hmem⟩
    exact ⟨groups, _, hgroups, hpins, hmem⟩

/-! ### What the output says -/

/-- The numbers written for the pins of a group. -/
def legacyCells (pins : List ℕ) : List ℕ := pins.dedup.insertionSort (· ≤ ·)

theorem mem_legacyCells {pins : List ℕ} {p : ℕ} : p ∈ legacyCells pins ↔ p ∈ pins := by
  rw [legacyCells, (List.perm_insertionSort _ _).mem_iff, List.mem_dedup]

def legacyGroupNode (item : String × List ℕ) : Node :=
  .mk none (sanitize item.1) []
    [.mk (some (groupLabel (sanitize item.1))) (sanitize item.1 ++ "group1")
      [("pins", "<" ++ " ".intercalate ((legacyCells item.2).map toString) ++ ">")] []]

def legacyInstNode (item : String × Dict String (List ℕ)) : Node :=
  .mk none ("&" ++ item.1) [] (item.2.sortedItems.map legacyGroupNode)

theorem readFile_emitConsumers (re : Regex) (naming : Naming) (muxes : List Mux) :
    readFile (emitConsumers re naming muxes) =
      some ((legacyGroups re naming muxes).sortedItems.map legacyInstNode) := by
  have hgroup (item : String × List ℕ) :
      Adds (legacyGroupLines item.1 item.2) [] [legacyGroupNode item] :=
    ((Adds.props 6 _).block 4 _ _).block 2 none (sanitize item.1)
  have hinst : Adds ((legacyGroups re naming muxes).sortedItems.flatMap fun item =>
      block 0 none ("&" ++ item.1)
        (item.2.sortedItems.flatMap fun grp => legacyGroupLines grp.1 grp.2) ++ [.text ""]) []
      ((legacyGroups re naming muxes).sortedItems.map legacyInstNode) :=
    Adds.flatMap fun item _ => adds_node (Adds.flatMap fun grp _ => hgroup grp) 0 none _
  exact readFile_of_adds (((Adds.text "").text_cons _).append hinst)

/-- A pin is written under the name of a group exactly if it is listed for a key of that name. -/
theorem legacy_written_iff {inst name : String} {p : ℕ} :
    (∃ nodes node grp leaf value cells, readFile (emitConsumers re naming muxes) = some nodes ∧
      node ∈ nodes ∧ node.name = "&" ++ inst ∧ grp ∈ node.children ∧ grp.name = name ∧
      leaf ∈ grp.children ∧ leaf.props.lookup "pins" = some value ∧
      readCells value = some cells ∧ p ∈ cells) ↔
    ∃ key, sanitize key = name ∧ LegacyListed re naming muxes inst key p := by
  have hcells {groups : Dict String (List ℕ)} {key : String} {pins : List ℕ}
      (hgroups : (legacyGroups re naming muxes).get? inst = some groups)
      (hpins : groups.get? key = some pins) :
      readCells ("<" ++ " ".intercalate ((legacyCells pins).map toString) ++ ">") =
        some (legacyCells pins) := by
    obtain ⟨x, hx⟩ := List.exists_mem_of_ne_nil _ (legacyGroups_pins.mp ⟨groups, hgroups, hpins⟩).2
    exact readCells_toString (List.ne_nil_of_mem (mem_legacyCells.mpr hx))
  constructor
  · rintro ⟨nodes, node, grp, leaf, value, cells, hread, hnode, hname, hgrp, rfl, hleaf, hvalue,
      hread', hp⟩
    rw [readFile_emitConsumers] at hread
    cases hread
    obtain ⟨⟨inst', groups⟩, hitem, rfl⟩ := List.mem_map.mp hnode
    obtain rfl : inst' = inst := (String.append_right_inj _).mp hname
    obtain ⟨⟨key, pins⟩, hpins, rfl⟩ := List.mem_map.mp hgrp
    obtain rfl := List.mem_singleton.mp hleaf
    cases hvalue
    have hgroups := (Dict.mem_sortedItems _).mp hitem
    have hkey := (Dict.mem_sortedItems _).mp hpins
    rw [hcells hgroups hkey] at hread'
    cases hread'
    exact ⟨key, rfl, groups, pins, hgroups, hkey, mem_legacyCells.mp hp⟩
  · rintro ⟨key, rfl, groups, pins, hgroups, hpins, hp⟩
    refine ⟨_, legacyInstNode (inst, groups), legacyGroupNode (key, pins), _, _, _,
      readFile_emitConsumers re naming muxes,
      List.mem_map_of_mem ((Dict.mem_sortedItems _).mpr hgroups), rfl,
      List.mem_map_of_mem ((Dict.mem_sortedItems _).mpr hpins), rfl, List.mem_singleton_self _, rfl,
      hcells hgroups hpins, mem_legacyCells.mpr hp⟩

/-! ### Groups against alternate names -/

theorem legacyMember_eq (inst : String) (pin : ℕ) (a : Slot) :
    legacyMember re naming inst pin a = if a.alt ≠ 1 then none
      else a.legacyLabel.map fun raw =>
        (cutAtLastDot (applyNaming re (some raw) pin 1 naming inst), pin) := by
  unfold legacyMember Slot.legacyLabel
  split_ifs with halt
  · rfl
  · cases netLabel a.incoming with
    | none => rfl
    | some raw =>
      cases hnoise : isNoise (labelInst raw) <;> simp [Option.filter_some, isReal, hnoise]

/-- The legacy members of a mux are the first alternates with a label. -/
theorem mem_legacyMembers_iff {key : String} {p : ℕ} : (key, p) ∈ mux.legacyMembers re naming ↔
    ∃ pin ∈ mux.pins, pin.index = p ∧ ∃ a, pin.slot? 1 = some a ∧
      ∃ raw, a.legacyLabel = some raw ∧ key = cutAtLastDot (labelName re naming raw) := by
  have hname {a : Slot} {raw : String} (hraw : a.legacyLabel = some raw) (i : ℕ) :
      applyNaming re (some raw) i 1 naming mux.inst = labelName re naming raw :=
    applyNaming_label (netLabel_ne (Option.filter_eq_some_iff.mp hraw).1) one_ne_zero i mux.inst
  simp only [Mux.legacyMembers, List.mem_flatMap, List.mem_filterMap, legacyMember_eq]
  constructor
  · rintro ⟨pin, hpin, a, ha, hm⟩
    split_ifs at hm with halt
    obtain ⟨raw, hraw, heq⟩ := Option.map_eq_some_iff.mp hm
    rw [hname hraw, Prod.mk.injEq] at heq
    exact ⟨pin, hpin, heq.2, a, Pin.slot?_eq_some.mpr ⟨ha, not_not.mp halt⟩, raw, hraw, heq.1.symm⟩
  · rintro ⟨pin, hpin, rfl, a, hslot, raw, hraw, rfl⟩
    obtain ⟨ha, halt⟩ := Pin.slot?_eq_some.mp hslot
    refine ⟨pin, hpin, a, ha, ?_⟩
    rw [if_neg (not_not.mpr halt), hraw, Option.map_some, hname hraw]

/-- A pin is listed exactly in the group of its alternate name, if this is the name of a real
module, and in no group otherwise. -/
def LegacyAgree (re : Regex) (naming : Naming) (muxes : List Mux) : Prop :=
  ∀ mux ∈ muxes, ∀ key p, LegacyListed re naming muxes mux.inst key p ↔
    ∃ pin ∈ mux.pins, pin.index = p ∧ ∃ a, pin.slot? 1 = some a ∧
      (∃ l, slotLabel (some a) = some l ∧ isNoise (labelInst l) = false) ∧
      key = cutAtLastDot (alternateName re naming mux pin)

theorem legacyListed_of_mem (hinst : (muxes.map Mux.inst).Nodup) (hmux : mux ∈ muxes)
    {key : String} {p : ℕ} : LegacyListed re naming muxes mux.inst key p ↔
      (key, p) ∈ mux.legacyMembers re naming := by
  rw [legacyListed_iff]
  constructor
  · rintro ⟨mux', hmux', heq, hm⟩
    rwa [List.inj_on_of_nodup_map hinst hmux' hmux heq] at hm
  · exact fun hm => ⟨mux, hmux, rfl, hm⟩

/-- A real label of the first alternate is what the alternate name is made from. -/
theorem alternateName_realLabel {pin : Pin} (hpin : pin ∈ mux.pins) {a : Slot}
    (hslot : pin.slot? 1 = some a) {l : String} (hl : a.realLabel = some l) :
    alternateName re naming mux pin = labelName re naming l := by
  obtain ⟨ha, halt⟩ := Pin.slot?_eq_some.mp hslot
  have hfn : fnFor re mux pin.index a.alt naming = labelName re naming l :=
    fnFor_realLabel hpin ha (by omega) hl
  rw [alternateName_of_slot hslot, ← hfn, halt]

/-- Legacy groups and alternate names agree exactly if no first alternate has a real peer on its
outgoing net only. -/
theorem legacy_agree_iff (hinst : (muxes.map Mux.inst).Nodup) : LegacyAgree re naming muxes ↔
    ∀ mux ∈ muxes, ∀ pin ∈ mux.pins, ∀ a, pin.slot? 1 = some a → ¬ a.OutputOnly := by
  constructor
  · intro h mux hmux pin hpin a hslot honly
    obtain ⟨out, hout, hreal⟩ := honly.2
    obtain ⟨l, hl⟩ := realLabel_of_output hout hreal
    have hlisted := (h mux hmux _ pin.index).mpr
      ⟨pin, hpin, rfl, a, hslot, ⟨l, realLabel_eq_some.mp hl⟩, rfl⟩
    rw [legacyListed_of_mem hinst hmux, mem_legacyMembers_iff] at hlisted
    obtain ⟨pin', hpin', hindex, a', hslot', raw, hraw, -⟩ := hlisted
    obtain rfl := List.inj_on_of_nodup_map mux.indices_nodup hpin' hpin hindex
    rw [hslot] at hslot'
    cases hslot'
    rw [legacyLabel_of_outputOnly honly] at hraw
    cases hraw
  · intro h mux hmux key p
    rw [legacyListed_of_mem hinst hmux, mem_legacyMembers_iff]
    refine exists_congr fun pin => and_congr_right fun hpin => and_congr_right fun _ =>
      exists_congr fun a => and_congr_right fun hslot => ?_
    simp only [legacyLabel_eq_realLabel (h mux hmux pin hpin a hslot), ← realLabel_eq_some]
    constructor
    · rintro ⟨l, hl, rfl⟩
      exact ⟨⟨l, hl⟩, by rw [alternateName_realLabel hpin hslot hl]⟩
    · rintro ⟨⟨l, hl⟩, rfl⟩
      exact ⟨l, hl, by rw [alternateName_realLabel hpin hslot hl]⟩

theorem transmitDesign_insts : ((parseMuxes transmitDesign).map Mux.inst).Nodup := by
  decide +kernel

/-- The board offers `uart0.txd` as the alternate of the pin and no consumer group takes it. -/
theorem transmitDesign_disagrees :
    ¬ LegacyAgree noRules defaultNaming (parseMuxes transmitDesign) := by
  intro h
  have hslot : ∃ mux ∈ parseMuxes transmitDesign,
      mux.legacyMembers noRules defaultNaming = [] ∧ ∃ pin ∈ mux.pins, ∃ a, pin.slot? 1 = some a ∧
        slotLabel (some a) = some "axi_uart16550_0.sout" := by
    decide +kernel
  obtain ⟨mux, hmux, hmembers, pin, hpin, a, hslot, hlabel⟩ := hslot
  have hlisted := (h mux hmux _ _).mpr
    ⟨pin, hpin, rfl, a, hslot, ⟨_, hlabel, by decide +kernel⟩, rfl⟩
  rw [legacyListed_of_mem transmitDesign_insts hmux, hmembers] at hlisted
  cases hlisted

theorem legacy_disagree : ¬ ∀ (re : Regex) (naming : Naming) (root : Element),
    ((parseMuxes root).map Mux.inst).Nodup → LegacyAgree re naming (parseMuxes root) := fun h =>
  transmitDesign_disagrees (h noRules defaultNaming transmitDesign transmitDesign_insts)

theorem legacy_agree_iff_sample : ¬ ∀ mux ∈ parseMuxes transmitDesign, ∀ pin ∈ mux.pins,
    ∀ a, pin.slot? 1 = some a → ¬ a.OutputOnly := by
  rw [← legacy_agree_iff transmitDesign_insts]
  exact transmitDesign_disagrees

end AximuxSystem.Tool
