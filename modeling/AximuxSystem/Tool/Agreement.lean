import AximuxSystem.Tool.Children
import AximuxSystem.Hardware.Programming

/-!
# The driver on emitted source

The driver accepts the children of an emitted controller node, its tables are
those the generator means, and selecting an emitted function by name gives every
pin the alternate the generator listed.
-/

namespace AximuxSystem.Tool

open Collections Text Dts Registers Driver Fallible Hardware

/-! ### Tables of an emitted controller node -/

/-- What is asked of the numbers and names of a mux on a core. -/
structure Emittable (re : Regex) (naming : Naming) (core : Core) (mux : Mux) : Prop where
  pins_ne : mux.pins ≠ []
  index_lt : ∀ pin ∈ mux.pins, pin.index < core.muxSignals
  alt_le : ∀ pin ∈ mux.pins, ∀ a ∈ pin.alts, a.alt ≤ core.altSignals
  plain : ∀ pin ∈ mux.pins, ∀ name ∈ functionNames re naming mux pin,
    ∀ c ∈ name.toList, isPlain c = true
  functions_nodup : ∀ pin ∈ mux.pins, (functionNames re naming mux pin).Nodup
  group_pins : ∀ g grp, (collectPinctrl2Groups re naming mux).get? g = some grp →
    (grp.entries.map Prod.fst).Nodup
  alias_fresh : ∀ name ∈ (mux.aliases re naming).map Prod.fst,
    name ∉ (collectPinctrl2Groups re naming mux).keys
  aliases_nodup : ((mux.aliases re naming).map Prod.fst).Nodup

theorem pinName_injective : Function.Injective pinName := fun _ _ h =>
  toString_injective ((String.append_right_inj _).mp h)

namespace Emittable

variable {re : Regex} {naming : Naming} {core : Core} {mux : Mux}

theorem maxAlt_le (h : Emittable re naming core mux) {pin : Pin} (hpin : pin ∈ mux.pins) :
    pin.maxAlt ≤ core.altSignals :=
  pin.maxAlt_le (h.alt_le pin hpin)

theorem names_nodup (h : Emittable re naming core mux) :
    ((mux.emittedGroups re naming).map Prod.fst).Nodup := by
  rw [map_fst_emittedGroups, List.nodup_append']
  refine ⟨Dict.nodup_sortedItems _, h.aliases_nodup, List.disjoint_right.mpr fun name hname => ?_⟩
  rw [((Dict.perm_sortedItems _).map Prod.fst).mem_iff]
  exact h.alias_fresh name hname

/-- The tables the generator means. -/
def tables (re : Regex) (naming : Naming) (core : Core) (mux : Mux) : Aximux :=
  assemble core.altSignals (mux.pins.map (pinRecord re naming mux))
    ((mux.emittedGroups re naming).map groupRecord)

theorem group_names_nodup (h : Emittable re naming core mux) :
    ((tables re naming core mux).groups.map AximuxGroup.name).Nodup := by
  have hpins := mux.indices_nodup.map pinName_injective
  have hgroups := h.names_nodup.map groupNodeName_injective
  rw [List.map_map] at hpins hgroups
  rw [tables, group_names, List.map_map, List.map_map, List.nodup_append']
  refine ⟨hpins, hgroups, List.disjoint_left.mpr fun name hpin hgrp => ?_⟩
  obtain ⟨pin, -, rfl⟩ := List.mem_map.mp hpin
  obtain ⟨grp, -, hname⟩ := List.mem_map.mp hgrp
  exact append_number_ne (groupNodeName_endsPlain grp.1) "pin" pin.index hname.symm

theorem pins_length (h : Emittable re naming core mux) : mux.pins.length ≤ core.muxSignals := by
  have hsub : mux.pins.map Pin.index ⊆ List.range core.muxSignals := by
    intro i hi
    obtain ⟨pin, hpin, rfl⟩ := List.mem_map.mp hi
    exact List.mem_range.mpr (h.index_lt pin hpin)
  simpa using (mux.indices_nodup.subperm hsub).length_le

/-- Every pin of the mux is found under the name the groups use. -/
theorem findPin_pinRecord {pin : Pin} (hpin : pin ∈ mux.pins) :
    findPin (mux.pins.map (pinRecord re naming mux)) (pinName pin.index) = .ok pin.index := by
  have hsome : ((mux.pins.map (pinRecord re naming mux)).find?
      (·.name == pinName pin.index)).isSome = true :=
    List.find?_isSome.mpr ⟨_, List.mem_map_of_mem hpin, beq_self_eq_true _⟩
  obtain ⟨entry, hentry⟩ := Option.isSome_iff_exists.mp hsome
  obtain ⟨pin', -, rfl⟩ := List.mem_map.mp (List.mem_of_find?_eq_some hentry)
  have hname := List.find?_some hentry
  exact findPin_eq_ok.mpr ⟨_, hentry, pinName_injective (beq_iff_eq.mp hname)⟩

section Children

variable {ps gs : List OfNode}

theorem pin_child (h : Emittable re naming core mux)
    (hps : List.Forall₂ (fun pin child => Represents (pinNode re naming mux pin) child) mux.pins ps)
    {child : OfNode} (hchild : child ∈ ps) :
    isPinNode child = true ∧ isGroupNode child = false := by
  obtain ⟨pin, hpin, hrep⟩ := exists_of_mem_forall₂ hps hchild
  exact ⟨hrep.isPinNode (h.plain pin hpin), (hrep.bindingPin (h.plain pin hpin)).not_group⟩

theorem group_child
    (hgs : List.Forall₂ (fun grp child => Represents (groupNode grp) child)
      (mux.emittedGroups re naming) gs) {child : OfNode} (hchild : child ∈ gs) :
    isPinNode child = false ∧ isGroupNode child = true := by
  obtain ⟨⟨name, entries⟩, hgrp, hrep⟩ := exists_of_mem_forall₂ hgs hchild
  have hne := emittedGroups_ne hgrp
  have hname := emittedGroups_chars hgrp
  exact ⟨(hrep.bindingGroup hne hname).not_pin, hrep.isGroupNode hne hname⟩

variable (h : Emittable re naming core mux)
  (hps : List.Forall₂ (fun pin child => Represents (pinNode re naming mux pin) child) mux.pins ps)
  (hgs : List.Forall₂ (fun grp child => Represents (groupNode grp) child)
    (mux.emittedGroups re naming) gs)

include h hps hgs

/-- The pin table of the children has an entry for every pin of the mux. -/
theorem pinTable_children : pinTable (infoPins core.info) (ps ++ gs) =
    .ok (mux.pins.map (pinRecord re naming mux)) := by
  have hnodes : pinNodes (ps ++ gs) = ps := by
    rw [pinNodes, List.filter_append, List.filter_eq_self.mpr fun c hc => (h.pin_child hps hc).1,
      List.filter_eq_nil_iff.mpr fun c hc => by simp [(group_child hgs hc).1], List.append_nil]
  have hlen := hps.length_eq
  have hps_ne : ps ≠ [] := by
    rintro rfl
    exact h.pins_ne (List.eq_nil_of_length_eq_zero hlen)
  have hle : ¬ ps.length > core.muxSignals := by
    have := h.pins_length
    omega
  rw [pinTable, hnodes, if_neg hps_ne, infoPins_info, if_neg hle, mapM_eq_ok,
    List.forall₂_map_right_iff]
  have hall := (List.forall₂_and_left _ _).mpr ⟨fun pin (hpin : pin ∈ mux.pins) => hpin, hps⟩
  exact (hall.imp fun pin child hrep =>
    hrep.2.pinEntry (h.plain pin hrep.1) (h.index_lt pin hrep.1)).flip

/-- The extra groups of the children are the emitted groups. -/
theorem extraTable_children :
    extraTable (mux.pins.map (pinRecord re naming mux)) (ps ++ gs) =
      .ok ((mux.emittedGroups re naming).map groupRecord) := by
  have hnodes : groupNodes (ps ++ gs) = gs := by
    rw [groupNodes, List.filter_append, List.filter_eq_self.mpr fun c hc => (group_child hgs hc).2,
      List.filter_eq_nil_iff.mpr fun c hc => by simp [(h.pin_child hps hc).2], List.nil_append]
  rw [extraTable, hnodes, mapM_eq_ok, List.forall₂_map_right_iff]
  have hall := (List.forall₂_and_left _ _).mpr
    ⟨fun grp (hgrp : grp ∈ mux.emittedGroups re naming) => hgrp, hgs⟩
  refine (hall.imp fun grp child hrep => ?_).flip
  refine hrep.2.extraEntry (emittedGroups_ne hrep.1) (emittedGroups_chars hrep.1) fun e he => ?_
  obtain ⟨pin, hpin, a, -, rfl⟩ := emittedGroups_slot hrep.1 he
  exact findPin_pinRecord hpin

end Children

/-- The driver builds the tables the generator means. -/
theorem driver_tables (h : Emittable re naming core mux) {np : List OfNode}
    (hnp : List.Forall₂ Represents (controllerNode re naming mux).children np) :
    Driver.tables core.info np = .ok (tables re naming core mux) := by
  have hN := core.muxSignals_le
  have hpos := core.muxSignals_pos
  obtain ⟨ps, gs, rfl, hps, hgs⟩ := controller_children hnp
  exact tables_eq_ok.mpr ⟨by rw [infoPins_info]; omega, by rw [infoPins_info]; exact hN, _, _,
    h.pinTable_children hps hgs, h.extraTable_children hps hgs, by rw [altLimit_info]; rfl⟩

end Emittable

/-! ### Selecting emitted functions -/

/-- Selecting `function` on `group` succeeds, sets SRC of every target to its alternate and changes
nothing else. -/
def Selects (amx : Aximux) (function group : String) (targets : List (ℕ × ℕ)) : Prop :=
  ∃ f g, functionSelector amx function = some f ∧ groupSelector amx group = some g ∧
    ∀ rf : RegFile ℕ 32, ∃ rf', (aximuxSetMux amx f g).run rf = (.ok (), rf') ∧
      (∀ e ∈ targets, srcField (rf' (aximuxReg e.1)) = e.2) ∧
      (∀ r i, 4 ≤ i → (rf' r).getLsbD i = (rf r).getLsbD i) ∧
      (∀ r, (∀ e ∈ targets, aximuxReg e.1 ≠ r) → rf' r = rf r)

theorem selects_of_routes {amx : Aximux} {function group : String} {targets : List (ℕ × ℕ)}
    (h : Routes amx function group targets) (hpins : (targets.map Prod.fst).Nodup) :
    Selects amx function group targets := by
  obtain ⟨f, g, hf, hg, hrun⟩ := h
  refine ⟨f, g, hf, hg, fun rf => ?_⟩
  obtain ⟨rf', hok, hsrc, hbits, hregs⟩ := hrun rf
  exact ⟨rf', hok, fun e he => hsrc e.1 e.2 (Grouping.lastOf_of_nodup hpins he), hbits, hregs⟩

section Selections

variable {re : Regex} {naming : Naming} {core : Core} {mux : Mux} {np : List OfNode}

/-- The default group of a pin selects every alternate by its emitted name. -/
theorem Emittable.pin_selects (h : Emittable re naming core mux)
    (hinv : TableInvariant (infoPins core.info) (Emittable.tables re naming core mux)) {pin : Pin}
    (hpin : pin ∈ mux.pins) {a : ℕ} (ha : a ≤ pin.maxAlt) :
    Selects (Emittable.tables re naming core mux) (fnFor re mux pin.index a naming)
      (pinName pin.index) [(pin.index, a)] :=
  selects_of_routes (pin_routes hinv h.group_names_nodup (List.mem_map_of_mem hpin)
    (h.functions_nodup pin hpin) (getElem?_functionNames ha) (ha.trans (h.maxAlt_le hpin)))
    (List.nodup_singleton _)

/-- An emitted group selects all its entries by its emitted function. -/
theorem Emittable.group_selects (h : Emittable re naming core mux)
    (hinv : TableInvariant (infoPins core.info) (Emittable.tables re naming core mux))
    {name : String} {entries : List (ℕ × ℕ)}
    (hgrp : (name, entries) ∈ mux.emittedGroups re naming) :
    Selects (Emittable.tables re naming core mux) name (groupNodeName name) entries := by
  have hvals : ∀ v ∈ (groupRecord (name, entries)).vals, v ≤ core.altSignals := by
    intro v hv
    obtain ⟨e, he, rfl⟩ := List.mem_map.mp hv
    obtain ⟨pin, hpin, a, ha, rfl⟩ := emittedGroups_slot hgrp he
    exact h.alt_le pin hpin a ha
  have hpins : (entries.map Prod.fst).Nodup := by
    obtain ⟨g, grp, hg, rfl, -⟩ := mem_emittedGroups.mp hgrp
    exact h.group_pins g grp hg
  have hroute := extra_routes hinv h.group_names_nodup (List.mem_map_of_mem hgrp) hvals
  have hzip : (entries.map Prod.fst).zip (entries.map Prod.snd) = entries := by
    rw [List.zip_map', List.map_id']
  refine selects_of_routes ?_ hpins
  rw [← hzip]
  exact hroute

/-- The driver accepts the emitted controller node of a mux, and selecting an emitted function on
an emitted group gives the pins the alternates the generator listed. -/
theorem emitted_selections_agree {muxes : List Mux} {i : ℕ} (hi : muxes[i]? = some mux)
    (h : Emittable re naming core mux) :
    ∃ nodes node, readFile (emitPinctrl2 re naming muxes) = some nodes ∧ nodes[i]? = some node ∧
      node.name = "&" ++ mux.inst ∧
      ∀ np, List.Forall₂ Represents node.children np → ∃ amx, Accepts core.info np amx ∧
        (∀ pin ∈ mux.pins, ∀ a ≤ pin.maxAlt,
          Selects amx (fnFor re mux pin.index a naming) (pinName pin.index) [(pin.index, a)]) ∧
        ∀ g grp, (collectPinctrl2Groups re naming mux).get? g = some grp →
          Selects amx g (groupNodeName g) grp.entries ∧
          ∀ target, naming.groupAliases.get? g = some target →
            Selects amx (sanitize target) (groupNodeName (sanitize target)) grp.entries := by
  have hlt := (List.getElem?_eq_some_iff.mp hi).1
  refine ⟨_, controllerNode re naming mux, readFile_emitPinctrl2 re naming muxes, ?_, rfl, ?_⟩
  · rw [List.getElem?_append_left (by simpa using hlt), List.getElem?_map, hi, Option.map_some]
  intro np hnp
  have htables := h.driver_tables hnp
  have hinv := tables_invariant htables
  refine ⟨_, accepts_iff.mpr htables, fun pin hpin a ha => h.pin_selects hinv hpin ha, ?_⟩
  intro g grp hgrp
  refine ⟨h.group_selects hinv (mem_emittedGroups.mpr ⟨g, grp, hgrp, rfl, .inl rfl⟩), ?_⟩
  intro target htarget
  exact h.group_selects hinv
    (mem_emittedGroups.mpr ⟨g, grp, hgrp, rfl, .inr ⟨target, htarget, rfl⟩⟩)

end Selections

/-! ### The sample design on a core of 8 signals with 4 alternates -/

theorem parseMuxes_sampleDesign : parseMuxes sampleDesign ≠ [] := by decide +kernel

def sampleMux : Mux := (parseMuxes sampleDesign).head parseMuxes_sampleDesign

theorem sampleMux_emittable : Emittable noRules sampleNaming sampleCore sampleMux where
  pins_ne := by decide +kernel
  index_lt := by decide +kernel
  alt_le := by decide +kernel
  plain := by
    have hall : (sampleMux.pins.all fun pin =>
        (functionNames noRules sampleNaming sampleMux pin).all fun name =>
          name.toList.all isPlain) = true := by decide +kernel
    simpa only [List.all_eq_true] using hall
  functions_nodup := by decide +kernel
  group_pins := by
    have hitems : ∀ item ∈ (collectPinctrl2Groups noRules sampleNaming sampleMux).items,
        (item.2.entries.map Prod.fst).Nodup := by decide +kernel
    exact fun g grp h => hitems (g, grp) ((Dict.mem_items _).mpr h)
  alias_fresh := by decide +kernel
  aliases_nodup := by decide +kernel

/-- In the emitted source of the sample design `i2c0.scl` selects the first alternate of pin 0, and
the alias of the group both pins of the bus. -/
theorem emitted_selections_agree_sample : ∃ nodes node amx,
    readFile (emitPinctrl2 noRules sampleNaming (parseMuxes sampleDesign)) = some nodes ∧
      nodes[0]? = some node ∧ Accepts sampleCore.info (node.children.map toChild) amx ∧
      Selects amx "i2c0.scl" "pin0" [(0, 1)] ∧
      Selects amx "bus_0" "bus_0-grp" [(0, 1), (1, 2)] := by
  have hmux : (parseMuxes sampleDesign)[0]? = some sampleMux := by
    rw [← List.head?_eq_getElem?, List.head?_eq_some_head parseMuxes_sampleDesign]
    rfl
  obtain ⟨nodes, node, hnodes, hnode, -, hagree⟩ :=
    emitted_selections_agree hmux sampleMux_emittable
  have hchildren : List.Forall₂ Represents node.children (node.children.map toChild) :=
    List.forall₂_map_right_iff.mpr (List.forall₂_same.mpr fun child _ => represents_toChild child)
  obtain ⟨amx, haccept, hpins, hgroups⟩ := hagree _ hchildren
  have hpin : ∃ pin ∈ sampleMux.pins, pin.index = 0 ∧ 1 ≤ pin.maxAlt := by decide +kernel
  have hfn : fnFor noRules sampleMux 0 1 sampleNaming = "i2c0.scl" := by decide +kernel
  have hgrp : (collectPinctrl2Groups noRules sampleNaming sampleMux).get? "i2c0" =
      some ⟨[(0, 1), (1, 2)], ["axi_iic_0"]⟩ := by decide +kernel
  have htarget : sanitize "bus 0" = "bus_0" := by decide +kernel
  obtain ⟨pin, hmem, hindex, halt⟩ := hpin
  have hselect := hpins pin hmem 1 halt
  rw [hindex, hfn] at hselect
  have halias := (hgroups "i2c0" _ hgrp).2 "bus 0" (by decide +kernel)
  rw [htarget] at halias
  exact ⟨nodes, node, amx, hnodes, hnode, haccept, hselect, halias⟩

end AximuxSystem.Tool
