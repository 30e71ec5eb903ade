import AximuxSystem.Driver.TableBuild
import AximuxSystem.Driver.Scripts

/-!
# Invariant of the built tables

The callbacks index the tables without checks. What they rely on holds of
every described table: the arrays of a function are parallel, every row names
a group of its own size, and every group member is a registered pin. Hence the
callbacks stay inside the tables and touch pin registers only.
-/

namespace AximuxSystem.Driver

open Registers Fallible

/-- `p` is the number of a registered pin. -/
def Aximux.Registered (amx : Aximux) (p : ℕ) : Prop := ∃ pin ∈ amx.pins, pin.number = p

/-- `r` is the address of the SRCSEL register of a registered pin. -/
def Aximux.PinRegister (amx : Aximux) (r : ℕ) : Prop := ∃ p, amx.Registered p ∧ r = aximuxReg p

/-- The tables built for a core of `hwPins` pins. -/
structure TableInvariant (hwPins : ℕ) (amx : Aximux) : Prop where
  npins_pos : 1 ≤ amx.npins
  npins_le : amx.npins ≤ hwPins
  hwPins_le : hwPins ≤ aximuxMaxPins
  nalts_pos : 1 ≤ amx.nalts
  nalts_le : amx.nalts ≤ aximuxMaxAlts
  pins_length : amx.pins.length = amx.npins
  pindescs_length : amx.pindescs.length = amx.npins
  pin_lt : ∀ pin ∈ amx.pins, pin.number < hwPins
  member : ∀ grp ∈ amx.groups, ∀ p ∈ grp.pins, p < hwPins ∧ amx.Registered p
  group_npins : ∀ grp ∈ amx.groups, grp.npins = grp.pins.length
  names_nodup : (amx.functions.map AximuxFunction.name).Nodup
  ngroups_pos : ∀ fn ∈ amx.functions, 1 ≤ fn.ngroups
  muxVals_length : ∀ fn ∈ amx.functions, fn.muxVals.length = fn.ngroups
  muxNpins_length : ∀ fn ∈ amx.functions, fn.muxNpins.length = fn.ngroups
  row_length : ∀ fn ∈ amx.functions, ∀ (g : ℕ) (vals : List ℕ),
    fn.muxVals[g]? = some vals → fn.muxNpins[g]? = some vals.length
  row_group : ∀ fn ∈ amx.functions, ∀ (g : ℕ) (name : String), fn.groups[g]? = some name →
    ∃ grp ∈ amx.groups, grp.name = name ∧ fn.muxNpins[g]? = some grp.npins

namespace TableInvariant

variable {hwPins : ℕ} {amx : Aximux}

theorem consistent (h : TableInvariant hwPins amx) : amx.Consistent where
  pins_length := h.pins_length
  group_npins := h.group_npins
  muxVals_length := h.muxVals_length
  muxNpins_length := h.muxNpins_length
  row_length := h.row_length

theorem registered_lt (h : TableInvariant hwPins amx) {p : ℕ} (hp : amx.Registered p) :
    p < aximuxMaxPins := by
  obtain ⟨pin, hpin, rfl⟩ := hp
  exact lt_of_lt_of_le (h.pin_lt pin hpin) h.hwPins_le

/-- Pin registers lie below MUXINFO. -/
theorem pinRegister_lt (h : TableInvariant hwPins amx) {r : ℕ} (hr : amx.PinRegister r) :
    ∃ p, amx.Registered p ∧ r = 4 * p ∧ r < aximuxRegMuxinfo := by
  obtain ⟨p, hp, rfl⟩ := hr
  have hlt := h.registered_lt hp
  unfold aximuxMaxPins at hlt
  have hreg := aximuxReg_eq (n := p) (by omega)
  refine ⟨p, hp, hreg, ?_⟩
  rw [hreg, aximuxRegMuxinfo]
  omega

end TableInvariant

/-! ### The description satisfies the invariant -/

theorem findPin_eq_ok {pins : List AximuxPin} {name : String} {p : ℕ} :
    findPin pins name = .ok p ↔
      ∃ pin, pins.find? (·.name == name) = some pin ∧ pin.number = p := by
  unfold findPin
  cases pins.find? (·.name == name) <;> simp

/-- Members of an extra group are numbers of table entries. -/
theorem extraTable_member {pins : List AximuxPin} {np : List OfNode} {extra : List ExtraGroup}
    (h : extraTable pins np = .ok extra) {grp : ExtraGroup} (hgrp : grp ∈ extra) {p : ℕ}
    (hp : p ∈ grp.pins) : ∃ pin ∈ pins, pin.number = p := by
  obtain ⟨child, -, hchild⟩ := exists_of_mem_mapM h hgrp
  obtain ⟨members, hmembers, hgrp⟩ := bind_eq_ok.mp hchild
  cases hgrp
  obtain ⟨j, -, hj⟩ := exists_of_mem_mapM hmembers hp
  obtain ⟨name, -, hfind⟩ := bind_eq_ok.mp hj
  obtain ⟨pin, hpin, hnum⟩ := findPin_eq_ok.mp hfind
  exact ⟨pin, List.mem_of_find?_eq_some hpin, hnum⟩

section Functions

variable {rows : List FunctionRow} {fn : AximuxFunction}

/-- A function of the table has the rows added under its name. -/
theorem mem_functionTable : fn ∈ functionTable rows ↔
    ∃ name, Grouping.valuesOf name rows ≠ [] ∧
      fn = functionOf (name, Grouping.valuesOf name rows) := by
  rw [functionTable, List.mem_map]
  constructor
  · rintro ⟨⟨name, vs⟩, hmem, rfl⟩
    obtain ⟨rfl, hne⟩ := Grouping.mem_addAll.mp hmem
    exact ⟨name, hne, rfl⟩
  · rintro ⟨name, hne, rfl⟩
    exact ⟨_, Grouping.mem_addAll.mpr ⟨rfl, hne⟩, rfl⟩

theorem functionTable_nodup (rows : List FunctionRow) :
    ((functionTable rows).map AximuxFunction.name).Nodup := by
  rw [functionTable, List.map_map]
  exact Grouping.nodup_addAll rows

/-- The elements of the parallel arrays at one index come from one call of
`aximux_add_function`. -/
theorem functionTable_row (h : fn ∈ functionTable rows) {g : ℕ} (hg : g < fn.ngroups) :
    ∃ group vals, (fn.name, group, vals) ∈ rows ∧ fn.groups[g]? = some group ∧
      fn.muxVals[g]? = some vals ∧ fn.muxNpins[g]? = some vals.length := by
  obtain ⟨name, -, rfl⟩ := mem_functionTable.mp h
  have hg : g < (Grouping.valuesOf name rows).length := by
    simpa [AximuxFunction.ngroups, functionOf] using hg
  have hrow := List.getElem?_eq_getElem hg
  refine ⟨_, _, Grouping.mem_valuesOf.mp (List.getElem_mem hg), ?_, ?_, ?_⟩ <;>
    simp [functionOf, hrow]

theorem functionTable_arrays (h : fn ∈ functionTable rows) : 1 ≤ fn.ngroups ∧
    fn.muxVals.length = fn.ngroups ∧ fn.muxNpins.length = fn.ngroups := by
  obtain ⟨name, hne, rfl⟩ := mem_functionTable.mp h
  have hpos : 1 ≤ (Grouping.valuesOf name rows).length := List.length_pos_iff.mpr hne
  simpa [AximuxFunction.ngroups, functionOf] using hpos

end Functions

/-- Every row of the described table names one of its groups, of the row's own size. -/
theorem assemble_row (nalts : ℕ) {pins : List AximuxPin} {extra : List ExtraGroup}
    {name group : String} {vals : List ℕ}
    (h : (name, group, vals) ∈ pins.flatMap AximuxPin.rows ++ extra.map ExtraGroup.row) :
    ∃ grp ∈ (assemble nalts pins extra).groups, grp.name = group ∧ grp.npins = vals.length := by
  rcases List.mem_append.mp h with h | h
  · obtain ⟨pin, hpin, hrow⟩ := List.mem_flatMap.mp h
    obtain ⟨p, -, hp⟩ := List.mem_map.mp hrow
    cases hp
    exact ⟨pin.group, List.mem_append_left _ (List.mem_map_of_mem hpin), rfl, rfl⟩
  · obtain ⟨grp, hgrp, hrow⟩ := List.mem_map.mp h
    cases hrow
    exact ⟨grp.group, List.mem_append_right _ (List.mem_map_of_mem hgrp), rfl, grp.sameLength.symm⟩

theorem altLimit_range (hwAlts : ℕ) : 1 ≤ altLimit hwAlts ∧ altLimit hwAlts ≤ aximuxMaxAlts := by
  unfold altLimit
  split_ifs with h
  · exact ⟨by decide, le_rfl⟩
  · omega

theorem tables_eq_ok {info : BitVec 32} {np : List OfNode} {amx : Aximux} :
    tables info np = .ok amx ↔ 0 < infoPins info ∧ infoPins info ≤ aximuxMaxPins ∧
      ∃ pins extra, pinTable (infoPins info) np = .ok pins ∧ extraTable pins np = .ok extra ∧
        amx = assemble (altLimit (infoAlts info)) pins extra := by
  unfold tables
  by_cases hinfo : infoPins info = 0 ∨ infoPins info > aximuxMaxPins
  · rw [if_pos hinfo]
    constructor
    · nofun
    · rintro ⟨hpos, hle, -⟩
      omega
  · rw [if_neg hinfo, bind_eq_ok]
    have hpos : 0 < infoPins info ∧ infoPins info ≤ aximuxMaxPins := by omega
    rw [and_iff_right hpos.1, and_iff_right hpos.2]
    refine exists_congr fun pins => ?_
    rw [bind_eq_ok, ← exists_and_left]
    simp only [Except.ok.injEq, eq_comm]

/-- Members of every described group are numbers of table entries. -/
theorem assemble_member (nalts : ℕ) {pins : List AximuxPin} {np : List OfNode}
    {extra : List ExtraGroup} (hextra : extraTable pins np = .ok extra) {grp : AximuxGroup}
    (hgrp : grp ∈ (assemble nalts pins extra).groups) {p : ℕ} (hp : p ∈ grp.pins) :
    ∃ pin ∈ pins, pin.number = p := by
  rcases List.mem_append.mp hgrp with hgrp | hgrp
  · obtain ⟨pin, hpin, rfl⟩ := List.mem_map.mp hgrp
    exact ⟨pin, hpin, (List.mem_singleton.mp hp).symm⟩
  · obtain ⟨egrp, hegrp, rfl⟩ := List.mem_map.mp hgrp
    exact extraTable_member hextra hegrp hp

theorem tables_invariant {info : BitVec 32} {np : List OfNode} {amx : Aximux}
    (h : tables info np = .ok amx) : TableInvariant (infoPins info) amx := by
  obtain ⟨hpos, hle, pins, extra, hpins, hextra, rfl⟩ := tables_eq_ok.mp h
  obtain ⟨hlen, hcount⟩ := pinTable_length hpins hpos
  refine
    { npins_pos := hlen
      npins_le := hcount
      hwPins_le := hle
      nalts_pos := (altLimit_range _).1
      nalts_le := (altLimit_range _).2
      pins_length := rfl
      pindescs_length := List.length_map _
      pin_lt := fun pin hpin => (pinTable_entry hpins hpin).1
      member := ?_
      group_npins := ?_
      names_nodup := functionTable_nodup _
      ngroups_pos := fun fn hfn => (functionTable_arrays hfn).1
      muxVals_length := fun fn hfn => (functionTable_arrays hfn).2.1
      muxNpins_length := fun fn hfn => (functionTable_arrays hfn).2.2
      row_length := ?_
      row_group := ?_ }
  · intro grp hgrp p hp
    obtain ⟨pin, hpin, rfl⟩ := assemble_member _ hextra hgrp hp
    exact ⟨(pinTable_entry hpins hpin).1, pin, hpin, rfl⟩
  · intro grp hgrp
    rcases List.mem_append.mp hgrp with hgrp | hgrp
    · obtain ⟨pin, -, rfl⟩ := List.mem_map.mp hgrp
      rfl
    · obtain ⟨grp, -, rfl⟩ := List.mem_map.mp hgrp
      rfl
  · intro fn hfn g vals hvals
    have hg : g < fn.ngroups := by
      rw [← (functionTable_arrays hfn).2.1]
      exact (List.getElem?_eq_some_iff.mp hvals).1
    obtain ⟨group, vals', -, -, hvals', hnpins⟩ := functionTable_row hfn hg
    rw [hvals] at hvals'
    cases hvals'
    exact hnpins
  · intro fn hfn g name hname
    have hg : g < fn.ngroups := (List.getElem?_eq_some_iff.mp hname).1
    obtain ⟨group, vals, hrow, hgroup, -, hnpins⟩ := functionTable_row hfn hg
    rw [hname] at hgroup
    cases hgroup
    obtain ⟨grp, hgrp, hgname, hsize⟩ := assemble_row (altLimit (infoAlts info)) hrow
    exact ⟨grp, hgrp, hgname, by rw [hnpins, hsize]⟩

end AximuxSystem.Driver
