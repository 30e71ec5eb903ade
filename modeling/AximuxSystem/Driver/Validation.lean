import AximuxSystem.Driver.Registration
import AximuxSystem.Driver.Routing

/-!
# Which selections the registered tables allow

The probe code compares pin counts and register numbers with MUXINFO, but
neither the length of a name list nor a declared source value. Whether every
registered selection can be performed is therefore a property of the tree: it
is read off the rows and the groups its children give.
-/

namespace AximuxSystem.Driver

open Registers Fallible

/-- Every function of the table can be selected on every group it lists. -/
def SelectionsSucceed (amx : Aximux) : Prop :=
  ∀ f g fn grp, amx.functions[f]? = some fn → amx.groups[g]? = some grp → grp.name ∈ fn.groups →
    ∀ rf : RegFile ℕ 32, ((aximuxSetMux amx f g).run rf).1 = .ok ()

/-! ### What the children give -/

/-- A pin child gives every name of its list the position of the name. -/
def childRows (child : OfNode) : List FunctionRow :=
  match child.readU32 "reg", nodeNames child with
  | .ok reg, .ok names => names.zipIdx.map fun p => (p.1, pinName reg, [p.2])
  | _, _ => []

def childGroup (child : OfNode) : String × ℕ :=
  match child.readU32 "reg" with
  | .ok reg => (pinName reg, 1)
  | .error _ => (child.name, 1)

/-- The calls of `aximux_add_function` the tree asks for, in order. -/
def treeRows (np : List OfNode) : List FunctionRow :=
  (pinNodes np).flatMap childRows ++ (groupNodes np).map fun child =>
    (groupFunction child, child.name, groupMux child (groupSize child))

/-- The names and sizes of the groups the tree asks for. -/
def treeGroups (hwPins : ℕ) (np : List OfNode) : List (String × ℕ) :=
  (if pinNodes np = [] then (List.range hwPins).map fun idx => (pinName idx, 1)
    else (pinNodes np).map childGroup) ++
  (groupNodes np).map fun child => (child.name, groupSize child)

/-- The first row the tree gives a function for a group name. -/
def firstRow (np : List OfNode) (function group : String) : Option (List ℕ) :=
  (Grouping.valuesOf function (treeRows np)).lookup group

/-- Every first row has values up to the alternate limit, one for each pin of every group of its
name. -/
def SelectionsFit (info : BitVec 32) (np : List OfNode) : Prop :=
  ∀ function group vals, firstRow np function group = some vals →
    (∀ v ∈ vals, v ≤ altLimit (infoAlts info)) ∧
    ∀ size, (group, size) ∈ treeGroups (infoPins info) np → vals.length = size

variable {info : BitVec 32} {np : List OfNode} {hwPins : ℕ} {pins : List AximuxPin}
  {extra : List ExtraGroup}

theorem pinEntry_row {child : OfNode} {pin : AximuxPin} (h : pinEntry hwPins child = .ok pin) :
    pin.rows = childRows child ∧ (pin.group.name, pin.group.npins) = childGroup child := by
  obtain ⟨reg, names, hreg, -, hnames, rfl⟩ := pinEntry_eq_ok.mp h
  rw [childRows, childGroup, hreg, hnames]
  exact ⟨rfl, rfl⟩

theorem tableRows_eq (hpins : pinTable hwPins np = .ok pins)
    (hextra : extraTable pins np = .ok extra) :
    tableRows pins extra = treeRows np := by
  have hgroups : extra.map ExtraGroup.row = (groupNodes np).map fun child =>
      (groupFunction child, child.name, groupMux child (groupSize child)) :=
    map_eq_of_mapM hextra fun _ _ => extraEntry_row
  rw [tableRows, treeRows, hgroups]
  congr 1
  unfold pinTable at hpins
  split_ifs at hpins with hnone
  · cases hpins
    rw [hnone, List.flatMap_map]
    simp [defaultEntry, AximuxPin.rows]
  · rw [List.flatMap_def, List.flatMap_def,
      map_eq_of_mapM hpins fun _ _ hpin => (pinEntry_row hpin).1]

theorem groups_eq (nalts : ℕ) (hpins : pinTable hwPins np = .ok pins)
    (hextra : extraTable pins np = .ok extra) :
    (assemble nalts pins extra).groups.map (fun grp => (grp.name, grp.npins)) =
      treeGroups hwPins np := by
  have hgroups : (extra.map ExtraGroup.group).map (fun grp => (grp.name, grp.npins)) =
      (groupNodes np).map fun child => (child.name, groupSize child) := by
    rw [List.map_map]
    refine map_eq_of_mapM hextra fun child grp hgrp => ?_
    obtain ⟨members, hmembers, heq⟩ := bind_eq_ok.mp hgrp
    have hlen : members.length = groupSize child := by
      simpa using (mapM_eq_ok.mp hmembers).length_eq.symm
    cases heq
    simp only [Function.comp, ExtraGroup.group, hlen]
  rw [assemble, List.map_append, hgroups, treeGroups]
  congr 1
  unfold pinTable at hpins
  split_ifs at hpins with hnone
  · cases hpins
    rw [if_pos hnone, List.map_map, List.map_map]
    rfl
  · rw [if_neg hnone, List.map_map]
    exact map_eq_of_mapM hpins fun _ _ hpin => (pinEntry_row hpin).2

/-! ### Selecting a row -/

theorem row_functionOf_eq (name group : String) (rows : List (String × List ℕ)) :
    (functionOf (name, rows)).row group = rows.lookup group := by
  rw [AximuxFunction.row, functionOf]
  induction rows with
  | nil => rfl
  | cons row rows ih =>
    rw [Collections.lookup_cons_eq]
    by_cases hrow : row.1 = group
    · simp [List.findIdx_cons, hrow]
    · simpa [List.findIdx_cons, beq_eq_false_iff_ne.mpr hrow, Ne.symm hrow] using ih

variable {amx : Aximux} {f g : ℕ} {fn : AximuxFunction} {grp : AximuxGroup}

/-- A selection succeeds exactly if the row found by name has one source for each pin of the group
and no source is beyond the alternates. -/
theorem setMux_ok_iff (hinv : TableInvariant hwPins amx) (hf : amx.functions[f]? = some fn)
    (hg : amx.groups[g]? = some grp) (rf : RegFile ℕ 32) :
    ((aximuxSetMux amx f g).run rf).1 = .ok () ↔
      ∃ vals, fn.row grp.name = some vals ∧ vals.length = grp.pins.length ∧
        ∀ v ∈ vals, v ≤ amx.nalts := by
  have hlt := (List.getElem?_eq_some_iff.mp hf).1
  have hlt' := (List.getElem?_eq_some_iff.mp hg).1
  rw [run_aximuxSetMux hinv.consistent hlt hlt']
  simp only [selectedEntries, hf, hg, Option.bind_eq_bind, Option.bind_some]
  cases hrow : fn.row grp.name with
  | none => simp
  | some vals =>
    by_cases hlen : vals.length = grp.pins.length
    · have hall : (grp.pins.zip vals).all (entryOk amx.nalts) = true ↔
          ∀ v ∈ vals, v ≤ amx.nalts := by
        rw [List.all_eq_true]
        constructor
        · intro hok v hv
          rw [← List.map_snd_zip hlen.le] at hv
          obtain ⟨e, he, rfl⟩ := List.mem_map.mp hv
          have hentry := hok e he
          rw [entryOk, Bool.and_eq_true, decide_eq_true_eq, decide_eq_true_eq] at hentry
          exact hentry.2
        · intro hvals e he
          obtain ⟨hp, hv⟩ := List.of_mem_zip he
          have hlt := (hinv.member grp (List.mem_of_getElem? hg) e.1 hp).1
          rw [entryOk, decide_eq_true (hvals _ hv), Bool.and_true, decide_eq_true_eq]
          exact lt_of_lt_of_le hlt hinv.hwPins_le
      simp only [Option.bind_some, hlen, if_true, Option.some.injEq, exists_eq_left', true_and,
        ← hall]
      split_ifs with hok <;> simp [hok]
    · simp [hlen]

theorem firstRow_eq (hpins : pinTable hwPins np = .ok pins)
    (hextra : extraTable pins np = .ok extra) (function group : String) :
    firstRow np function group =
      (functionOf (function, Grouping.valuesOf function (tableRows pins extra))).row group := by
  rw [row_functionOf_eq, firstRow, tableRows_eq hpins hextra]

/-- A function that lists a group has a first row for it. -/
theorem firstRow_of_listed (hpins : pinTable hwPins np = .ok pins)
    (hextra : extraTable pins np = .ok extra) {function group : String}
    (h : group ∈ (functionOf
      (function, Grouping.valuesOf function (tableRows pins extra))).groups) :
    ∃ vals, firstRow np function group = some vals := by
  obtain ⟨row, hrow, rfl⟩ := List.mem_map.mp h
  rw [tableRows_eq hpins hextra] at hrow
  exact Option.isSome_iff_exists.mp
    (List.lookup_isSome_iff.mpr ⟨row, hrow, beq_self_eq_true row.1⟩)

/-- Where the selections succeed, a first row fits every group of its name. -/
theorem firstRow_fits {nalts : ℕ} (hinv : TableInvariant hwPins (assemble nalts pins extra))
    (hpins : pinTable hwPins np = .ok pins) (hextra : extraTable pins np = .ok extra)
    (hsel : SelectionsSucceed (assemble nalts pins extra)) {function : String} {vals : List ℕ}
    {grp : AximuxGroup} (hgrp : grp ∈ (assemble nalts pins extra).groups)
    (hvals : firstRow np function grp.name = some vals) :
    vals.length = grp.npins ∧ ∀ v ∈ vals, v ≤ nalts := by
  obtain ⟨before, after, hsplit, -⟩ := List.lookup_eq_some_iff.mp hvals
  have hmem : (grp.name, vals) ∈ Grouping.valuesOf function (tableRows pins extra) := by
    rw [tableRows_eq hpins hextra, hsplit]
    exact List.mem_append_right _ List.mem_cons_self
  obtain ⟨f, hf⟩ := List.mem_iff_getElem?.mp
    (mem_functionTable.mpr ⟨function, List.ne_nil_of_mem hmem, rfl⟩)
  obtain ⟨g, hg⟩ := List.mem_iff_getElem?.mp hgrp
  have hok := hsel f g _ grp hf hg (List.mem_map_of_mem hmem) fun _ => 0
  obtain ⟨vals', hvals', hlen, hle⟩ := (setMux_ok_iff hinv hf hg _).mp hok
  rw [← firstRow_eq hpins hextra, hvals] at hvals'
  cases hvals'
  exact ⟨hlen.trans (hinv.group_npins grp hgrp).symm, hle⟩

/-- Probe registers only selections that can be performed exactly if the first rows of the tree
fit the alternates and the sizes of the groups. -/
theorem selections_succeed_iff (h : Accepts info np amx) :
    SelectionsSucceed amx ↔ SelectionsFit info np := by
  have htables := accepts_iff.mp h
  have hinv := tables_invariant htables
  obtain ⟨-, -, pins, extra, hpins, hextra, rfl⟩ := tables_eq_ok.mp htables
  have hgroups := groups_eq (altLimit (infoAlts info)) hpins hextra
  constructor
  · intro hsel function group vals hvals
    obtain ⟨before, after, hsplit, -⟩ := List.lookup_eq_some_iff.mp hvals
    have hmem : (function, group, vals) ∈ tableRows pins extra := by
      rw [tableRows_eq hpins hextra, ← Grouping.mem_valuesOf, hsplit]
      exact List.mem_append_right _ List.mem_cons_self
    constructor
    · obtain ⟨grp, hgrp, rfl, -⟩ := assemble_row (altLimit (infoAlts info)) hmem
      exact (firstRow_fits hinv hpins hextra hsel hgrp hvals).2
    · intro size hsize
      rw [← hgroups] at hsize
      obtain ⟨grp, hgrp, heq⟩ := List.mem_map.mp hsize
      cases heq
      exact (firstRow_fits hinv hpins hextra hsel hgrp hvals).1
  · intro hfit f g fn grp hf hg hlisted rf
    obtain ⟨function, -, rfl⟩ := mem_functionTable.mp (List.mem_of_getElem? hf)
    obtain ⟨vals, hvals⟩ := firstRow_of_listed hpins hextra hlisted
    obtain ⟨hle, hlen⟩ := hfit function grp.name vals hvals
    have hgrp := List.mem_of_getElem? hg
    rw [setMux_ok_iff hinv hf hg]
    refine ⟨vals, by rw [← firstRow_eq hpins hextra, hvals], ?_, hle⟩
    rw [← hinv.group_npins grp hgrp]
    refine hlen grp.npins ?_
    rw [← hgroups]
    exact List.mem_map_of_mem hgrp

theorem badGroupTables_refused : ¬ SelectionsSucceed badGroupTables := by
  intro h
  have hrun := h 0 2 _ _ rfl rfl (by decide) fun _ => 0
  exact absurd hrun (by decide)

/-- Selecting the group with a value beyond the alternates fails. -/
theorem selections_fail : ¬ ∀ info np amx, Accepts info np amx → SelectionsSucceed amx :=
  fun h => badGroupTables_refused (h _ _ _ badGroupTables_accepted)

theorem selections_succeed_iff_sample : ¬ SelectionsFit 0x408 badGroupNodes := by
  rw [← selections_succeed_iff badGroupTables_accepted]
  exact badGroupTables_refused

end AximuxSystem.Driver
