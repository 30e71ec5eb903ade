import Mathlib.Data.List.TakeWhile
import AximuxSystem.Driver.Selection

/-!
# Selecting functions by name

The consumers of a controller name a function and a group. Where group names
are distinct and no pin repeats a function name, the function table holds one
row for each pair, whatever order the rows were added in, so the lookup by name
finds the source values the device tree gives.
-/

namespace AximuxSystem.Driver

open Registers Fallible

/-- The selector under which a function of the given name is found. -/
def functionSelector (amx : Aximux) (name : String) : Option ℕ :=
  amx.functions.findIdx? (·.name == name)

def groupSelector (amx : Aximux) (name : String) : Option ℕ :=
  amx.groups.findIdx? (·.name == name)

/-- Selecting `function` on `group` succeeds, makes SRC of every pin of `targets` equal the last
source listed for it, and changes nothing else. -/
def Routes (amx : Aximux) (function group : String) (targets : List (ℕ × ℕ)) : Prop :=
  ∃ f g, functionSelector amx function = some f ∧ groupSelector amx group = some g ∧
    ∀ rf : RegFile ℕ 32, ∃ rf', (aximuxSetMux amx f g).run rf = (.ok (), rf') ∧
      (∀ p s, Grouping.lastOf p targets = some s → srcField (rf' (aximuxReg p)) = s) ∧
      (∀ r i, 4 ≤ i → (rf' r).getLsbD i = (rf r).getLsbD i) ∧
      (∀ r, (∀ e ∈ targets, aximuxReg e.1 ≠ r) → rf' r = rf r)

section Lookup

variable {α : Type} {key : α → String} {xs : List α} {x : α}

/-- A lookup by a key that no other element has finds the element. -/
theorem findIdx?_of_nodup (h : (xs.map key).Nodup) (hx : x ∈ xs) :
    ∃ i, xs.findIdx? (key · == key x) = some i ∧ xs[i]? = some x := by
  have hex : ∃ y, y ∈ xs ∧ (key y == key x) = true := ⟨x, hx, beq_self_eq_true _⟩
  have hlt := List.findIdx_lt_length_of_exists hex
  refine ⟨_, List.findIdx?_eq_some_of_exists hex, ?_⟩
  rw [List.getElem?_eq_getElem hlt]
  have hfound : (key xs[xs.findIdx (key · == key x)] == key x) = true :=
    List.findIdx_getElem (w := hlt)
  rw [List.inj_on_of_nodup_map h (List.getElem_mem hlt) hx (beq_iff_eq.mp hfound)]

/-- The first entry of a key holds the value all its entries share. -/
theorem getElem?_findIdx {β : Type} {ps : List (String × β)} {k : String} {v : β}
    (h : (k, v) ∈ ps) (huniq : ∀ v', (k, v') ∈ ps → v' = v) :
    (ps.map Prod.snd)[(ps.map Prod.fst).findIdx (· == k)]? = some v := by
  induction ps with
  | nil => cases h
  | cons p ps ih =>
    by_cases hk : p.1 = k
    · have hv : p.2 = v := huniq p.2 (by rw [← hk]; exact List.mem_cons_self)
      simp [List.findIdx_cons, hk, hv]
    · have hmem : (k, v) ∈ ps := by
        rcases List.mem_cons.mp h with h | h
        · rw [← h] at hk
          exact absurd rfl hk
        · exact h
      have hrest := ih hmem fun v' hv' => huniq v' (List.mem_cons_of_mem p hv')
      simpa [List.findIdx_cons, beq_eq_false_iff_ne.mpr hk] using hrest

end Lookup

section Rows

variable {nalts : ℕ} {pins : List AximuxPin} {extra : List ExtraGroup}

/-- The rows of the function table, in the order they are added. -/
abbrev tableRows (pins : List AximuxPin) (extra : List ExtraGroup) : List FunctionRow :=
  pins.flatMap AximuxPin.rows ++ extra.map ExtraGroup.row

/-- The row found for a function and a group is the only one added for them. -/
theorem row_functionOf {rows : List FunctionRow} {function group : String} {vals : List ℕ}
    (h : (function, group, vals) ∈ rows)
    (huniq : ∀ vals', (function, group, vals') ∈ rows → vals' = vals) :
    (functionOf (function, Grouping.valuesOf function rows)).row group = some vals :=
  getElem?_findIdx (Grouping.mem_valuesOf.mpr h) fun vals' hv =>
    huniq vals' (Grouping.mem_valuesOf.mp hv)

/-- A row whose group has its name to itself routes the group's pins to the row's values. -/
theorem routes_of_row {hwPins : ℕ} (hinv : TableInvariant hwPins (assemble nalts pins extra))
    (hnames : ((assemble nalts pins extra).groups.map AximuxGroup.name).Nodup)
    {function : String} {vals : List ℕ} {grp : AximuxGroup}
    (hgrp : grp ∈ (assemble nalts pins extra).groups)
    (hrow : (function, grp.name, vals) ∈ tableRows pins extra)
    (huniq : ∀ vals', (function, grp.name, vals') ∈ tableRows pins extra → vals' = vals)
    (hlen : vals.length = grp.pins.length) (hvals : ∀ v ∈ vals, v ≤ nalts) :
    Routes (assemble nalts pins extra) function grp.name (grp.pins.zip vals) := by
  have hfn : functionOf (function, Grouping.valuesOf function (tableRows pins extra)) ∈
      (assemble nalts pins extra).functions :=
    mem_functionTable.mpr ⟨function, List.ne_nil_of_mem (Grouping.mem_valuesOf.mpr hrow), rfl⟩
  obtain ⟨f, hf, hfget⟩ := findIdx?_of_nodup hinv.names_nodup hfn
  obtain ⟨g, hg, hgget⟩ := findIdx?_of_nodup hnames hgrp
  refine ⟨f, g, hf, hg, fun rf => ?_⟩
  have hsel : selectedEntries (assemble nalts pins extra) f g = some (grp.pins.zip vals) := by
    simp only [selectedEntries, hfget, hgget, Option.bind_eq_bind, Option.bind_some,
      row_functionOf hrow huniq, hlen, if_true]
  have hok : ∀ e ∈ grp.pins.zip vals, entryOk nalts e = true := by
    intro e he
    obtain ⟨hp, hv⟩ := List.of_mem_zip he
    rw [entryOk, decide_eq_true (hvals _ hv), Bool.and_true, decide_eq_true_eq]
    exact lt_of_lt_of_le (hinv.member grp hgrp e.1 hp).1 hinv.hwPins_le
  have hprog : programmed nalts (grp.pins.zip vals) = grp.pins.zip vals :=
    List.takeWhile_eq_self_iff.mpr hok
  obtain ⟨hpins, hsrc⟩ := programmed_bounds hinv.nalts_le (grp.pins.zip vals)
  refine ⟨applyAll (srcWrites (grp.pins.zip vals)) rf, ?_, ?_, ?_, ?_⟩
  · rw [run_aximuxSetMux hinv.consistent (List.getElem?_eq_some_iff.mp hfget).1
      (List.getElem?_eq_some_iff.mp hgget).1, hsel]
    change (if (grp.pins.zip vals).all (entryOk nalts) then _ else _, _) = _
    rw [if_pos (List.all_eq_true.mpr hok)]
    change (_, applyAll (srcWrites (programmed nalts (grp.pins.zip vals))) rf) = _
    rw [hprog]
  · intro p s hlast
    change ∀ e ∈ programmed nalts _, _ at hpins
    change ∀ e ∈ programmed nalts _, _ at hsrc
    rw [hprog] at hpins hsrc
    rw [srcField_srcWrites hpins (hpins _ (Grouping.mem_of_lastOf hlast)) hsrc, hlast,
      Option.getD_some]
  · exact fun r i hi => getLsbD_srcWrites_high _ rf r hi
  · exact fun r hr => applyAll_srcWrites_of_not_mem hr rf

variable {hwPins : ℕ}

theorem group_names (nalts : ℕ) (pins : List AximuxPin) (extra : List ExtraGroup) :
    (assemble nalts pins extra).groups.map AximuxGroup.name =
      pins.map AximuxPin.name ++ extra.map ExtraGroup.name := by
  simp only [assemble, List.map_append, List.map_map]
  rfl

/-- The default group of a pin routes the pin to the position of a name in its list. -/
theorem pin_routes (hinv : TableInvariant hwPins (assemble nalts pins extra))
    (hnames : ((assemble nalts pins extra).groups.map AximuxGroup.name).Nodup)
    {pin : AximuxPin} (hpin : pin ∈ pins) (hfuncs : pin.funcNames.Nodup) {i : ℕ} {name : String}
    (hi : pin.funcNames[i]? = some name) (hle : i ≤ nalts) :
    Routes (assemble nalts pins extra) name pin.name [(pin.number, i)] := by
  have hgrp : pin.group ∈ (assemble nalts pins extra).groups :=
    List.mem_append_left _ (List.mem_map_of_mem hpin)
  have hrow : (name, pin.name, [i]) ∈ pin.rows :=
    List.mem_map.mpr ⟨(name, i), List.mem_zipIdx_iff_getElem?.mpr hi, rfl⟩
  rw [group_names, List.nodup_append'] at hnames
  refine routes_of_row hinv (by rw [group_names, List.nodup_append']; exact hnames) hgrp
    (List.mem_append_left _ (List.mem_flatMap.mpr ⟨pin, hpin, hrow⟩)) ?_ rfl ?_
  · intro vals' hvals'
    rcases List.mem_append.mp hvals' with hvals' | hvals'
    · obtain ⟨pin', hpin', hrow'⟩ := List.mem_flatMap.mp hvals'
      obtain ⟨⟨name', i'⟩, hi', heq⟩ := List.mem_map.mp hrow'
      rw [List.mem_zipIdx_iff_getElem?] at hi'
      simp only [Prod.mk.injEq] at heq
      obtain ⟨rfl, hname, rfl⟩ := heq
      rw [List.inj_on_of_nodup_map hnames.1 hpin' hpin hname] at hi'
      obtain ⟨hlt, hget⟩ := List.getElem?_eq_some_iff.mp hi
      obtain ⟨hlt', hget'⟩ := List.getElem?_eq_some_iff.mp hi'
      have hidx : i' = i := hfuncs.getElem_inj_iff.mp (hget'.trans hget.symm)
      rw [hidx]
    · obtain ⟨grp, hgrp', heq⟩ := List.mem_map.mp hvals'
      simp only [ExtraGroup.row, Prod.mk.injEq] at heq
      have hname : grp.name = pin.name := heq.2.1
      exact absurd (hname ▸ List.mem_map_of_mem hgrp')
        (List.disjoint_left.mp hnames.2.2 (List.mem_map_of_mem hpin))
  · intro v hv
    rw [List.mem_singleton.mp hv]
    exact hle

/-- An extra group routes its pins to the values registered with it. -/
theorem extra_routes (hinv : TableInvariant hwPins (assemble nalts pins extra))
    (hnames : ((assemble nalts pins extra).groups.map AximuxGroup.name).Nodup)
    {grp : ExtraGroup} (hgrp : grp ∈ extra) (hvals : ∀ v ∈ grp.vals, v ≤ nalts) :
    Routes (assemble nalts pins extra) grp.function grp.name (grp.pins.zip grp.vals) := by
  have hmem : grp.group ∈ (assemble nalts pins extra).groups :=
    List.mem_append_right _ (List.mem_map_of_mem hgrp)
  rw [group_names, List.nodup_append'] at hnames
  refine routes_of_row hinv (by rw [group_names, List.nodup_append']; exact hnames) hmem
    (List.mem_append_right _ (List.mem_map.mpr ⟨grp, hgrp, rfl⟩)) ?_ grp.sameLength hvals
  intro vals' hvals'
  rcases List.mem_append.mp hvals' with hvals' | hvals'
  · obtain ⟨pin, hpin, hrow⟩ := List.mem_flatMap.mp hvals'
    obtain ⟨p, -, heq⟩ := List.mem_map.mp hrow
    simp only [Prod.mk.injEq] at heq
    have hname : pin.name = grp.name := heq.2.1
    exact absurd (List.mem_map_of_mem hgrp)
      (List.disjoint_left.mp hnames.2.2 (hname ▸ List.mem_map_of_mem hpin))
  · obtain ⟨grp', hgrp', heq⟩ := List.mem_map.mp hvals'
    simp only [ExtraGroup.row, Prod.mk.injEq] at heq
    obtain ⟨-, hname, rfl⟩ := heq
    rw [List.inj_on_of_nodup_map hnames.2.1 hgrp' hgrp hname]

end Rows

/-! ### Routing by the device tree -/

/-- `vals` are the source values the tree gives an extra group of `n` pins: zeros if
`brunosmmm,mux` is absent, else the first `n` of its values. -/
def TreeSources (child : OfNode) (n : ℕ) (vals : List ℕ) : Prop :=
  (child.prop "brunosmmm,mux" = none ∧ vals = List.replicate n 0) ∨
  ∃ xs, child.prop "brunosmmm,mux" = some (.cells xs) ∧ n ≤ xs.length ∧ vals = xs.take n

/-- `name` is the function the tree gives an extra group: `brunosmmm,function`, or the node's
own name if that is absent. -/
def TreeFunction (child : OfNode) (name : String) : Prop :=
  (child.prop "brunosmmm,function" = none ∧ name = child.name) ∨
  ∃ rest, child.prop "brunosmmm,function" = some (.strings (name :: rest))

theorem TreeSources.groupMux {child : OfNode} {n : ℕ} {vals : List ℕ}
    (h : TreeSources child n vals) : groupMux child n = vals := by
  unfold Driver.groupMux
  rcases h with ⟨hprop, rfl⟩ | ⟨xs, hprop, hle, rfl⟩
  · rw [child.readU32Array_absent _ _ hprop]
  · obtain ⟨v, hv, hlist⟩ := child.readU32Array_cells _ _ _ hprop hle
    rw [hv, ← hlist]

theorem TreeFunction.groupFunction {child : OfNode} {name : String}
    (h : TreeFunction child name) : groupFunction child = name := by
  unfold Driver.groupFunction
  rcases h with ⟨hprop, rfl⟩ | ⟨rest, hprop⟩
  · rw [child.readString_absent _ hprop]
  · rw [child.readString_strings _ _ _ hprop]

theorem extraTable_names {pins : List AximuxPin} {np : List OfNode} {extra : List ExtraGroup}
    (h : extraTable pins np = .ok extra) :
    extra.map ExtraGroup.name = (groupNodes np).map OfNode.name := by
  refine map_eq_of_mapM h fun child grp hgrp => ?_
  obtain ⟨members, -, heq⟩ := bind_eq_ok.mp hgrp
  cases heq
  rfl

/-- The name lists of the pin table are those of the pin children. -/
theorem pinTable_nodup {hwPins : ℕ} {np : List OfNode} {pins : List AximuxPin}
    (h : pinTable hwPins np = .ok pins)
    (hnodes : ∀ child ∈ pinNodes np, ∀ names, nodeNames child = .ok names → names.Nodup)
    {pin : AximuxPin} (hpin : pin ∈ pins) : pin.funcNames.Nodup := by
  unfold pinTable at h
  split_ifs at h
  · cases h
    obtain ⟨idx, -, rfl⟩ := List.mem_map.mp hpin
    exact List.nodup_nil
  · obtain ⟨child, hchild, hentry⟩ := exists_of_mem_mapM h hpin
    obtain ⟨reg, names, -, -, hnames, rfl⟩ := pinEntry_eq_ok.mp hentry
    exact hnodes child hchild names hnames

/-- A pin child has its entry in the pin table. -/
theorem pinTable_of_node {hwPins : ℕ} {np : List OfNode} {pins : List AximuxPin}
    (h : pinTable hwPins np = .ok pins) {child : OfNode} (hchild : child ∈ pinNodes np) :
    ∃ pin ∈ pins, pinEntry hwPins child = .ok pin := by
  unfold pinTable at h
  split_ifs at h with hnone
  · rw [hnone] at hchild
    cases hchild
  · exact exists_of_mem_of_mapM h hchild

/-- Every pin name an accepted group lists resolves to the pin that bears it. -/
theorem groupPins_names {hwPins : ℕ} {np : List OfNode} {pins : List AximuxPin} {child : OfNode}
    {members : List ℕ} (hpins : pinTable hwPins np = .ok pins)
    (h : groupPins pins child = .ok members) : members.length = groupSize child ∧
      ∀ j p, members[j]? = some p → child.readStringIndex "brunosmmm,pins" j = .ok (pinName p) := by
  have hall := mapM_eq_ok.mp h
  have hlen : members.length = groupSize child := by simpa using hall.length_eq.symm
  refine ⟨hlen, fun j p hj => ?_⟩
  obtain ⟨hlt, rfl⟩ := List.getElem?_eq_some_iff.mp hj
  have hentry := hall.get (by simpa [← hlen] using hlt) hlt
  simp only [List.get_eq_getElem, List.getElem_range] at hentry
  obtain ⟨name, hname, hfind⟩ := bind_eq_ok.mp hentry
  obtain ⟨pin, hpin, hnum⟩ := findPin_eq_ok.mp hfind
  have hpname := List.find?_some hpin
  have hentry := pinTable_entry hpins (List.mem_of_find?_eq_some hpin)
  rw [hname, ← hnum, ← hentry.2.1, beq_iff_eq.mp hpname]

/-- The function tables and `aximux_set_mux` implement the device tree. -/
theorem selection_implements_tree {info : BitVec 32} {np : List OfNode} {amx : Aximux}
    (h : Accepts info np amx)
    (hfuncs : ∀ child ∈ pinNodes np, ∀ names, nodeNames child = .ok names → names.Nodup)
    (hnames : (amx.pins.map (fun pin => pinName pin.number) ++
      (groupNodes np).map OfNode.name).Nodup) :
    (∀ child ∈ pinNodes np, ∀ reg names i name, child.readU32 "reg" = .ok reg →
      nodeNames child = .ok names → names[i]? = some name → i ≤ amx.nalts →
      Routes amx name (pinName reg) [(reg, i)]) ∧
    (∀ child ∈ groupNodes np, ∃ members : List ℕ, members.length = groupSize child ∧
      (∀ j p, members[j]? = some p →
        child.readStringIndex "brunosmmm,pins" j = .ok (pinName p)) ∧
      ∀ function vals, TreeFunction child function → TreeSources child members.length vals →
        (∀ v ∈ vals, v ≤ amx.nalts) → Routes amx function child.name (members.zip vals)) := by
  have htables := accepts_iff.mp h
  have hinv := tables_invariant htables
  obtain ⟨-, -, pins, extra, hpins, hextra, rfl⟩ := tables_eq_ok.mp htables
  have hgroups : ((assemble (altLimit (infoAlts info)) pins extra).groups.map
      AximuxGroup.name).Nodup := by
    rw [group_names, extraTable_names hextra]
    rwa [List.map_congr_left fun pin hpin => (pinTable_entry hpins hpin).2.1]
  constructor
  · intro child hchild reg names i name hreg hlist hi hle
    obtain ⟨pin, hpin, hentry⟩ := pinTable_of_node hpins hchild
    have hnodup := pinTable_nodup hpins hfuncs hpin
    obtain ⟨reg', names', hreg', -, hlist', rfl⟩ := pinEntry_eq_ok.mp hentry
    rw [hreg] at hreg'
    rw [hlist] at hlist'
    cases hreg'
    cases hlist'
    exact pin_routes hinv hgroups hpin hnodup hi hle
  · intro child hchild
    obtain ⟨grp, hgrp, hentry⟩ := exists_of_mem_of_mapM hextra hchild
    obtain ⟨members, hmembers, heq⟩ := bind_eq_ok.mp hentry
    cases heq
    obtain ⟨hlen, hlisted⟩ := groupPins_names hpins hmembers
    refine ⟨members, hlen, hlisted, fun function vals hfn hvals hle => ?_⟩
    have hroute := extra_routes hinv hgroups hgrp
    simp only [hvals.groupMux, hfn.groupFunction] at hroute
    exact hroute hle

/-- In the sample tree `uart` on the default group of pin 2 selects source 1. -/
theorem selection_implements_tree_sample : Routes sampleTables "uart" "pin2" [(2, 1)] := by
  have hnodes : pinNodes sampleNodes = sampleNodes.take 2 := rfl
  have hlists : ∀ child ∈ pinNodes sampleNodes, ∀ names, nodeNames child = .ok names →
      names.Nodup := by
    rw [hnodes]
    intro child hchild names hnames
    rcases List.mem_cons.mp hchild with rfl | hchild
    · cases (show Except.ok ["gpio", "spi"] = Except.ok names from hnames)
      decide
    · rcases List.mem_cons.mp hchild with rfl | hchild
      · cases (show Except.ok ["gpio", "uart"] = Except.ok names from hnames)
        decide
      · cases hchild
  obtain ⟨hpin, -⟩ := selection_implements_tree sampleTables_accepted hlists (by decide +kernel)
  have hsecond : sampleNodes[1] ∈ pinNodes sampleNodes := by
    rw [hnodes]
    exact List.mem_cons_of_mem _ List.mem_cons_self
  exact hpin _ hsecond 2 ["gpio", "uart"] 1 "uart" rfl rfl rfl (by decide)

end AximuxSystem.Driver
