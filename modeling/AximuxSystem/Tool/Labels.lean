import AximuxSystem.Tool.Nodes

/-!
# Labels of the emitted files

Which labels the two outputs define, and when they define each of them once.
Labels of pins carry the name of the mux; labels of groups, of aliases and of
legacy groups do not, so names that meet across muxes or after rewriting are
defined twice.
-/

namespace AximuxSystem.Tool

open Collections Text Dts

variable {re : Regex} {naming : Naming} {muxes : List Mux}

/-! ### Defined labels -/

theorem labels_pinLines (mux : Mux) (pin : Pin) :
    definedLabels (pinLines re naming mux pin) = [pinLabel mux.inst pin.index] := by
  simp [pinLines]

theorem labels_groupLines (name : String) (entries : List (ℕ × ℕ)) :
    definedLabels (groupLines name entries) = [groupLabel name] := by
  simp [groupLines]

/-- The labels of one controller node. -/
theorem labels_controllerLines (mux : Mux) : definedLabels (controllerLines re naming mux) =
    (mux.pins.map fun pin => pinLabel mux.inst pin.index) ++
      (mux.emittedGroups re naming).map fun grp => groupLabel grp.1 := by
  simp [controllerLines, labels_pinLines, labels_groupLines, List.map_eq_flatMap]

theorem labels_emitPinctrl2 : definedLabels (emitPinctrl2 re naming muxes) =
    muxes.flatMap fun mux => (mux.pins.map fun pin => pinLabel mux.inst pin.index) ++
      (mux.emittedGroups re naming).map fun grp => groupLabel grp.1 := by
  have hconsumer : ∀ item : String × List String,
      definedLabels (consumerLines item.1 item.2) = [] := by
    intro item
    simp [consumerLines]
  simp [emitPinctrl2, labels_controllerLines, hconsumer]

theorem labels_emitConsumers : definedLabels (emitConsumers re naming muxes) =
    (legacyGroups re naming muxes).sortedItems.flatMap fun item =>
      item.2.sortedItems.map fun grp => groupLabel (sanitize grp.1) := by
  have hgroup : ∀ (key : String) (pins : List ℕ),
      definedLabels (legacyGroupLines key pins) = [groupLabel (sanitize key)] := by
    intro key pins
    simp [legacyGroupLines]
  simp [emitConsumers, hgroup, List.map_eq_flatMap]

/-! ### Names of groups and aliases -/

variable (re naming) in
/-- A slot of the mux contributes to the group. -/
def Mux.HasGroup (mux : Mux) (g : String) : Prop :=
  ∃ pin ∈ mux.pins, ∃ a ∈ pin.alts, ∃ m, slotMember re naming mux.inst pin.index a = some m ∧
    m.group = g

variable (re naming) in
/-- The naming table gives a group of the mux a second name, which is written as `name`. -/
def Mux.HasAlias (mux : Mux) (g name : String) : Prop :=
  mux.HasGroup re naming g ∧ ∃ target, naming.groupAliases.get? g = some target ∧
    sanitize target = name

variable (re naming) in
/-- A first alternate of the mux contributes to the legacy group of the key. -/
def Mux.HasLegacyGroup (mux : Mux) (key : String) : Prop :=
  ∃ pin ∈ mux.pins, ∃ a ∈ pin.alts, ∃ p,
    legacyMember re naming mux.inst pin.index a = some (key, p)

section Mux

variable {mux : Mux} {g name : String}

theorem mem_keys_iff_hasGroup :
    g ∈ (collectPinctrl2Groups re naming mux).keys ↔ mux.HasGroup re naming g := by
  rw [mem_groups_keys]
  simp only [Mux.members, List.mem_flatMap, List.mem_filterMap, Mux.HasGroup]
  constructor
  · rintro ⟨m, ⟨pin, hpin, a, ha, hm⟩, rfl⟩
    exact ⟨pin, hpin, a, ha, m, hm, rfl⟩
  · rintro ⟨pin, hpin, a, ha, m, hm, rfl⟩
    exact ⟨m, ⟨pin, hpin, a, ha, hm⟩, rfl⟩

theorem mem_sortedKeys_iff_hasGroup :
    g ∈ (collectPinctrl2Groups re naming mux).sortedItems.map Prod.fst ↔
      mux.HasGroup re naming g := by
  rw [((Dict.perm_sortedItems _).map Prod.fst).mem_iff]
  exact mem_keys_iff_hasGroup

theorem mem_legacyMembers {key : String} :
    (∃ m ∈ mux.legacyMembers re naming, m.1 = key) ↔ mux.HasLegacyGroup re naming key := by
  simp only [Mux.legacyMembers, List.mem_flatMap, List.mem_filterMap, Mux.HasLegacyGroup]
  constructor
  · rintro ⟨⟨key, p⟩, ⟨pin, hpin, a, ha, hm⟩, rfl⟩
    exact ⟨pin, hpin, a, ha, p, hm⟩
  · rintro ⟨pin, hpin, a, ha, p, hm⟩
    exact ⟨(key, p), ⟨pin, hpin, a, ha, hm⟩, rfl⟩

end Mux

/-! ### The labels of each kind -/

variable (muxes) in
def pinLabels : List String :=
  muxes.flatMap fun mux => (mux.pins.map Pin.index).map (pinLabel mux.inst)

variable (re naming muxes) in
def groupLabels : List String :=
  muxes.flatMap fun mux =>
    ((collectPinctrl2Groups re naming mux).sortedItems.map Prod.fst).map groupLabel

variable (re naming muxes) in
def aliasLabels : List String :=
  muxes.flatMap fun mux => (mux.presentAliases re naming).map fun item =>
    groupLabel (sanitize item.2)

theorem labels_perm : (definedLabels (emitPinctrl2 re naming muxes)).Perm
    (pinLabels muxes ++ (groupLabels re naming muxes ++ aliasLabels re naming muxes)) := by
  have hnames : ∀ mux : Mux, (mux.emittedGroups re naming).map (groupLabel ∘ Prod.fst) =
      ((collectPinctrl2Groups re naming mux).sortedItems.map Prod.fst).map groupLabel ++
        (mux.presentAliases re naming).map fun item => groupLabel (sanitize item.2) := by
    intro mux
    rw [← List.map_map, map_fst_emittedGroups, map_fst_aliases, List.map_append]
    exact congrArg (_ ++ ·) List.map_map
  have hpins : ∀ mux : Mux, (mux.pins.map Pin.index).map (pinLabel mux.inst) =
      mux.pins.map fun pin => pinLabel mux.inst pin.index := fun mux => List.map_map
  have hlabels : definedLabels (emitPinctrl2 re naming muxes) = muxes.flatMap fun mux =>
      (mux.pins.map Pin.index).map (pinLabel mux.inst) ++
        (((collectPinctrl2Groups re naming mux).sortedItems.map Prod.fst).map groupLabel ++
          (mux.presentAliases re naming).map fun item => groupLabel (sanitize item.2)) := by
    rw [labels_emitPinctrl2]
    exact List.flatMap_congr fun mux _ => by rw [hpins mux, ← hnames mux]; rfl
  rw [hlabels]
  exact (List.flatMap_append_perm _ _ _).symm.trans
    (List.Perm.append_left _ (List.flatMap_append_perm _ _ _).symm)

theorem mem_pinLabels {l : String} :
    l ∈ pinLabels muxes ↔ ∃ mux ∈ muxes, ∃ pin ∈ mux.pins, l = pinLabel mux.inst pin.index := by
  simp [pinLabels, eq_comm]

theorem mem_groupLabels {l : String} : l ∈ groupLabels re naming muxes ↔
    ∃ mux ∈ muxes, ∃ g, mux.HasGroup re naming g ∧ l = groupLabel g := by
  rw [groupLabels, List.mem_flatMap]
  refine exists_congr fun mux => and_congr_right fun _ => ?_
  rw [List.mem_map]
  exact exists_congr fun g => and_congr mem_sortedKeys_iff_hasGroup eq_comm

theorem mem_aliasLabels {l : String} : l ∈ aliasLabels re naming muxes ↔
    ∃ mux ∈ muxes, ∃ g name, mux.HasAlias re naming g name ∧ l = groupLabel name := by
  simp only [aliasLabels, List.mem_flatMap, List.mem_map, Prod.exists, mem_presentAliases,
    mem_keys_iff_hasGroup, Mux.HasAlias]
  refine exists_congr fun mux => and_congr_right fun _ => exists_congr fun g => ?_
  constructor
  · rintro ⟨target, ⟨hgrp, htarget⟩, rfl⟩
    exact ⟨_, ⟨hgrp, target, htarget, rfl⟩, rfl⟩
  · rintro ⟨name, ⟨hgrp, target, htarget, rfl⟩, rfl⟩
    exact ⟨target, ⟨hgrp, htarget⟩, rfl⟩

/-- Pin labels never meet. -/
theorem pinLabels_nodup (hinst : (muxes.map Mux.inst).Nodup) : (pinLabels muxes).Nodup :=
  (nodup_tagged_map_iff hinst (fun mux _ => mux.indices_nodup) pinLabel).mpr
    fun _ _ _ _ _ _ _ _ heq => pinLabel_inj heq

theorem groupLabels_nodup_iff (hinst : (muxes.map Mux.inst).Nodup) :
    (groupLabels re naming muxes).Nodup ↔ ∀ mux ∈ muxes, ∀ mux' ∈ muxes, ∀ g,
      mux.HasGroup re naming g → mux'.HasGroup re naming g → mux.inst = mux'.inst := by
  rw [groupLabels, nodup_tagged_map_iff hinst (fun _ _ => Dict.nodup_sortedItems _)
    fun _ => groupLabel]
  simp only [mem_sortedKeys_iff_hasGroup]
  constructor
  · intro h mux hmux mux' hmux' g hg hg'
    exact (h mux hmux g hg mux' hmux' g hg' rfl).1
  · intro h mux hmux g hg mux' hmux' g' hg' heq
    obtain rfl := groupLabel_injective heq
    exact ⟨h mux hmux mux' hmux' g hg hg', rfl⟩

theorem aliasLabels_nodup_iff (hinst : (muxes.map Mux.inst).Nodup) :
    (aliasLabels re naming muxes).Nodup ↔ ∀ mux ∈ muxes, ∀ mux' ∈ muxes, ∀ g g' name,
      mux.HasAlias re naming g name → mux'.HasAlias re naming g' name →
        mux.inst = mux'.inst ∧ g = g' := by
  have hparts : ∀ mux ∈ muxes, (mux.presentAliases re naming).Nodup := fun _ _ =>
    naming.groupAliases.nodup.of_map.filter _
  rw [aliasLabels, nodup_tagged_map_iff hinst hparts fun _ item => groupLabel (sanitize item.2)]
  constructor
  · rintro h mux hmux mux' hmux' g g' name ⟨hg, target, htarget, rfl⟩ ⟨hg', target', htarget', heq⟩
    have hitem := mem_presentAliases.mpr ⟨mem_keys_iff_hasGroup.mpr hg, htarget⟩
    have hitem' := mem_presentAliases.mpr ⟨mem_keys_iff_hasGroup.mpr hg', htarget'⟩
    obtain ⟨hmuxes, heq⟩ := h mux hmux _ hitem mux' hmux' _ hitem' (congrArg groupLabel heq.symm)
    exact ⟨hmuxes, congrArg Prod.fst heq⟩
  · rintro h mux hmux ⟨g, target⟩ hitem mux' hmux' ⟨g', target'⟩ hitem' heq
    obtain ⟨hg, htarget⟩ := mem_presentAliases.mp hitem
    obtain ⟨hg', htarget'⟩ := mem_presentAliases.mp hitem'
    obtain ⟨hmuxes, rfl⟩ := h mux hmux mux' hmux' g g' _
      ⟨mem_keys_iff_hasGroup.mp hg, target, htarget, rfl⟩
      ⟨mem_keys_iff_hasGroup.mp hg', target', htarget', (groupLabel_injective heq).symm⟩
    rw [htarget] at htarget'
    exact ⟨hmuxes, Prod.ext rfl (Option.some.inj htarget')⟩

/-! ### Legacy groups -/

theorem legacyGroups_keys {inst key : String} :
    (∃ groups, (legacyGroups re naming muxes).get? inst = some groups ∧ key ∈ groups.keys) ↔
      ∃ mux ∈ muxes, mux.inst = inst ∧ mux.HasLegacyGroup re naming key := by
  rw [legacyGroups, mem_keys_foldl_groups]
  simp only [← mem_legacyMembers, List.mem_flatMap, List.mem_map]
  constructor
  · rintro ⟨-, ⟨mux, hmux, m, hm, rfl⟩, hinst, hkey⟩
    exact ⟨mux, hmux, hinst, m, hm, hkey⟩
  · rintro ⟨mux, hmux, hinst, m, hm, hkey⟩
    exact ⟨_, ⟨mux, hmux, m, hm, rfl⟩, hinst, hkey⟩

/-- Legacy labels are distinct exactly if no two keys are written alike. -/
theorem labels_emitConsumers_nodup_iff : (definedLabels (emitConsumers re naming muxes)).Nodup ↔
    ∀ mux ∈ muxes, ∀ mux' ∈ muxes, ∀ key key', mux.HasLegacyGroup re naming key →
      mux'.HasLegacyGroup re naming key' → sanitize key = sanitize key' →
        mux.inst = mux'.inst ∧ key = key' := by
  have hlabels : definedLabels (emitConsumers re naming muxes) =
      (legacyGroups re naming muxes).sortedItems.flatMap fun item =>
        (item.2.sortedItems.map Prod.fst).map fun key => groupLabel (sanitize key) := by
    rw [labels_emitConsumers]
    refine List.flatMap_congr fun item _ => ?_
    rw [List.map_map]
    rfl
  have hmem {inst key : String} : (∃ mux ∈ muxes, mux.inst = inst ∧
      mux.HasLegacyGroup re naming key) ↔ ∃ item ∈ (legacyGroups re naming muxes).sortedItems,
        item.1 = inst ∧ key ∈ item.2.sortedItems.map Prod.fst := by
    rw [← legacyGroups_keys]
    constructor
    · rintro ⟨groups, hgroups, hkey⟩
      refine ⟨(inst, groups), (Dict.mem_sortedItems _).mpr hgroups, rfl, ?_⟩
      exact ((Dict.perm_sortedItems groups).map Prod.fst).mem_iff.mpr hkey
    · rintro ⟨⟨inst, groups⟩, hitem, rfl, hkey⟩
      refine ⟨groups, (Dict.mem_sortedItems _).mp hitem, ?_⟩
      exact ((Dict.perm_sortedItems groups).map Prod.fst).mem_iff.mp hkey
  rw [hlabels, nodup_tagged_map_iff (Dict.nodup_sortedItems _)
    (fun item _ => item.2.nodup_sortedItems) fun _ key => groupLabel (sanitize key)]
  constructor
  · intro h mux hmux mux' hmux' key key' hkey hkey' heq
    obtain ⟨item, hitem, hinst, hk⟩ := hmem.mp ⟨mux, hmux, rfl, hkey⟩
    obtain ⟨item', hitem', hinst', hk'⟩ := hmem.mp ⟨mux', hmux', rfl, hkey'⟩
    rw [← hinst, ← hinst']
    exact h item hitem key hk item' hitem' key' hk' (congrArg groupLabel heq)
  · intro h item hitem key hk item' hitem' key' hk' heq
    obtain ⟨mux, hmux, hinst, hkey⟩ := hmem.mpr ⟨item, hitem, rfl, hk⟩
    obtain ⟨mux', hmux', hinst', hkey'⟩ := hmem.mpr ⟨item', hitem', rfl, hk'⟩
    rw [← hinst, ← hinst']
    exact h mux hmux mux' hmux' key key' hkey hkey' (groupLabel_injective heq)

/-! ### Consumers -/

theorem mem_allGroups_keys {g : String} :
    g ∈ (allGroups re naming muxes).keys ↔ ∃ mux ∈ muxes, mux.HasGroup re naming g := by
  rw [allGroups, mem_keys_foldl_modify]
  simp only [List.mem_flatMap, ← mem_sortedKeys_iff_hasGroup, List.mem_map]
  constructor
  · rintro ⟨item, ⟨mux, hmux, hitem⟩, rfl⟩
    exact ⟨mux, hmux, item, hitem, rfl⟩
  · rintro ⟨mux, hmux, item, hitem, rfl⟩
    exact ⟨item, ⟨mux, hmux, hitem⟩, rfl⟩

/-- A consumer is wired to the label of a group of some mux. -/
theorem consumer_label {cons : String} {plabels : List String}
    (h : (byConsumer re naming muxes).get? cons = some plabels) :
    ∃ l ∈ groupLabels re naming muxes, plabels.headD "" = l := by
  obtain ⟨hlabels, hne⟩ := get?_foldl_append.mp h
  obtain ⟨l, rest, rfl⟩ := List.exists_cons_of_ne_nil hne
  have hl : l ∈ l :: rest := List.mem_cons_self
  rw [hlabels] at hl
  obtain ⟨x, hx, rfl⟩ := List.mem_map.mp hl
  obtain ⟨item, hitem, hx⟩ := List.mem_flatMap.mp (List.mem_filter.mp hx).1
  obtain ⟨cons', -, rfl⟩ := List.mem_map.mp hx
  have hkey := (Dict.mem_keys _).mpr ⟨item.2, (Dict.mem_sortedItems _).mp hitem⟩
  obtain ⟨mux, hmux, hgrp⟩ := mem_allGroups_keys.mp hkey
  exact ⟨_, mem_groupLabels.mpr ⟨mux, hmux, item.1, hgrp, rfl⟩, rfl⟩

/-! ### When every label is defined once -/

/-- Every label of either file is defined once, siblings have different names, and every reference
of a consumer is to a label that is defined exactly once. -/
structure LabelsResolve (re : Regex) (naming : Naming) (muxes : List Mux) : Prop where
  labels : (definedLabels (emitPinctrl2 re naming muxes)).Nodup
  nodes : ∃ nodes, readFile (emitPinctrl2 re naming muxes) = some nodes ∧ ∀ node ∈ nodes,
    (node.children.map Node.name).Nodup ∧
    ∀ value, node.props.lookup "pinctrl-0" = some value → ∃ l, readReference value = some l ∧
      (definedLabels (emitPinctrl2 re naming muxes)).count l = 1
  legacyLabels : (definedLabels (emitConsumers re naming muxes)).Nodup

/-- No two muxes have a group of one name, no two aliases are written alike or like a group, no
pin label reads like the label of a group or an alias, and no two legacy keys are written alike. -/
structure NoCollision (re : Regex) (naming : Naming) (muxes : List Mux) : Prop where
  group_group : ∀ mux ∈ muxes, ∀ mux' ∈ muxes, ∀ g, mux.HasGroup re naming g →
    mux'.HasGroup re naming g → mux.inst = mux'.inst
  alias_alias : ∀ mux ∈ muxes, ∀ mux' ∈ muxes, ∀ g g' name, mux.HasAlias re naming g name →
    mux'.HasAlias re naming g' name → mux.inst = mux'.inst ∧ g = g'
  group_alias : ∀ mux ∈ muxes, ∀ mux' ∈ muxes, ∀ g name, mux.HasGroup re naming name →
    ¬ mux'.HasAlias re naming g name
  pin_group : ∀ mux ∈ muxes, ∀ pin ∈ mux.pins, ∀ mux' ∈ muxes, ∀ g, mux'.HasGroup re naming g →
    pinLabel mux.inst pin.index ≠ groupLabel g
  pin_alias : ∀ mux ∈ muxes, ∀ pin ∈ mux.pins, ∀ mux' ∈ muxes, ∀ g name,
    mux'.HasAlias re naming g name → pinLabel mux.inst pin.index ≠ groupLabel name
  legacy : ∀ mux ∈ muxes, ∀ mux' ∈ muxes, ∀ key key', mux.HasLegacyGroup re naming key →
    mux'.HasLegacyGroup re naming key' → sanitize key = sanitize key' →
      mux.inst = mux'.inst ∧ key = key'

theorem labels_nodup_iff : (definedLabels (emitPinctrl2 re naming muxes)).Nodup ↔
    (pinLabels muxes).Nodup ∧ ((groupLabels re naming muxes).Nodup ∧
      (aliasLabels re naming muxes).Nodup ∧
      (groupLabels re naming muxes).Disjoint (aliasLabels re naming muxes)) ∧
    (pinLabels muxes).Disjoint (groupLabels re naming muxes ++ aliasLabels re naming muxes) := by
  rw [labels_perm.nodup_iff, List.nodup_append', List.nodup_append']

/-- With distinct labels the children of a controller have distinct names. -/
theorem children_nodup (h : (definedLabels (emitPinctrl2 re naming muxes)).Nodup) {mux : Mux}
    (hmux : mux ∈ muxes) : ((controllerNode re naming mux).children.map Node.name).Nodup := by
  have hlabels : (((mux.emittedGroups re naming).map Prod.fst).map groupLabel).Nodup := by
    rw [labels_emitPinctrl2, List.nodup_flatMap] at h
    rw [List.map_map]
    exact (List.nodup_append'.mp (h.1 mux hmux)).2.1
  have hpins := mux.indices_nodup.map pinNodeName_injective
  have hgroups := hlabels.of_map.map groupNodeName_injective
  rw [List.map_map] at hpins hgroups
  change ((mux.pins.map (pinNode re naming mux) ++
    (mux.emittedGroups re naming).map groupNode).map Node.name).Nodup
  rw [List.map_append, List.map_map, List.map_map, List.nodup_append']
  refine ⟨hpins, hgroups, List.disjoint_left.mpr fun name hpin hgrp => ?_⟩
  obtain ⟨pin, -, rfl⟩ := List.mem_map.mp hpin
  obtain ⟨grp, -, hname⟩ := List.mem_map.mp hgrp
  exact append_number_ne (groupNodeName_endsPlain grp.1) "pin@" pin.index hname.symm

theorem references_resolve (h : (definedLabels (emitPinctrl2 re naming muxes)).Nodup)
    {cons : String} {plabels : List String}
    (hcons : (byConsumer re naming muxes).get? cons = some plabels) :
    (definedLabels (emitPinctrl2 re naming muxes)).count (plabels.headD "") = 1 := by
  obtain ⟨l, hl, hhead⟩ := consumer_label hcons
  rw [hhead]
  refine List.count_eq_one_of_mem h (labels_perm.mem_iff.mpr ?_)
  exact List.mem_append_right _ (List.mem_append_left _ hl)

theorem groupLabels_disjoint_iff :
    (groupLabels re naming muxes).Disjoint (aliasLabels re naming muxes) ↔
      ∀ mux ∈ muxes, ∀ mux' ∈ muxes, ∀ g name, mux.HasGroup re naming name →
        ¬ mux'.HasAlias re naming g name := by
  rw [List.disjoint_left]
  constructor
  · intro h mux hmux mux' hmux' g name hname halias
    exact h (mem_groupLabels.mpr ⟨mux, hmux, name, hname, rfl⟩)
      (mem_aliasLabels.mpr ⟨mux', hmux', g, name, halias, rfl⟩)
  · intro h l hgrp halias
    obtain ⟨mux, hmux, name, hname, rfl⟩ := mem_groupLabels.mp hgrp
    obtain ⟨mux', hmux', g, name', halias, heq⟩ := mem_aliasLabels.mp halias
    obtain rfl := groupLabel_injective heq
    exact h mux hmux mux' hmux' g name hname halias

theorem pinLabels_disjoint_iff :
    (pinLabels muxes).Disjoint (groupLabels re naming muxes ++ aliasLabels re naming muxes) ↔
      (∀ mux ∈ muxes, ∀ pin ∈ mux.pins, ∀ mux' ∈ muxes, ∀ g, mux'.HasGroup re naming g →
        pinLabel mux.inst pin.index ≠ groupLabel g) ∧
      ∀ mux ∈ muxes, ∀ pin ∈ mux.pins, ∀ mux' ∈ muxes, ∀ g name, mux'.HasAlias re naming g name →
        pinLabel mux.inst pin.index ≠ groupLabel name := by
  rw [List.disjoint_append_right, List.disjoint_left, List.disjoint_left]
  refine and_congr ⟨?_, ?_⟩ ⟨?_, ?_⟩
  · intro h mux hmux pin hpin mux' hmux' g hg heq
    exact h (mem_pinLabels.mpr ⟨mux, hmux, pin, hpin, rfl⟩)
      (mem_groupLabels.mpr ⟨mux', hmux', g, hg, heq⟩)
  · intro h l hl hgrp
    obtain ⟨mux, hmux, pin, hpin, rfl⟩ := mem_pinLabels.mp hl
    obtain ⟨mux', hmux', g, hg, heq⟩ := mem_groupLabels.mp hgrp
    exact h mux hmux pin hpin mux' hmux' g hg heq
  · intro h mux hmux pin hpin mux' hmux' g name halias heq
    exact h (mem_pinLabels.mpr ⟨mux, hmux, pin, hpin, rfl⟩)
      (mem_aliasLabels.mpr ⟨mux', hmux', g, name, halias, heq⟩)
  · intro h l hl halias
    obtain ⟨mux, hmux, pin, hpin, rfl⟩ := mem_pinLabels.mp hl
    obtain ⟨mux', hmux', g, name, halias, heq⟩ := mem_aliasLabels.mp halias
    exact h mux hmux pin hpin mux' hmux' g name halias heq

/-- With distinct labels the nodes have distinct siblings and references that resolve. -/
theorem nodes_resolve (h : (definedLabels (emitPinctrl2 re naming muxes)).Nodup) {node : Node}
    (hnode : node ∈ muxes.map (controllerNode re naming) ++
      (byConsumer re naming muxes).sortedItems.map consumerNode) :
    (node.children.map Node.name).Nodup ∧
    ∀ value, node.props.lookup "pinctrl-0" = some value → ∃ l, readReference value = some l ∧
      (definedLabels (emitPinctrl2 re naming muxes)).count l = 1 := by
  rcases List.mem_append.mp hnode with hnode | hnode
  · obtain ⟨mux, hmux, rfl⟩ := List.mem_map.mp hnode
    exact ⟨children_nodup h hmux, fun value hvalue => by cases hvalue⟩
  · obtain ⟨⟨cons, plabels⟩, hitem, rfl⟩ := List.mem_map.mp hnode
    refine ⟨List.nodup_nil, fun value hvalue => ⟨plabels.headD "", ?_, ?_⟩⟩
    · rw [← Option.some.inj hvalue]
      exact readReference_label _
    · exact references_resolve h ((Dict.mem_sortedItems _).mp hitem)

/-- Labels resolve exactly if no two names collide. -/
theorem labels_resolve_iff (hinst : (muxes.map Mux.inst).Nodup) :
    LabelsResolve re naming muxes ↔ NoCollision re naming muxes := by
  constructor
  · intro h
    obtain ⟨-, ⟨hgroups, haliases, hdisjoint⟩, hpins⟩ := labels_nodup_iff.mp h.labels
    exact
      { group_group := (groupLabels_nodup_iff hinst).mp hgroups
        alias_alias := (aliasLabels_nodup_iff hinst).mp haliases
        group_alias := groupLabels_disjoint_iff.mp hdisjoint
        pin_group := (pinLabels_disjoint_iff.mp hpins).1
        pin_alias := (pinLabels_disjoint_iff.mp hpins).2
        legacy := labels_emitConsumers_nodup_iff.mp h.legacyLabels }
  · intro h
    have hlabels := labels_nodup_iff.mpr ⟨pinLabels_nodup hinst,
      ⟨(groupLabels_nodup_iff hinst).mpr h.group_group,
        (aliasLabels_nodup_iff hinst).mpr h.alias_alias,
        groupLabels_disjoint_iff.mpr h.group_alias⟩,
      pinLabels_disjoint_iff.mpr ⟨h.pin_group, h.pin_alias⟩⟩
    exact
      { labels := hlabels
        nodes := ⟨_, readFile_emitPinctrl2 re naming muxes, fun _ => nodes_resolve hlabels⟩
        legacyLabels := labels_emitConsumers_nodup_iff.mpr h.legacy }

/-- Two muxes that lead the two wires of one bus controller to pins. -/
def sharedDesign : Element :=
  .mk "EDKSYSTEM" [] [.mk "MODULES" []
    [sampleModule "axi_iic_0" "axi_iic" [("scl_o", "iic_scl"), ("sda_o", "iic_sda")],
     sampleModule "axi_mux_0" "aximux" [("sig0incoming1", "iic_scl")],
     sampleModule "axi_mux_1" "aximux" [("sig0incoming1", "iic_sda")]]]

theorem sharedDesign_insts : ((parseMuxes sharedDesign).map Mux.inst).Nodup := by decide +kernel

theorem sharedDesign_labels :
    ¬ (definedLabels (emitPinctrl2 noRules defaultNaming (parseMuxes sharedDesign))).Nodup := by
  decide +kernel

/-- Both controllers define the label of the group of the bus controller. -/
theorem labels_not_resolved : ¬ ∀ (re : Regex) (naming : Naming) (root : Element),
    ((parseMuxes root).map Mux.inst).Nodup → LabelsResolve re naming (parseMuxes root) := by
  intro h
  exact sharedDesign_labels (h noRules defaultNaming sharedDesign sharedDesign_insts).labels

theorem labels_resolve_iff_sample :
    ¬ NoCollision noRules defaultNaming (parseMuxes sharedDesign) := by
  rw [← labels_resolve_iff sharedDesign_insts]
  exact fun h => sharedDesign_labels h.labels

end AximuxSystem.Tool
