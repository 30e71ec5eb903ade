import AximuxSystem.Foundation.Grouping
import AximuxSystem.Tool.Nodes

/-!
# Consumers of the groups

Which device labels a group serves, and what becomes of them on the way through
the sets of the groups, their union over the muxes, and the inversion into one
list of groups for every device label, of which the first is written.
-/

namespace AximuxSystem.Tool

open Collections Text Dts

variable {re : Regex} {naming : Naming} {mux : Mux} {muxes : List Mux} {g cons : String}

/-! ### Served device labels -/

/-- The peer label of a slot, from which its entry is collected. -/
def Slot.rawLabel (a : Slot) : Option String := (netLabel a.incoming).or (netLabel a.outgoing)

/-- The device label of a peer: that of its instance, which stands for itself if not listed. -/
def deviceLabel (naming : Naming) (raw : String) : String :=
  (naming.consumerLabels.get? (labelInst raw)).getD (labelInst raw)

/-- Some entry of the group, in some mux, was collected from a peer with that device label. -/
def Serves (re : Regex) (naming : Naming) (muxes : List Mux) (g cons : String) : Prop :=
  ∃ mux ∈ muxes, ∃ grp, (collectPinctrl2Groups re naming mux).get? g = some grp ∧
    ∃ pin ∈ mux.pins, ∃ a ∈ pin.alts, (pin.index, a.alt) ∈ grp.entries ∧
      ∃ raw, a.rawLabel = some raw ∧ deviceLabel naming raw = cons

/-- An entry belongs to one slot, and so to one peer label. -/
theorem serves_iff : Serves re naming muxes g cons ↔
    ∃ mux ∈ muxes, ∃ m ∈ mux.members re naming, m.group = g ∧ m.consumer = cons := by
  refine exists_congr fun mux => and_congr_right fun _ => ?_
  constructor
  · rintro ⟨grp, hgrp, pin, hpin, a, ha, hentry, raw, hraw, rfl⟩
    obtain ⟨m, hm, hgroup, heq⟩ := mem_group_entries.mp ⟨grp, hgrp, hentry⟩
    obtain ⟨pin', hpin', a', ha', -, raw', hlabel, rfl⟩ := mem_members.mp hm
    obtain ⟨hindex, halt⟩ := Prod.mk.inj heq
    obtain rfl := List.inj_on_of_nodup_map mux.indices_nodup hpin' hpin hindex
    obtain rfl := List.inj_on_of_nodup_map pin'.alts_nodup ha' ha halt
    have hraw' : a'.rawLabel = some raw' := (Option.filter_eq_some_iff.mp hlabel).1
    obtain rfl := Option.some.inj (hraw.symm.trans hraw')
    exact ⟨_, hm, hgroup, rfl⟩
  · rintro ⟨m, hm, rfl, rfl⟩
    obtain ⟨grp, hgrp, hentry⟩ := mem_group_entries.mpr ⟨m, hm, rfl, rfl⟩
    obtain ⟨pin, hpin, a, ha, -, raw, hlabel, rfl⟩ := mem_members.mp hm
    exact ⟨grp, hgrp, pin, hpin, a, ha, hentry, raw, (Option.filter_eq_some_iff.mp hlabel).1, rfl⟩

/-! ### Sets of device labels -/

theorem mem_addToSet {xs : List String} {x c : String} : c ∈ addToSet xs x ↔ c ∈ xs ∨ c = x := by
  rw [addToSet]
  split_ifs with hx
  · constructor
    · exact .inl
    · rintro (hc | rfl)
      · exact hc
      · exact hx
  · rw [List.mem_append, List.mem_singleton]

theorem mem_unionSet {xs ys : List String} {c : String} :
    c ∈ unionSet xs ys ↔ c ∈ xs ∨ c ∈ ys := by
  rw [unionSet]
  induction ys generalizing xs with
  | nil => simp
  | cons y ys ih => rw [List.foldl_cons, ih, mem_addToSet, List.mem_cons, or_assoc]

/-- The members put their device labels into the set of the group, but for empty ones. -/
theorem mem_foldl_add {ms : List Member} {grp : PinGroup} :
    cons ∈ (ms.foldl PinGroup.add grp).consumers ↔
      cons ∈ grp.consumers ∨ cons ≠ "" ∧ ∃ m ∈ ms, m.consumer = cons := by
  induction ms generalizing grp with
  | nil => simp
  | cons m ms ih =>
    have hadd : cons ∈ (grp.add m).consumers ↔
        cons ∈ grp.consumers ∨ cons ≠ "" ∧ m.consumer = cons := by
      rw [PinGroup.add]
      split_ifs with hm
      · rw [mem_addToSet]
        constructor
        · rintro (hc | rfl)
          · exact .inl hc
          · exact .inr ⟨hm, rfl⟩
        · rintro (hc | ⟨-, rfl⟩)
          · exact .inl hc
          · exact .inr rfl
      · constructor
        · exact .inl
        · rintro (hc | ⟨hne, rfl⟩)
          · exact hc
          · exact absurd hne hm
    rw [List.foldl_cons, ih, hadd, List.exists_mem_cons_iff, and_or_left, or_assoc]

theorem mem_group_consumers {grp : PinGroup}
    (h : (collectPinctrl2Groups re naming mux).get? g = some grp) :
    cons ∈ grp.consumers ↔
      cons ≠ "" ∧ ∃ m ∈ mux.members re naming, m.group = g ∧ m.consumer = cons := by
  rw [groups_get?] at h
  split_ifs at h
  rw [← Option.some.inj h, mem_foldl_add]
  simp [and_assoc]

theorem mem_foldl_unionSet {items : List (String × PinGroup)} {xs : List String} :
    cons ∈ items.foldl (fun old item => unionSet old item.2.consumers) xs ↔
      cons ∈ xs ∨ ∃ item ∈ items, cons ∈ item.2.consumers := by
  induction items generalizing xs with
  | nil => simp
  | cons item items ih =>
    rw [List.foldl_cons, ih, mem_unionSet, List.exists_mem_cons_iff, or_assoc]

/-- Over all muxes a group has the device labels it serves. -/
theorem mem_allGroups : (∃ set, (allGroups re naming muxes).get? g = some set ∧ cons ∈ set) ↔
    cons ≠ "" ∧ Serves re naming muxes g cons := by
  have hitem : ∀ item : String × PinGroup,
      (item ∈ (muxes.flatMap fun mux => (collectPinctrl2Groups re naming mux).sortedItems) ↔
        ∃ mux ∈ muxes, (collectPinctrl2Groups re naming mux).get? item.1 = some item.2) := by
    intro item
    simp only [List.mem_flatMap, ← Dict.mem_sortedItems]
  have hget : (∃ set, (allGroups re naming muxes).get? g = some set ∧ cons ∈ set) ↔
      ∃ item ∈ (muxes.flatMap fun mux => (collectPinctrl2Groups re naming mux).sortedItems),
        item.1 = g ∧ cons ∈ item.2.consumers := by
    rw [allGroups]
    simp only [get?_foldl_modify Prod.fst [] fun (item : String × PinGroup) old =>
      unionSet old item.2.consumers]
    split_ifs with h
    · simp [mem_foldl_unionSet, and_assoc]
    · simp only [Dict.get?_empty, reduceCtorEq, false_and, exists_false, false_iff]
      rintro ⟨item, hmem, hg, -⟩
      exact h ⟨item, hmem, hg⟩
  rw [hget, serves_iff]
  simp only [hitem]
  constructor
  · rintro ⟨⟨g, grp⟩, ⟨mux, hmux, hgrp⟩, rfl, hcons⟩
    obtain ⟨hne, hm⟩ := (mem_group_consumers hgrp).mp hcons
    exact ⟨hne, mux, hmux, hm⟩
  · rintro ⟨hne, mux, hmux, m, hm, rfl, hcons⟩
    obtain ⟨grp, hgrp⟩ := (Dict.mem_keys _).mp (mem_groups_keys.mpr ⟨m, hm, rfl⟩)
    exact ⟨(m.group, grp), ⟨mux, hmux, hgrp⟩, rfl,
      (mem_group_consumers hgrp).mpr ⟨hne, m, hm, rfl, hcons⟩⟩

/-! ### Groups of a device label -/

variable (re naming muxes) in
/-- Device labels with the groups that serve them, group by group. -/
def wirings : List (String × String) :=
  (allGroups re naming muxes).sortedItems.flatMap fun item =>
    ((item.2.insertionSort (· ≤ ·)).filter fun cons => !naming.skipConsumers.contains cons).map
      fun cons => (cons, item.1)

theorem byConsumer_eq : byConsumer re naming muxes =
    Grouping.grouped ((wirings re naming muxes).map fun x => (x.1, groupLabel x.2)) := by
  rw [wirings, List.map_flatMap]
  simp only [List.map_map]
  rfl

theorem mem_wirings : (cons, g) ∈ wirings re naming muxes ↔
    cons ≠ "" ∧ cons ∉ naming.skipConsumers ∧ Serves re naming muxes g cons := by
  rw [and_left_comm, ← mem_allGroups]
  simp only [wirings, List.mem_flatMap, List.mem_map, List.mem_filter, List.mem_insertionSort,
    Bool.not_eq_true', List.contains_eq_mem, decide_eq_false_iff_not, Prod.exists, Prod.mk.injEq,
    Dict.mem_sortedItems]
  constructor
  · rintro ⟨g, set, hget, cons, ⟨hcons, hskip⟩, rfl, rfl⟩
    exact ⟨hskip, set, hget, hcons⟩
  · rintro ⟨hskip, set, hget, hcons⟩
    exact ⟨g, set, hget, cons, ⟨hcons, hskip⟩, rfl, rfl⟩

/-- The groups come in the order of their names. -/
theorem wirings_sorted : (wirings re naming muxes).Pairwise fun x y => x.2 ≤ y.2 := by
  rw [wirings, List.pairwise_flatMap]
  refine ⟨fun item _ => ?_, ?_⟩
  · rw [List.pairwise_map]
    exact List.pairwise_of_forall fun _ _ => le_rfl
  · refine (List.pairwise_map.mp (Dict.sortedItems_increasing _)).imp fun {a b} hlt x hx y hy => ?_
    obtain ⟨_, -, rfl⟩ := List.mem_map.mp hx
    obtain ⟨_, -, rfl⟩ := List.mem_map.mp hy
    exact hlt.le

theorem byConsumer_get? {plabels : List String} :
    (byConsumer re naming muxes).get? cons = some plabels ↔
      plabels = (Grouping.valuesOf cons (wirings re naming muxes)).map groupLabel ∧
        plabels ≠ [] := by
  rw [byConsumer_eq, Grouping.get?_grouped, Grouping.valuesOf_map]

theorem mem_byConsumer_keys : cons ∈ (byConsumer re naming muxes).keys ↔
    cons ≠ "" ∧ cons ∉ naming.skipConsumers ∧ ∃ g, Serves re naming muxes g cons := by
  simp only [← exists_and_left, ← mem_wirings, ← Grouping.mem_valuesOf]
  rw [Dict.mem_keys]
  simp only [byConsumer_get?]
  constructor
  · rintro ⟨plabels, rfl, hne⟩
    exact List.exists_mem_of_ne_nil _ fun h => hne (by rw [h, List.map_nil])
  · rintro ⟨g, hg⟩
    exact ⟨_, rfl, List.ne_nil_of_mem (List.mem_map_of_mem hg)⟩

/-- The first label of a device label is that of the first group that serves it. -/
theorem first_group {plabels : List String}
    (h : (byConsumer re naming muxes).get? cons = some plabels) :
    ∃ g, plabels.headD "" = groupLabel g ∧ Serves re naming muxes g cons ∧
      ∀ g', Serves re naming muxes g' cons → g ≤ g' := by
  obtain ⟨hlabels, hne⟩ := byConsumer_get?.mp h
  have hkey := mem_byConsumer_keys.mp ((Dict.mem_keys _).mpr ⟨plabels, h⟩)
  have hsorted : (Grouping.valuesOf cons (wirings re naming muxes)).Pairwise (· ≤ ·) := by
    rw [Grouping.valuesOf, List.pairwise_map]
    exact wirings_sorted.sublist List.filter_sublist
  have hmem : ∀ g', g' ∈ Grouping.valuesOf cons (wirings re naming muxes) ↔
      Serves re naming muxes g' cons := fun g' => by
    rw [Grouping.mem_valuesOf, mem_wirings, and_iff_right hkey.1, and_iff_right hkey.2.1]
  cases hvalues : Grouping.valuesOf cons (wirings re naming muxes) with
  | nil => exact absurd (by rw [hlabels, hvalues, List.map_nil]) hne
  | cons g rest =>
    rw [hvalues] at hsorted hmem
    refine ⟨g, ?_, (hmem g).mp List.mem_cons_self, fun g' hg' => ?_⟩
    · rw [hlabels, hvalues]
      rfl
    · rcases List.mem_cons.mp ((hmem g').mpr hg') with rfl | hrest
      · exact le_rfl
      · exact List.rel_of_pairwise_cons hsorted hrest

/-! ### Consumer blocks -/

/-- A node that gives the device `cons` its default pin state. -/
def isConsumerBlock (cons : String) (node : Node) : Bool :=
  node.name == "&" ++ cons && (node.props.lookup "pinctrl-0").isSome

/-- The nodes have one block for a device label that is served and not to be skipped, and none
for another; the block refers to the first group that serves it. -/
structure ConsumerWired (re : Regex) (naming : Naming) (muxes : List Mux) (nodes : List Node)
    (cons : String) : Prop where
  present_iff : (∃ node ∈ nodes, isConsumerBlock cons node = true) ↔
    cons ≠ "" ∧ cons ∉ naming.skipConsumers ∧ ∃ g, Serves re naming muxes g cons
  once : nodes.countP (isConsumerBlock cons) ≤ 1
  first : ∀ node ∈ nodes, isConsumerBlock cons node = true → ∃ value g,
    node.props.lookup "pinctrl-0" = some value ∧ readReference value = some (groupLabel g) ∧
      Serves re naming muxes g cons ∧ ∀ g', Serves re naming muxes g' cons → g ≤ g'

theorem isConsumerBlock_consumerNode (item : String × List String) :
    isConsumerBlock cons (consumerNode item) = true ↔ item.1 = cons := by
  simp [isConsumerBlock, consumerNode, Node.name, Node.props, consumerProps]

theorem isConsumerBlock_controllerNode (mux : Mux) :
    isConsumerBlock cons (controllerNode re naming mux) = false := by
  have hprop : (controllerNode re naming mux).props.lookup "pinctrl-0" = none := rfl
  rw [isConsumerBlock, hprop, Option.isSome_none, Bool.and_false]

/-- The blocks of a device label are the entries of the inverted table. -/
theorem exists_consumerBlock {node : Node} : (node ∈ muxes.map (controllerNode re naming) ++
      (byConsumer re naming muxes).sortedItems.map consumerNode ∧
        isConsumerBlock cons node = true) ↔
    ∃ plabels, (byConsumer re naming muxes).get? cons = some plabels ∧
      node = consumerNode (cons, plabels) := by
  rw [List.mem_append]
  constructor
  · rintro ⟨hnode | hnode, hblock⟩
    · obtain ⟨mux, -, rfl⟩ := List.mem_map.mp hnode
      rw [isConsumerBlock_controllerNode] at hblock
      cases hblock
    · obtain ⟨⟨cons', plabels⟩, hitem, rfl⟩ := List.mem_map.mp hnode
      obtain rfl := (isConsumerBlock_consumerNode _).mp hblock
      exact ⟨plabels, (Dict.mem_sortedItems _).mp hitem, rfl⟩
  · rintro ⟨plabels, hget, rfl⟩
    exact ⟨.inr (List.mem_map_of_mem ((Dict.mem_sortedItems _).mpr hget)),
      (isConsumerBlock_consumerNode _).mpr rfl⟩

/-- The consumer blocks of the emitted file are sound and complete. -/
theorem consumers_wired (re : Regex) (naming : Naming) (muxes : List Mux) :
    ∃ nodes, readFile (emitPinctrl2 re naming muxes) = some nodes ∧
      ∀ cons, ConsumerWired re naming muxes nodes cons := by
  refine ⟨_, readFile_emitPinctrl2 re naming muxes, fun cons => ?_⟩
  constructor
  · simp only [exists_consumerBlock, ← mem_byConsumer_keys, Dict.mem_keys]
    exact ⟨fun ⟨_, plabels, hget, _⟩ => ⟨plabels, hget⟩, fun ⟨plabels, hget⟩ =>
      ⟨_, plabels, hget, rfl⟩⟩
  · have hzero : (muxes.map (controllerNode re naming)).countP (isConsumerBlock cons) = 0 := by
      rw [List.countP_eq_zero]
      intro node hnode
      obtain ⟨mux, -, rfl⟩ := List.mem_map.mp hnode
      rw [isConsumerBlock_controllerNode]
      exact Bool.false_ne_true
    have hcount : ((byConsumer re naming muxes).sortedItems.map consumerNode).countP
        (isConsumerBlock cons) =
          ((byConsumer re naming muxes).sortedItems.map Prod.fst).count cons := by
      rw [List.countP_map, List.count, List.countP_map]
      refine List.countP_congr fun item _ => ?_
      rw [Function.comp, isConsumerBlock_consumerNode, Function.comp, beq_iff_eq]
    rw [List.countP_append, hzero, Nat.zero_add, hcount]
    exact List.nodup_iff_count_le_one.mp (Dict.nodup_sortedItems _) cons
  · intro node hnode hblock
    obtain ⟨plabels, hget, rfl⟩ := exists_consumerBlock.mp ⟨hnode, hblock⟩
    obtain ⟨g, hhead, hserves, hleast⟩ := first_group hget
    refine ⟨_, g, rfl, ?_, hserves, hleast⟩
    rw [readReference_label]
    exact congrArg some hhead

end AximuxSystem.Tool
