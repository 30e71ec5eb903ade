import AximuxSystem.Driver.TableInvariant

/-!
# Trees that follow the binding

`docs/bindings/brunosmmm,aximux.yaml` describes the children of a controller
node and names the members of a group by their child node names, `pin@<unit>`.
The driver registers pins as `pin<reg>` and looks members up under these names,
so no member of a documented group is ever found.
-/

namespace AximuxSystem.Driver

open Fallible

/-- The property is absent, or a list of at least one string. -/
def OptionalNames (child : OfNode) (p : String) : Prop :=
  child.prop p = none ∨ ∃ x xs, child.prop p = some (.strings (x :: xs))

/-- A child that matches the pattern `^pin@[0-9a-f]+$` of the binding; `reg` is its register. -/
structure BindingPin (child : OfNode) (reg : ℕ) : Prop where
  name : ∃ unit : List Char, unit ≠ [] ∧ (∀ c ∈ unit, c.isDigit ∨ c ∈ "abcdef".toList) ∧
    child.nodeName = String.ofList ("pin@".toList ++ unit)
  reg_cells : child.prop "reg" = some (.cells [reg])
  functionNames : OptionalNames child "function-names"
  alternateNames : OptionalNames child "alternate-names"
  noPins : child.prop "brunosmmm,pins" = none

/-- A child that matches the pattern `-grp$` of the binding; `names` are its pins. -/
structure BindingGroup (child : OfNode) (names : List String) : Prop where
  name : ∃ stem, child.nodeName = stem ++ "-grp"
  pins : child.prop "brunosmmm,pins" = some (.strings names)
  pins_ne : names ≠ []
  mux : child.prop "brunosmmm,mux" = none ∨ ∃ xs, child.prop "brunosmmm,mux" = some (.cells xs)
  function : OptionalNames child "brunosmmm,function"
  noReg : child.prop "reg" = none

/-- A controller node of the binding on a core whose MUXINFO reads `info`. -/
structure FollowsBinding (info : BitVec 32) (np : List OfNode) : Prop where
  info_pos : 0 < infoPins info
  info_le : infoPins info ≤ aximuxMaxPins
  child : ∀ child ∈ np, (∃ reg, reg < infoPins info ∧ BindingPin child reg) ∨
    ∃ names, BindingGroup child names
  distinct : np.Pairwise fun child child' =>
    ∀ reg, BindingPin child reg → ¬ BindingPin child' reg
  listed : ∀ child ∈ np, ∀ names, BindingGroup child names → ∀ name ∈ names,
    ∃ pin ∈ np, pin.nodeName = name ∧ ∃ reg, BindingPin pin reg

/-- With no allocation failing the driver builds its tables, and every entry of an available
group resolves to the register of the pin child it names. -/
def AcceptsAsDocumented (info : BitVec 32) (np : List OfNode) : Prop :=
  ∃ k, aximuxProbeTables info np (Kernel.initial fun _ => true) = (.ok (), k) ∧
    ∀ child ∈ np, child.available = true → ∀ names, BindingGroup child names → ∀ name ∈ names,
      ∀ pin ∈ np, pin.nodeName = name → ∀ reg, BindingPin pin reg →
        aximuxFindPinByName k.amx name = .ok reg

/-! ### Pins -/

variable {info : BitVec 32} {np : List OfNode} {child : OfNode}

theorem pinName_ne_nodeName (n : ℕ) (unit : List Char) :
    pinName n ≠ String.ofList ("pin@".toList ++ unit) := by
  intro h
  have hchars : "pin".toList ++ (toString n).toList = "pin".toList ++ '@' :: unit := by
    change _ = "pin@".toList ++ unit
    rw [← String.toList_append, ← String.toList_ofList (l := "pin@".toList ++ unit), ← h]
    rfl
  have htail : (toString n).toList = '@' :: unit := List.append_cancel_left hchars
  have hmem : '@' ∈ Nat.toDigits 10 n := by
    rw [Nat.toString_eq_ofList_toDigits, String.toList_ofList] at htail
    rw [htail]
    exact List.mem_cons_self
  exact absurd (Nat.isDigit_of_mem_toDigits (by decide) (by decide) hmem) (by decide)

theorem nodeNames_of_strings {p x : String} {xs : List String} (hp : namesProp child = some p)
    (hprop : child.prop p = some (.strings (x :: xs))) :
    ∃ names, nodeNames child = .ok names := by
  obtain ⟨v, hv, -⟩ := child.readStringArray_strings p _ _ hprop le_rfl
  refine ⟨v.toList, ?_⟩
  simp only [nodeNames, hp, child.countStrings_strings p x xs hprop, ok_bind, hv]

theorem nodeNames_of_optional (hf : OptionalNames child "function-names")
    (ha : OptionalNames child "alternate-names") : ∃ names, nodeNames child = .ok names := by
  rcases hf with hf | ⟨x, xs, hf⟩
  · rcases ha with ha | ⟨x, xs, ha⟩
    · have hnone : namesProp child = none := by simp [namesProp, OfNode.findProperty, hf, ha]
      exact ⟨[], by simp only [nodeNames, hnone]⟩
    · exact nodeNames_of_strings (by simp [namesProp, OfNode.findProperty, hf, ha]) ha
  · exact nodeNames_of_strings (by simp [namesProp, OfNode.findProperty, hf]) hf

theorem BindingPin.readU32 {reg : ℕ} (h : BindingPin child reg) : child.readU32 "reg" = .ok reg :=
  child.readU32_cells _ _ _ h.reg_cells

theorem BindingPin.not_group {reg : ℕ} (h : BindingPin child reg) : isGroupNode child = false := by
  have hsize : groupSize child = 0 := by
    rw [groupSize, child.countStrings_absent _ h.noPins]
  simp [isGroupNode, hsize]

theorem BindingPin.entry {reg hwPins : ℕ} (h : BindingPin child reg) (hreg : reg < hwPins) :
    ∃ pin, pinEntry hwPins child = .ok pin := by
  obtain ⟨names, hnames⟩ := nodeNames_of_optional h.functionNames h.alternateNames
  exact ⟨_, pinEntry_eq_ok.mpr ⟨reg, names, h.readU32, hreg, hnames, rfl⟩⟩

theorem BindingGroup.not_pin {names : List String} (h : BindingGroup child names) :
    isPinNode child = false := by
  simp [isPinNode, OfNode.findProperty, h.pins]

theorem BindingGroup.size {names : List String} (h : BindingGroup child names) :
    groupSize child = names.length := by
  obtain ⟨x, xs, rfl⟩ := List.exists_cons_of_ne_nil h.pins_ne
  rw [groupSize, child.countStrings_strings _ x xs h.pins]

theorem FollowsBinding.pinNode (h : FollowsBinding info np) (hc : child ∈ pinNodes np) :
    ∃ reg, reg < infoPins info ∧ BindingPin child reg := by
  obtain ⟨hmem, hpin⟩ := List.mem_filter.mp hc
  rcases h.child child hmem with hreg | ⟨names, hgroup⟩
  · exact hreg
  · rw [hgroup.not_pin] at hpin
    cases hpin

/-- The register of a child that has one. -/
def childReg (child : OfNode) : ℕ := (child.readU32 "reg").toOption.getD 0

theorem BindingPin.childReg_eq {reg : ℕ} (h : BindingPin child reg) : childReg child = reg := by
  rw [childReg, h.readU32]
  rfl

/-- The pin children have distinct registers below the pin count, so they fit. -/
theorem FollowsBinding.pinNodes_length (h : FollowsBinding info np) :
    (pinNodes np).length ≤ infoPins info := by
  have hnodup : ((pinNodes np).map childReg).Nodup := by
    rw [List.Nodup, List.pairwise_map]
    refine (h.distinct.sublist List.filter_sublist).imp_of_mem ?_
    intro c c' hc hc' hdis heq
    obtain ⟨reg, -, hpin⟩ := h.pinNode hc
    obtain ⟨reg', -, hpin'⟩ := h.pinNode hc'
    rw [hpin.childReg_eq, hpin'.childReg_eq] at heq
    exact hdis reg hpin (heq ▸ hpin')
  have hsub : (pinNodes np).map childReg ⊆ List.range (infoPins info) := by
    intro r hr
    obtain ⟨c, hc, rfl⟩ := List.mem_map.mp hr
    obtain ⟨reg, hlt, hpin⟩ := h.pinNode hc
    rw [hpin.childReg_eq]
    exact List.mem_range.mpr hlt
  simpa using (hnodup.subperm hsub).length_le

theorem FollowsBinding.pinTable (h : FollowsBinding info np) :
    ∃ pins, pinTable (infoPins info) np = .ok pins := by
  unfold Driver.pinTable
  by_cases hnone : pinNodes np = []
  · rw [if_pos hnone]
    exact ⟨_, rfl⟩
  · rw [if_neg hnone, if_neg (not_lt.mpr h.pinNodes_length)]
    refine mapM_ok_of_forall fun c hc => ?_
    obtain ⟨reg, hlt, hpin⟩ := h.pinNode hc
    exact hpin.entry hlt

/-! ### Groups -/

/-- No member of a documented group is found in the pin table. -/
theorem FollowsBinding.extra_fails (h : FollowsBinding info np) {pins : List AximuxPin}
    (hpins : Driver.pinTable (infoPins info) np = .ok pins) {names : List String}
    (hc : child ∈ np) (havail : child.available = true) (hgroup : BindingGroup child names)
    {extra : List ExtraGroup} : extraTable pins np ≠ .ok extra := by
  intro hextra
  have hnode : child ∈ groupNodes np := by
    refine List.mem_filter.mpr ⟨hc, ?_⟩
    simp [isGroupNode, havail, hgroup.size, hgroup.pins_ne]
  obtain ⟨grp, -, hentry⟩ := exists_of_mem_of_mapM hextra hnode
  obtain ⟨members, hmembers, -⟩ := bind_eq_ok.mp hentry
  obtain ⟨name, rest, rfl⟩ := List.exists_cons_of_ne_nil hgroup.pins_ne
  have hzero : 0 ∈ List.range (groupSize child) := by simp [hgroup.size]
  obtain ⟨p, -, hp⟩ := exists_of_mem_of_mapM hmembers hzero
  rw [child.readStringIndex_strings _ _ 0 name hgroup.pins rfl, ok_bind] at hp
  obtain ⟨pin, hfind, -⟩ := findPin_eq_ok.mp hp
  have hname := List.find?_some hfind
  rw [beq_iff_eq, (pinTable_entry hpins (List.mem_of_find?_eq_some hfind)).2.1] at hname
  obtain ⟨node, -, hnode, reg, hpin⟩ := h.listed child hc _ hgroup name List.mem_cons_self
  obtain ⟨unit, -, -, hunit⟩ := hpin.name
  exact pinName_ne_nodeName _ unit (hname.trans (hnode.symm.trans hunit))

/-- A tree that follows the binding is accepted as documented exactly if no group child is
available. -/
theorem binding_accepted_iff (h : FollowsBinding info np) : AcceptsAsDocumented info np ↔
    ∀ child ∈ np, ∀ names, BindingGroup child names → child.available = false := by
  obtain ⟨pins, hpins⟩ := h.pinTable
  constructor
  · rintro ⟨k, hrun, -⟩ child hc names hgroup
    obtain ⟨-, -, pins', extra, hpins', hextra, -⟩ := tables_eq_ok.mp (tables_of_probe hrun)
    by_contra havail
    exact h.extra_fails hpins' hc (by simpa using havail) hgroup hextra
  · intro hnone
    have hgroups : groupNodes np = [] := by
      rw [groupNodes, List.filter_eq_nil_iff]
      intro c hc hnode
      rcases h.child c hc with ⟨reg, -, hpin⟩ | ⟨names, hgroup⟩
      · rw [hpin.not_group] at hnode
        cases hnode
      · simp [isGroupNode, hnone c hc names hgroup] at hnode
    have hextra : extraTable pins np = .ok [] := by
      rw [extraTable, hgroups]
      rfl
    have htables := tables_eq_ok.mpr ⟨h.info_pos, h.info_le, pins, [], hpins, hextra, rfl⟩
    obtain ⟨k, hrun, -⟩ := probe_of_tables (fun _ => true) (fun _ => rfl) htables
    refine ⟨k, hrun, fun c hc havail names hgroup => ?_⟩
    rw [hnone c hc names hgroup] at havail
    cases havail

/-! ### The example of the binding -/

/-- The children of the example in the binding. -/
def bindingExample : List OfNode :=
  [.ofProps "pin@0" true
    [("reg", .cells [0]), ("function-names", .strings ["gpio", "uart_tx", "spi_mosi"])],
   .ofProps "pin@1" true
    [("reg", .cells [1]), ("function-names", .strings ["gpio", "uart_rx", "spi_miso"])],
   .ofProps "uart0-grp" true
    [("brunosmmm,pins", .strings ["pin@0", "pin@1"]), ("brunosmmm,function", .strings ["uart0"]),
     ("brunosmmm,mux", .cells [1, 1])]]

theorem bindingExample_pins : BindingPin bindingExample[0] 0 ∧ BindingPin bindingExample[1] 1 :=
  ⟨⟨⟨['0'], by decide, List.forall_mem_singleton.mpr (.inl rfl), rfl⟩, rfl, .inr ⟨_, _, rfl⟩,
      .inl rfl, rfl⟩,
    ⟨⟨['1'], by decide, List.forall_mem_singleton.mpr (.inl rfl), rfl⟩, rfl, .inr ⟨_, _, rfl⟩,
      .inl rfl, rfl⟩⟩

theorem bindingExample_group : BindingGroup bindingExample[2] ["pin@0", "pin@1"] :=
  ⟨⟨"uart0", by decide⟩, rfl, by decide, .inr ⟨_, rfl⟩, .inr ⟨_, _, rfl⟩, rfl⟩

theorem bindingExample_follows : FollowsBinding 0x408 bindingExample := by
  obtain ⟨hpin0, hpin1⟩ := bindingExample_pins
  refine ⟨by decide, by decide, ?_, ?_, ?_⟩
  · change ∀ child ∈ [bindingExample[0], bindingExample[1], bindingExample[2]], _
    rw [List.forall_mem_cons, List.forall_mem_cons, List.forall_mem_singleton]
    exact ⟨.inl ⟨0, by decide, hpin0⟩, .inl ⟨1, by decide, hpin1⟩, .inr ⟨_, bindingExample_group⟩⟩
  · change List.Pairwise _ [bindingExample[0], bindingExample[1], bindingExample[2]]
    have hreg : ∀ reg, ¬ BindingPin bindingExample[2] reg := fun reg h => by
      cases (show none = some (PropValue.cells [reg]) from h.reg_cells)
    rw [List.pairwise_cons, List.pairwise_pair, List.forall_mem_cons, List.forall_mem_singleton]
    refine ⟨⟨?_, fun reg _ => hreg reg⟩, fun reg _ => hreg reg⟩
    intro reg h h'
    cases (show some (PropValue.cells [0]) = some (PropValue.cells [reg]) from h.reg_cells)
    cases (show some (PropValue.cells [1]) = some (PropValue.cells [0]) from h'.reg_cells)
  · change ∀ child ∈ [bindingExample[0], bindingExample[1], bindingExample[2]], _
    rw [List.forall_mem_cons, List.forall_mem_cons, List.forall_mem_singleton]
    refine ⟨fun names h => ?_, fun names h => ?_, fun names h => ?_⟩
    · cases (show none = some (PropValue.strings names) from h.pins)
    · cases (show none = some (PropValue.strings names) from h.pins)
    · cases (show some (PropValue.strings ["pin@0", "pin@1"]) = some (PropValue.strings names)
        from h.pins)
      rw [List.forall_mem_cons, List.forall_mem_singleton]
      exact ⟨⟨_, List.mem_cons_self, rfl, 0, hpin0⟩,
        ⟨_, List.mem_cons_of_mem _ List.mem_cons_self, rfl, 1, hpin1⟩⟩

/-- The driver rejects the example of the binding. -/
theorem binding_not_accepted :
    ¬ ∀ info np, FollowsBinding info np → AcceptsAsDocumented info np := by
  intro h
  obtain ⟨k, hrun, -⟩ := h _ _ bindingExample_follows
  have htables := tables_of_probe hrun
  have herror : tables 0x408 bindingExample = .error .EINVAL := by decide +kernel
  rw [herror] at htables
  cases htables

theorem binding_accepted_iff_example : ¬ AcceptsAsDocumented 0x408 bindingExample := by
  rw [binding_accepted_iff bindingExample_follows]
  intro h
  have havail := h bindingExample[2] (List.getElem_mem _) _ bindingExample_group
  exact absurd havail (by decide)

end AximuxSystem.Driver
