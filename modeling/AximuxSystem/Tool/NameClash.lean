import AximuxSystem.Tool.Emit

/-!
# One source for every name of a pin

A name in the list of a pin, or a group the pin is in, should stand for one
alternate of the pin. Names come from three places: the naming of a label, the
name of the GPIO line, and the placeholder of an unconnected alternate. The
names of a pin are distinct exactly if no two of them meet, and the groups list
a pin once exactly if no two of its alternates join one group.
-/

namespace AximuxSystem.Tool

open Collections Text

/-! ### Where names come from -/

/-- The name a table gives a label, by an override or by the first rule that applies. -/
def listedName (re : Regex) (naming : Naming) (label : String) : Option String :=
  (naming.overrides.get? label).or (applyRules re naming.rules label)

/-- The name of a label, whatever pin it is connected to. -/
def labelName (re : Regex) (naming : Naming) (label : String) : String :=
  (listedName re naming label).getD (builtinRules label)

/-- The placeholder for an alternate that is not connected. -/
def unusedName (pin alt : ℕ) : String := "unused" ++ toString pin ++ "." ++ toString alt

theorem unusedName_inj {pin a b : ℕ} (h : unusedName pin a = unusedName pin b) : a = b :=
  toString_injective ((String.append_right_inj _).mp h)

/-- Where the name of an alternate comes from. -/
inductive NameSource where
  | gpio
  | unused (alt : ℕ)
  | label (text : String)
  deriving DecidableEq, Repr

def NameSource.name (re : Regex) (naming : Naming) (inst : String) (pin : ℕ) : NameSource → String
  | gpio => gpioName inst pin naming
  | unused alt => unusedName pin alt
  | label text => labelName re naming text

/-- The first alternate is the GPIO line if nothing is connected to it but noise no table names. -/
def nameSource (re : Regex) (naming : Naming) (label : Option String) (alt : ℕ) : NameSource :=
  match label with
  | none => if alt = 0 then .gpio else .unused alt
  | some text =>
    if alt = 0 ∧ isReal text = false ∧ listedName re naming text = none then .gpio else .label text

/-- Where the name of an alternate of a pin comes from. -/
def Pin.nameSource (re : Regex) (naming : Naming) (pin : Pin) (alt : ℕ) : NameSource :=
  Tool.nameSource re naming (slotLabel (pin.slot? alt)) alt

section Sources

variable {re : Regex} {naming : Naming} {mux : Mux} {pin : Pin}

theorem applyNaming_eq {label : Option String} (hne : label ≠ some "") (i alt : ℕ) (inst : String) :
    applyNaming re label i alt naming inst =
      (nameSource re naming label alt).name re naming inst i := by
  cases label with
  | none =>
    change (if alt = 0 then gpioName inst i naming else _) = _
    rw [nameSource]
    split_ifs <;> rfl
  | some text =>
    have htext : text ≠ "" := fun h => hne (congrArg some h)
    simp only [applyNaming, Option.filter_some, htext, ne_eq, not_false_eq_true, decide_true,
      if_true, nameSource, isReal, Bool.not_eq_false', listedName]
    cases hover : naming.overrides.get? text with
    | some name => simp [NameSource.name, labelName, listedName, hover]
    | none =>
      cases hrule : applyRules re naming.rules text with
      | some name => simp [NameSource.name, labelName, listedName, hover, hrule]
      | none =>
        simp only [Option.or_none, and_true]
        split_ifs with hgpio
        · rfl
        · simp [NameSource.name, labelName, listedName, hover, hrule]

/-- Behind the first alternate a label has its own name. -/
theorem applyNaming_label {label : String} (hne : label ≠ "") {alt : ℕ} (halt : alt ≠ 0) (i : ℕ)
    (inst : String) :
    applyNaming re (some label) i alt naming inst = labelName re naming label := by
  rw [applyNaming_eq (by simpa using hne), nameSource, if_neg fun h => halt h.1]
  rfl

theorem slotLabel_ne (slot : Option Slot) : slotLabel slot ≠ some "" := by
  cases slot with
  | none => nofun
  | some slot =>
    intro h
    have hmem : "" ∈ [netLabel slot.incoming, netLabel slot.outgoing].filterMap id := by
      rcases Option.or_eq_some_iff.mp h with hfind | ⟨-, hhead⟩
      · exact List.mem_of_find?_eq_some hfind
      · exact List.mem_of_head? hhead
    obtain ⟨label, hlabel, hid⟩ := List.mem_filterMap.mp hmem
    have hnet : ∃ net, netLabel net = some "" := by
      rcases List.mem_cons.mp hlabel with rfl | hlabel
      · exact ⟨_, hid⟩
      · rw [List.mem_singleton.mp hlabel] at hid
        exact ⟨_, hid⟩
    obtain ⟨net, hnet⟩ := hnet
    exact netLabel_ne hnet rfl

theorem fnFor_eq (hpin : pin ∈ mux.pins) (alt : ℕ) : fnFor re mux pin.index alt naming =
    (pin.nameSource re naming alt).name re naming mux.inst pin.index := by
  rw [fnFor, Mux.pin?_eq_some.mpr ⟨hpin, rfl⟩, Option.bind_some, applyNaming_eq (slotLabel_ne _)]
  rfl

theorem nameSource_gpio {alt : ℕ} (h : pin.nameSource re naming alt = .gpio) : alt = 0 := by
  unfold Pin.nameSource nameSource at h
  split at h <;> split_ifs at h with halt
  · exact halt
  · exact halt.1

theorem nameSource_unused {alt alt' : ℕ} (h : pin.nameSource re naming alt = .unused alt') :
    alt' = alt := by
  unfold Pin.nameSource nameSource at h
  split at h <;> split_ifs at h
  exact (NameSource.unused.inj h).symm

end Sources

/-! ### When every name and every group fixes one source -/

/-- No pin lists a name twice, and no group lists a pin twice. -/
structure OneSource (re : Regex) (naming : Naming) (mux : Mux) : Prop where
  functions : ∀ pin ∈ mux.pins, (functionNames re naming mux pin).Nodup
  groups : ∀ g grp, (collectPinctrl2Groups re naming mux).get? g = some grp →
    (grp.entries.map Prod.fst).Nodup

/-- No two alternates of a pin meet: neither two connected ones, nor a connected one and a
placeholder, nor the GPIO line and either of them; and no two are put into one group. -/
structure NoNameClash (re : Regex) (naming : Naming) (mux : Mux) : Prop where
  label_label : ∀ pin ∈ mux.pins, ∀ a b l l', a < b → b ≤ pin.maxAlt →
    pin.nameSource re naming a = .label l → pin.nameSource re naming b = .label l' →
      labelName re naming l ≠ labelName re naming l'
  label_unused : ∀ pin ∈ mux.pins, ∀ a b l, a ≤ pin.maxAlt → b ≤ pin.maxAlt →
    pin.nameSource re naming a = .label l → pin.nameSource re naming b = .unused b →
      labelName re naming l ≠ unusedName pin.index b
  gpio_label : ∀ pin ∈ mux.pins, ∀ b l, b ≤ pin.maxAlt → pin.nameSource re naming 0 = .gpio →
    pin.nameSource re naming b = .label l →
      gpioName mux.inst pin.index naming ≠ labelName re naming l
  gpio_unused : ∀ pin ∈ mux.pins, ∀ b ≤ pin.maxAlt, pin.nameSource re naming 0 = .gpio →
    pin.nameSource re naming b = .unused b →
      gpioName mux.inst pin.index naming ≠ unusedName pin.index b
  group_group : ∀ pin ∈ mux.pins, ∀ a ∈ pin.alts, ∀ b ∈ pin.alts, a.alt ≠ 0 → b.alt ≠ 0 →
    a.alt ≠ b.alt → ∀ l l', a.groupLabel = some l → b.groupLabel = some l' →
      groupName (labelName re naming l) ≠ groupName (labelName re naming l')

variable {re : Regex} {naming : Naming} {mux : Mux} {pin : Pin}

theorem functionNames_nodup_iff (hpin : pin ∈ mux.pins) :
    (functionNames re naming mux pin).Nodup ↔ ∀ a b, a ≤ pin.maxAlt → b ≤ pin.maxAlt →
      (pin.nameSource re naming a).name re naming mux.inst pin.index =
        (pin.nameSource re naming b).name re naming mux.inst pin.index → a = b := by
  rw [functionNames, List.nodup_map_iff_inj_on List.nodup_range]
  simp only [List.mem_range, Nat.lt_succ_iff, fnFor_eq hpin]
  constructor
  · exact fun h a b ha hb heq => h a ha b hb heq
  · exact fun h a ha b hb heq => h a b ha hb heq

/-- Two alternates of one name are one alternate, wherever their names come from. -/
theorem NoNameClash.eq_of_name (h : NoNameClash re naming mux) (hpin : pin ∈ mux.pins) {a b : ℕ}
    (hle : a ≤ b) (hb : b ≤ pin.maxAlt)
    (heq : (pin.nameSource re naming a).name re naming mux.inst pin.index =
      (pin.nameSource re naming b).name re naming mux.inst pin.index) : a = b := by
  cases hsa : pin.nameSource re naming a with
  | gpio =>
    have ha := nameSource_gpio hsa
    subst a
    cases hsb : pin.nameSource re naming b with
    | gpio => exact (nameSource_gpio hsb).symm
    | unused b' =>
      have hb' := nameSource_unused hsb
      subst b'
      rw [hsa, hsb] at heq
      exact absurd heq (h.gpio_unused pin hpin b hb hsa hsb)
    | label l =>
      rw [hsa, hsb] at heq
      exact absurd heq (h.gpio_label pin hpin b l hb hsa hsb)
  | unused a' =>
    have ha' := nameSource_unused hsa
    subst a'
    cases hsb : pin.nameSource re naming b with
    | gpio =>
      have hb' := nameSource_gpio hsb
      omega
    | unused b' =>
      rw [hsa, hsb, nameSource_unused hsb] at heq
      exact unusedName_inj heq
    | label l =>
      rw [hsa, hsb] at heq
      exact absurd heq.symm (h.label_unused pin hpin b a l hb (by omega) hsb hsa)
  | label l =>
    cases hsb : pin.nameSource re naming b with
    | gpio =>
      have hb' := nameSource_gpio hsb
      omega
    | unused b' =>
      have hb' := nameSource_unused hsb
      subst b'
      rw [hsa, hsb] at heq
      exact absurd heq (h.label_unused pin hpin a b l (by omega) hb hsa hsb)
    | label l' =>
      rw [hsa, hsb] at heq
      by_contra hne
      exact h.label_label pin hpin a b l l' (by omega) hb hsa hsb heq

theorem NoNameClash.functions (h : NoNameClash re naming mux) (hpin : pin ∈ mux.pins) :
    (functionNames re naming mux pin).Nodup := by
  rw [functionNames_nodup_iff hpin]
  intro a b ha hb heq
  rcases le_total a b with hle | hle
  · exact h.eq_of_name hpin hle hb heq
  · exact (h.eq_of_name hpin hle ha heq.symm).symm

/-- A group lists no pin twice exactly if no two slots of a pin join it. -/
theorem groups_pins_nodup_iff :
    (∀ g grp, (collectPinctrl2Groups re naming mux).get? g = some grp →
      (grp.entries.map Prod.fst).Nodup) ↔
    ∀ m ∈ mux.members re naming, ∀ m' ∈ mux.members re naming, m.group = m'.group →
      m.entry.1 = m'.entry.1 → m.entry = m'.entry := by
  constructor
  · intro h m hm m' hm' hgroup hpin
    obtain ⟨grp, hgrp, he⟩ := mem_group_entries.mpr ⟨m, hm, rfl, rfl⟩
    have he' : m'.entry ∈ grp.entries := by
      obtain ⟨grp', hgrp', he'⟩ := mem_group_entries.mpr ⟨m', hm', rfl, rfl⟩
      rw [← hgroup, hgrp] at hgrp'
      exact Option.some.inj hgrp' ▸ he'
    exact List.inj_on_of_nodup_map (h _ grp hgrp) he he' hpin
  · intro h g grp hgrp
    rw [List.nodup_map_iff_inj_on (group_entries_nodup hgrp)]
    intro e he e' he' hpin
    obtain ⟨m, hm, rfl, rfl⟩ := mem_group_entries.mp ⟨grp, hgrp, he⟩
    obtain ⟨m', hm', hgroup, rfl⟩ := mem_group_entries.mp ⟨grp, hgrp, he'⟩
    exact h m hm m' hm' hgroup.symm hpin

theorem groupLabel_ne {a : Slot} {raw : String} (h : a.groupLabel = some raw) : raw ≠ "" := by
  rcases Option.or_eq_some_iff.mp (Option.filter_eq_some_iff.mp h).1 with hin | ⟨-, hout⟩
  · exact netLabel_ne hin
  · exact netLabel_ne hout

/-- The group of a slot is the group of its label. -/
theorem memberFor_group {a : Slot} {raw : String} (halt : a.alt ≠ 0) (h : a.groupLabel = some raw) :
    (memberFor re naming mux pin a raw).group = groupName (labelName re naming raw) := by
  rw [memberFor, applyNaming_label (groupLabel_ne h) halt]

/-- The generator fixes one source everywhere exactly if no two names clash. -/
theorem one_source_iff : OneSource re naming mux ↔ NoNameClash re naming mux := by
  constructor
  · intro h
    have hinj {pin : Pin} (hpin : pin ∈ mux.pins) {a b : ℕ} (ha : a ≤ pin.maxAlt)
        (hb : b ≤ pin.maxAlt) := (functionNames_nodup_iff hpin).mp (h.functions pin hpin) a b ha hb
    refine ⟨?_, ?_, ?_, ?_, ?_⟩
    · intro pin hpin a b l l' hlt hb hsa hsb heq
      exact hlt.ne (hinj hpin (by omega) hb (by rw [hsa, hsb]; exact heq))
    · intro pin hpin a b l ha hb hsa hsb heq
      have hab := hinj hpin ha hb (by rw [hsa, hsb]; exact heq)
      rw [hab, hsb] at hsa
      cases hsa
    · intro pin hpin b l hb hsg hsb heq
      have hzero := hinj hpin (Nat.zero_le _) hb (by rw [hsg, hsb]; exact heq)
      rw [hzero, hsb] at hsg
      cases hsg
    · intro pin hpin b hb hsg hsb heq
      have hzero := hinj hpin (Nat.zero_le _) hb (by rw [hsg, hsb]; exact heq)
      rw [hzero, hsb] at hsg
      cases hsg
    · intro pin hpin a ha b hb halt halt' hne l l' hl hl' heq
      have hentry := groups_pins_nodup_iff.mp h.groups
        _ (mem_members.mpr ⟨pin, hpin, a, ha, halt, l, hl, rfl⟩)
        _ (mem_members.mpr ⟨pin, hpin, b, hb, halt', l', hl', rfl⟩)
        (by rw [memberFor_group halt hl, memberFor_group halt' hl', heq]) rfl
      exact hne (congrArg Prod.snd hentry)
  · intro h
    refine ⟨fun pin hpin => h.functions hpin, groups_pins_nodup_iff.mpr ?_⟩
    intro m hm m' hm' hgroup hindex
    obtain ⟨pin, hpin, a, ha, halt, l, hl, rfl⟩ := mem_members.mp hm
    obtain ⟨pin', hpin', b, hb, halt', l', hl', rfl⟩ := mem_members.mp hm'
    obtain rfl := List.inj_on_of_nodup_map mux.indices_nodup hpin hpin' hindex
    rw [memberFor_group halt hl, memberFor_group halt' hl'] at hgroup
    by_cases hne : a.alt = b.alt
    · exact congrArg (Prod.mk pin.index) hne
    · exact absurd hgroup (h.group_group pin hpin a ha b hb halt halt' hne l l' hl hl')

/-- A mux that offers both wires of one bus controller on the same pin. -/
def doubledDesign : Element :=
  .mk "EDKSYSTEM" [] [.mk "MODULES" []
    [sampleModule "axi_iic_0" "axi_iic" [("scl_o", "iic_scl"), ("sda_o", "iic_sda")],
     sampleModule "axi_mux_0" "aximux"
      [("sig0incoming1", "iic_scl"), ("sig0incoming2", "iic_sda")]]]

/-- The group of the controller gives pin 0 the sources 1 and 2. -/
theorem one_source_fails : ¬ ∀ (re : Regex) (naming : Naming) (root : Element),
    ∀ mux ∈ parseMuxes root, OneSource re naming mux := by
  intro h
  have hgroup : ∃ mux ∈ parseMuxes doubledDesign,
      (collectPinctrl2Groups noRules defaultNaming mux).get? "i2c0" =
        some ⟨[(0, 1), (0, 2)], ["axi_iic_0"]⟩ := by decide +kernel
  obtain ⟨mux, hmux, hgrp⟩ := hgroup
  exact absurd ((h noRules defaultNaming doubledDesign mux hmux).groups _ _ hgrp) (by decide)

end AximuxSystem.Tool
