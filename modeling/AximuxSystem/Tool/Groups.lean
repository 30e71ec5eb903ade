import AximuxSystem.Tool.Naming

/-!
# Pin groups of a mux

`collect_pinctrl2_groups` sorts the connected alternates of a mux into groups
by the part of their names before the last dot. Every slot contributes at most
one entry, to one group.
-/

namespace AximuxSystem.Tool

open Collections Text

/-- A group while it is collected: its (pin, alternate) entries in order, and the set of device
labels it serves. -/
structure PinGroup where
  entries : List (ℕ × ℕ)
  consumers : List String
  deriving DecidableEq, Repr

/-- `set.add` -/
def addToSet (xs : List String) (x : String) : List String := if x ∈ xs then xs else xs ++ [x]

/-- What one slot contributes to the groups. -/
structure Member where
  group : String
  entry : ℕ × ℕ
  consumer : String
  deriving DecidableEq, Repr

def PinGroup.add (grp : PinGroup) (m : Member) : PinGroup where
  entries := grp.entries ++ [m.entry]
  consumers := if m.consumer ≠ "" then addToSet grp.consumers m.consumer else grp.consumers

/-- The group part of a name, as an identifier. -/
def groupName (nice : String) : String := sanitize (cutAtLastDot nice)

variable (re : Regex) (naming : Naming)

/-- The body of the loop over the slots of a pin. -/
def slotMember (muxInst : String) (pin : ℕ) (a : Slot) : Option Member :=
  if a.alt = 0 then none
  else
    match (netLabel a.incoming).or (netLabel a.outgoing) with
    | none => none
    | some raw =>
      let rawInst := labelInst raw
      if isNoise rawInst then none
      else
        let nice := applyNaming re (some raw) pin a.alt naming muxInst
        some ⟨groupName nice, (pin, a.alt), (naming.consumerLabels.get? rawInst).getD rawInst⟩

def Mux.members (mux : Mux) : List Member :=
  mux.pins.flatMap fun pin => pin.alts.filterMap (slotMember re naming mux.inst pin.index)

def collectPinctrl2Groups (mux : Mux) : Dict String PinGroup :=
  (mux.members re naming).foldl (fun groups m => groups.modify m.group ⟨[], []⟩ (·.add m))
    Dict.empty

variable {re naming} {mux : Mux}

theorem foldl_add_entries (ms : List Member) (grp : PinGroup) :
    (ms.foldl PinGroup.add grp).entries = grp.entries ++ ms.map Member.entry := by
  induction ms generalizing grp with
  | nil => simp
  | cons m ms ih => rw [List.foldl_cons, ih, PinGroup.add, List.append_assoc, List.map_cons]; rfl

/-- A group exists exactly if some slot contributes to it. -/
theorem groups_get? (g : String) :
    (collectPinctrl2Groups re naming mux).get? g =
      if ∃ m ∈ mux.members re naming, m.group = g then
        some (((mux.members re naming).filter (·.group = g)).foldl PinGroup.add ⟨[], []⟩)
      else none := by
  rw [collectPinctrl2Groups, get?_foldl_modify]
  rfl

theorem mem_groups_keys {g : String} :
    g ∈ (collectPinctrl2Groups re naming mux).keys ↔ ∃ m ∈ mux.members re naming, m.group = g :=
  mem_keys_foldl_modify

/-- The entries of a group are those of the slots that contribute to it, in order. -/
theorem groups_entries {g : String} {grp : PinGroup}
    (h : (collectPinctrl2Groups re naming mux).get? g = some grp) :
    grp.entries = ((mux.members re naming).filter (·.group = g)).map Member.entry := by
  rw [groups_get?] at h
  split_ifs at h
  cases h
  rw [foldl_add_entries, List.nil_append]

/-- A group is never empty. -/
theorem groups_entries_ne {g : String} {grp : PinGroup}
    (h : (collectPinctrl2Groups re naming mux).get? g = some grp) : grp.entries ≠ [] := by
  obtain ⟨m, hm, hg⟩ := mem_groups_keys.mp ((Dict.mem_keys _).mpr ⟨_, h⟩)
  rw [groups_entries h]
  exact List.ne_nil_of_mem (List.mem_map_of_mem (List.mem_filter.mpr ⟨hm, decide_eq_true hg⟩))

/-- What one slot contributes: its pin and number, to a group named by an identifier. -/
theorem slotMember_eq_some {inst : String} {pin : ℕ} {a : Slot} {m : Member}
    (h : slotMember re naming inst pin a = some m) :
    m.entry = (pin, a.alt) ∧ ∃ nice, m.group = groupName nice := by
  unfold slotMember at h
  split_ifs at h
  cases hraw : (netLabel a.incoming).or (netLabel a.outgoing) with
  | none =>
    rw [hraw] at h
    cases h
  | some raw =>
    simp only [hraw] at h
    split_ifs at h
    rw [← Option.some.inj h]
    exact ⟨rfl, _, rfl⟩

/-- An entry of a group is a pin of the mux and the number of one of its slots. -/
theorem member_slot {m : Member} (h : m ∈ mux.members re naming) :
    ∃ pin ∈ mux.pins, ∃ a ∈ pin.alts, m.entry = (pin.index, a.alt) := by
  obtain ⟨pin, hpin, hm⟩ := List.mem_flatMap.mp h
  obtain ⟨a, ha, hslot⟩ := List.mem_filterMap.mp hm
  exact ⟨pin, hpin, a, ha, (slotMember_eq_some hslot).1⟩

theorem groups_slot {g : String} {grp : PinGroup}
    (h : (collectPinctrl2Groups re naming mux).get? g = some grp) {e : ℕ × ℕ}
    (he : e ∈ grp.entries) :
    ∃ pin ∈ mux.pins, ∃ a ∈ pin.alts, e = (pin.index, a.alt) := by
  rw [groups_entries h, List.mem_map] at he
  obtain ⟨m, hm, rfl⟩ := he
  exact member_slot (List.mem_filter.mp hm).1

/-! ### Which slots join which group -/

/-- The label under which a slot joins a group. -/
def Slot.groupLabel (a : Slot) : Option String :=
  ((netLabel a.incoming).or (netLabel a.outgoing)).filter isReal

/-- What a slot of a mux contributes under a label. -/
def memberFor (re : Regex) (naming : Naming) (mux : Mux) (pin : Pin) (a : Slot) (raw : String) :
    Member :=
  ⟨groupName (applyNaming re (some raw) pin.index a.alt naming mux.inst), (pin.index, a.alt),
    (naming.consumerLabels.get? (labelInst raw)).getD (labelInst raw)⟩

theorem slotMember_eq (pin : Pin) (a : Slot) : slotMember re naming mux.inst pin.index a =
    if a.alt = 0 then none else a.groupLabel.map (memberFor re naming mux pin a) := by
  unfold slotMember Slot.groupLabel
  by_cases halt : a.alt = 0
  · rw [if_pos halt, if_pos halt]
  rw [if_neg halt, if_neg halt]
  cases (netLabel a.incoming).or (netLabel a.outgoing) with
  | none => rfl
  | some raw =>
    cases hnoise : isNoise (labelInst raw) with
    | true => simp [isReal, hnoise]
    | false => simp [isReal, hnoise, memberFor]

theorem mem_members {m : Member} : m ∈ mux.members re naming ↔
    ∃ pin ∈ mux.pins, ∃ a ∈ pin.alts, a.alt ≠ 0 ∧
      ∃ raw, a.groupLabel = some raw ∧ m = memberFor re naming mux pin a raw := by
  simp only [Mux.members, List.mem_flatMap, List.mem_filterMap, slotMember_eq]
  refine exists_congr fun pin => and_congr_right fun _ => exists_congr fun a =>
    and_congr_right fun _ => ?_
  by_cases halt : a.alt = 0
  · simp [halt]
  · simp [halt, eq_comm]

/-- Every slot contributes at most once, over all groups. -/
theorem members_nodup (mux : Mux) : ((mux.members re naming).map Member.entry).Nodup := by
  have hentries : (mux.members re naming).map Member.entry = mux.pins.flatMap fun pin =>
      ((pin.alts.filter fun a => decide (a.alt ≠ 0) && a.groupLabel.isSome).map Slot.alt).map
        (Prod.mk pin.index) := by
    rw [Mux.members, List.map_flatMap]
    refine List.flatMap_congr fun pin _ => ?_
    induction pin.alts with
    | nil => rfl
    | cons a alts ih =>
      by_cases halt : a.alt = 0
      · simpa [slotMember_eq, halt] using ih
      · cases hlabel : a.groupLabel with
        | none => simpa [slotMember_eq, halt, hlabel] using ih
        | some raw => simpa [slotMember_eq, halt, hlabel, memberFor] using ih
  rw [hentries]
  refine nodup_tagged mux.indices_nodup fun pin _ => ?_
  exact pin.alts_nodup.sublist (List.filter_sublist.map Slot.alt)

/-- An entry of a group is what some slot contributes to it. -/
theorem mem_group_entries {g : String} {e : ℕ × ℕ} :
    (∃ grp, (collectPinctrl2Groups re naming mux).get? g = some grp ∧ e ∈ grp.entries) ↔
      ∃ m ∈ mux.members re naming, m.group = g ∧ m.entry = e := by
  constructor
  · rintro ⟨grp, hgrp, he⟩
    rw [groups_entries hgrp, List.mem_map] at he
    obtain ⟨m, hm, rfl⟩ := he
    obtain ⟨hm, hg⟩ := List.mem_filter.mp hm
    exact ⟨m, hm, of_decide_eq_true hg, rfl⟩
  · rintro ⟨m, hm, rfl, rfl⟩
    obtain ⟨grp, hgrp⟩ := (Dict.mem_keys _).mp (mem_groups_keys.mpr ⟨m, hm, rfl⟩)
    refine ⟨grp, hgrp, ?_⟩
    rw [groups_entries hgrp]
    exact List.mem_map_of_mem (List.mem_filter.mpr ⟨hm, decide_eq_true rfl⟩)

theorem group_entries_nodup {g : String} {grp : PinGroup}
    (h : (collectPinctrl2Groups re naming mux).get? g = some grp) : grp.entries.Nodup := by
  rw [groups_entries h]
  exact (members_nodup mux).sublist (List.filter_sublist.map Member.entry)

/-- Group names are identifiers. -/
theorem groups_chars {g : String} (h : g ∈ (collectPinctrl2Groups re naming mux).keys) :
    ∀ c ∈ g.toList, isWordChar c = true := by
  obtain ⟨m, hm, rfl⟩ := mem_groups_keys.mp h
  obtain ⟨pin, -, hm⟩ := List.mem_flatMap.mp hm
  obtain ⟨a, -, hslot⟩ := List.mem_filterMap.mp hm
  obtain ⟨nice, hnice⟩ := (slotMember_eq_some hslot).2
  rw [hnice]
  exact sanitize_chars _

end AximuxSystem.Tool
