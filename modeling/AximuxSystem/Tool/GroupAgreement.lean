import AximuxSystem.Tool.Legacy
import AximuxSystem.Tool.NameClash

/-!
# Groups and function names

The peripheral behind a slot is chosen three times: for the name of the
alternate, for the pin groups and for the legacy consumer groups. The choices
agree exactly for the slots whose outgoing net does not hide behind noise, or
behind nothing, on the incoming one.
-/

namespace AximuxSystem.Tool

open Collections Text Dts

/-! ### The three choices -/

/-- The label that names the alternate, if it belongs to a module that is no noise. -/
def Slot.realLabel (a : Slot) : Option String := (slotLabel (some a)).filter isReal

/-- The label under which a first alternate joins a legacy group. -/
def Slot.legacyLabel (a : Slot) : Option String := (netLabel a.incoming).filter isReal

/-- Noise on the incoming net, a real peer on the outgoing one. -/
def Slot.HiddenOutput (a : Slot) : Prop :=
  (∃ l, netLabel a.incoming = some l ∧ isReal l = false) ∧
    ∃ l, netLabel a.outgoing = some l ∧ isReal l = true

/-- A real peer on the outgoing net only. -/
def Slot.OutputOnly (a : Slot) : Prop :=
  (∀ l, netLabel a.incoming = some l → isReal l = false) ∧
    ∃ l, netLabel a.outgoing = some l ∧ isReal l = true

theorem realLabel_eq_some {a : Slot} {l : String} :
    a.realLabel = some l ↔ slotLabel (some a) = some l ∧ isNoise (labelInst l) = false := by
  rw [Slot.realLabel, Option.filter_eq_some_iff, isReal, Bool.not_eq_true']

theorem realLabel_eq (a : Slot) : a.realLabel =
    ((netLabel a.incoming).filter isReal).or ((netLabel a.outgoing).filter isReal) := by
  have hreal : (fun lab => !isNoise (labelInst lab)) = isReal := rfl
  rw [Slot.realLabel, slotLabel, hreal]
  cases netLabel a.incoming with
  | none =>
    cases netLabel a.outgoing with
    | none => rfl
    | some out => cases hout : isReal out <;> simp [Option.filter_some, hout]
  | some inc =>
    cases netLabel a.outgoing with
    | none => cases hinc : isReal inc <;> simp [Option.filter_some, hinc]
    | some out =>
      cases hinc : isReal inc <;> cases hout : isReal out <;>
        simp [Option.filter_some, hinc, hout]

/-- The groups see the same peripheral unless it hides behind noise. -/
theorem groupLabel_eq_realLabel {a : Slot} (h : ¬ a.HiddenOutput) : a.groupLabel = a.realLabel := by
  rw [realLabel_eq, Slot.groupLabel]
  cases hin : netLabel a.incoming with
  | none => simp
  | some inc =>
    cases hinc : isReal inc with
    | true => simp [Option.filter_some, hinc]
    | false =>
      cases hout : (netLabel a.outgoing).filter isReal with
      | none => simp [Option.filter_some, hinc]
      | some out =>
        obtain ⟨hout, hreal⟩ := Option.filter_eq_some_iff.mp hout
        exact absurd ⟨⟨inc, hin, hinc⟩, out, hout, hreal⟩ h

theorem groupLabel_of_hidden {a : Slot} (h : a.HiddenOutput) : a.groupLabel = none := by
  obtain ⟨⟨inc, hin, hinc⟩, -⟩ := h
  rw [Slot.groupLabel, hin, Option.some_or, Option.filter_some, if_neg (by simp [hinc])]

theorem legacyLabel_eq_realLabel {a : Slot} (h : ¬ a.OutputOnly) :
    a.legacyLabel = a.realLabel := by
  rw [realLabel_eq, Slot.legacyLabel]
  cases hin : (netLabel a.incoming).filter isReal with
  | some inc => rfl
  | none =>
    cases hout : (netLabel a.outgoing).filter isReal with
    | none => rfl
    | some out =>
      obtain ⟨hout, hreal⟩ := Option.filter_eq_some_iff.mp hout
      rw [Option.filter_eq_none_iff] at hin
      exact absurd ⟨fun l hl => by simpa using hin l hl, out, hout, hreal⟩ h

theorem legacyLabel_of_outputOnly {a : Slot} (h : a.OutputOnly) : a.legacyLabel = none := by
  rw [Slot.legacyLabel, Option.filter_eq_none_iff]
  exact fun l hl => by simpa using h.1 l hl

/-- Behind a hidden or lone output there is a label the alternate is named after. -/
theorem realLabel_of_output {a : Slot} {out : String} (h : netLabel a.outgoing = some out)
    (hreal : isReal out = true) : ∃ l, a.realLabel = some l := by
  rw [realLabel_eq, h, Option.filter_some, if_pos hreal]
  cases (netLabel a.incoming).filter isReal with
  | none => exact ⟨out, rfl⟩
  | some inc => exact ⟨inc, rfl⟩

variable {re : Regex} {naming : Naming} {mux : Mux} {pin : Pin} {a : Slot}

/-- A real label names the alternate. -/
theorem fnFor_realLabel (hpin : pin ∈ mux.pins) (ha : a ∈ pin.alts) (halt : a.alt ≠ 0) {l : String}
    (hl : a.realLabel = some l) :
    fnFor re mux pin.index a.alt naming = labelName re naming l := by
  have hslot := (realLabel_eq_some.mp hl).1
  have hne : l ≠ "" := by
    rintro rfl
    exact slotLabel_ne _ hslot
  rw [fnFor, Mux.pin?_eq_some.mpr ⟨hpin, rfl⟩, Option.bind_some, Pin.slot?_eq_some.mpr ⟨ha, rfl⟩,
    hslot, applyNaming_label hne halt]

/-! ### Pin groups -/

/-- The entry of a slot is in the group of its label and in no other. -/
theorem mem_group_iff (hpin : pin ∈ mux.pins) (ha : a ∈ pin.alts) (halt : a.alt ≠ 0) {g : String} :
    (∃ grp, (collectPinctrl2Groups re naming mux).get? g = some grp ∧
      (pin.index, a.alt) ∈ grp.entries) ↔
    ∃ raw, a.groupLabel = some raw ∧ g = groupName (labelName re naming raw) := by
  rw [mem_group_entries]
  constructor
  · rintro ⟨m, hm, rfl, hentry⟩
    obtain ⟨pin', hpin', a', ha', halt', raw, hraw, rfl⟩ := mem_members.mp hm
    obtain ⟨hindex, hslot⟩ := Prod.mk.inj hentry
    obtain rfl := List.inj_on_of_nodup_map mux.indices_nodup hpin' hpin hindex
    obtain rfl := List.inj_on_of_nodup_map pin'.alts_nodup ha' ha hslot
    exact ⟨raw, hraw, memberFor_group halt hraw⟩
  · rintro ⟨raw, hraw, rfl⟩
    exact ⟨_, mem_members.mpr ⟨pin, hpin, a, ha, halt, raw, hraw, rfl⟩, memberFor_group halt hraw,
      rfl⟩

/-- A slot behind the first alternate is in a group exactly if it is named after a real module,
and then once, in the group of that name only. -/
structure GroupsAgree (re : Regex) (naming : Naming) (mux : Mux) : Prop where
  listed : ∀ pin ∈ mux.pins, ∀ a ∈ pin.alts, a.alt ≠ 0 →
    ((∃ g grp, (collectPinctrl2Groups re naming mux).get? g = some grp ∧
        (pin.index, a.alt) ∈ grp.entries) ↔
      ∃ l, slotLabel (some a) = some l ∧ isNoise (labelInst l) = false)
  named : ∀ pin ∈ mux.pins, ∀ a ∈ pin.alts, a.alt ≠ 0 →
    (∃ l, slotLabel (some a) = some l ∧ isNoise (labelInst l) = false) →
    ∃ grp, (collectPinctrl2Groups re naming mux).get?
        (groupName (fnFor re mux pin.index a.alt naming)) = some grp ∧
      grp.entries.count (pin.index, a.alt) = 1 ∧
      ∀ g grp', (collectPinctrl2Groups re naming mux).get? g = some grp' →
        (pin.index, a.alt) ∈ grp'.entries → g = groupName (fnFor re mux pin.index a.alt naming)

/-- Groups and names agree exactly if no output hides behind noise. -/
theorem groups_agree_iff : GroupsAgree re naming mux ↔
    ∀ pin ∈ mux.pins, ∀ a ∈ pin.alts, a.alt ≠ 0 → ¬ a.HiddenOutput := by
  constructor
  · intro h pin hpin a ha halt hidden
    obtain ⟨out, hout, hreal⟩ := hidden.2
    obtain ⟨l, hl⟩ := realLabel_of_output hout hreal
    obtain ⟨g, hgrp⟩ := (h.listed pin hpin a ha halt).mpr ⟨l, realLabel_eq_some.mp hl⟩
    obtain ⟨raw, hraw, -⟩ := (mem_group_iff hpin ha halt).mp hgrp
    rw [groupLabel_of_hidden hidden] at hraw
    cases hraw
  · intro h
    have hlabel {pin : Pin} (hpin : pin ∈ mux.pins) {a : Slot} (ha : a ∈ pin.alts)
        (halt : a.alt ≠ 0) := groupLabel_eq_realLabel (h pin hpin a ha halt)
    constructor
    · intro pin hpin a ha halt
      simp only [mem_group_iff hpin ha halt, hlabel hpin ha halt, realLabel_eq_some]
      constructor
      · rintro ⟨g, l, hl, -⟩
        exact ⟨l, hl⟩
      · rintro ⟨l, hl⟩
        exact ⟨_, l, hl, rfl⟩
    · rintro pin hpin a ha halt ⟨l, hl⟩
      have hreal := realLabel_eq_some.mpr hl
      rw [fnFor_realLabel hpin ha halt hreal]
      obtain ⟨grp, hgrp, hmem⟩ : ∃ grp, (collectPinctrl2Groups re naming mux).get?
          (groupName (labelName re naming l)) = some grp ∧ (pin.index, a.alt) ∈ grp.entries :=
        (mem_group_iff hpin ha halt).mpr ⟨l, (hlabel hpin ha halt).trans hreal, rfl⟩
      refine ⟨grp, hgrp, List.count_eq_one_of_mem (group_entries_nodup hgrp) hmem, ?_⟩
      intro g grp' hgrp' hmem'
      obtain ⟨raw, hraw, rfl⟩ := (mem_group_iff hpin ha halt).mp ⟨grp', hgrp', hmem'⟩
      rw [hlabel hpin ha halt, hreal] at hraw
      rw [Option.some.inj hraw]

/-- A mux that leads the transmit line of a serial port to a pin, its input tied to a constant. -/
def transmitDesign : Element :=
  .mk "EDKSYSTEM" [] [.mk "MODULES" []
    [sampleModule "axi_uart16550_0" "axi_uart16550" [("sout", "uart_tx")],
     sampleModule "const_0" "xlconstant" [("dout", "tied_low")],
     sampleModule "axi_mux_0" "aximux"
      [("sig0incoming1", "tied_low"), ("sig0outgoing1", "uart_tx")]]]

/-- The pin offers `uart0.txd` and no group takes it. -/
theorem groups_disagree : ¬ ∀ (re : Regex) (naming : Naming) (root : Element),
    ∀ mux ∈ parseMuxes root, GroupsAgree re naming mux := by
  intro h
  have hmux : ∃ mux ∈ parseMuxes transmitDesign,
      (collectPinctrl2Groups noRules defaultNaming mux).items = [] ∧ ∃ pin ∈ mux.pins,
        ∃ a ∈ pin.alts, a.alt ≠ 0 ∧ slotLabel (some a) = some "axi_uart16550_0.sout" := by
    decide +kernel
  obtain ⟨mux, hmux, hitems, pin, hpin, a, ha, halt, hlabel⟩ := hmux
  obtain ⟨g, grp, hgrp, -⟩ := ((h noRules defaultNaming transmitDesign mux hmux).listed pin hpin a
    ha halt).mpr ⟨_, hlabel, by decide +kernel⟩
  rw [← Dict.mem_items, hitems] at hgrp
  cases hgrp

end AximuxSystem.Tool
