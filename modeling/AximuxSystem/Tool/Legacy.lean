import AximuxSystem.Tool.Emit

/-!
# Legacy output

`emit_legacy` writes the names of a mux as two lists without indices. The
position in a list is the number of a signal exactly if the connected signals
of the mux are numbered without a gap.
-/

namespace AximuxSystem.Tool

open Collections Text Dts

/-! ### The two lists of a mux -/

section Names

variable (re : Regex) (naming : Naming) (mux : Mux)

/-- `sigs` -/
def signalNames : List String := mux.pins.map fun p => fnFor re mux p.index 0 naming

/-- The entry of a pin in `alts`. -/
def alternateName (p : Pin) : String :=
  if p.alts.any (·.alt == 1) then fnFor re mux p.index 1 naming
  else "unused" ++ toString p.index ++ ".1"

/-- `alts` -/
def alternateNames : List String := mux.pins.map (alternateName re naming mux)

def legacyProps : List (String × String) :=
  [("signal-names", csvStrings (signalNames re naming mux) 17),
    ("alternate-names", csvStrings (alternateNames re naming mux) 17)]

def legacyLines : List Line :=
  block 0 none ("&" ++ mux.inst) (Line.props 2 (legacyProps re naming mux)) ++ [.text ""]

def emitLegacy (muxes : List Mux) : List Line :=
  [.text "/* AUTO-GENERATED from system.hwh — do not edit by hand. */", .text ""] ++
  muxes.flatMap (legacyLines re naming)

end Names

variable {re : Regex} {naming : Naming} {mux : Mux}

theorem alternateName_of_slot {pin : Pin} {a : Slot} (h : pin.slot? 1 = some a) :
    alternateName re naming mux pin = fnFor re mux pin.index 1 naming := by
  obtain ⟨ha, halt⟩ := Pin.slot?_eq_some.mp h
  have hany : (pin.alts.any fun x => x.alt == 1) = true :=
    List.any_eq_true.mpr ⟨a, ha, beq_iff_eq.mpr halt⟩
  rw [alternateName, if_pos hany]

/-! ### Positions and signals -/

/-- Distinct numbers are an initial segment if and only if they have no gap. -/
theorem forall_mem_iff_no_gap {xs : List ℕ} (h : xs.Nodup) :
    (∀ k < xs.length, k ∈ xs) ↔ ∀ x ∈ xs, ∀ j < x, j ∈ xs := by
  constructor
  · intro hall x hx j hj
    have hsub : List.range xs.length ⊆ xs := fun k hk => hall k (List.mem_range.mp hk)
    have hperm : (List.range xs.length).Perm xs :=
      (List.nodup_range.subperm hsub).perm_of_length_le (by rw [List.length_range])
    have hlt := List.mem_range.mp (hperm.mem_iff.mpr hx)
    exact hall j (by omega)
  · intro hgap k hk
    by_contra hmem
    have hsub : xs ⊆ List.range k := by
      intro x hx
      rw [List.mem_range]
      by_contra hle
      rcases lt_or_eq_of_le (not_lt.mp hle) with hlt | rfl
      · exact hmem (hgap x hx k hlt)
      · exact hmem hx
    have hlen := (h.subperm hsub).length_le
    rw [List.length_range] at hlen
    omega

/-- Increasing numbers without a gap are their own positions. -/
theorem eq_range_of_forall_mem {xs : List ℕ} (h : xs.Pairwise (· < ·))
    (hall : ∀ k < xs.length, k ∈ xs) : xs = List.range xs.length := by
  have hsub : List.range xs.length ⊆ xs := fun k hk => hall k (List.mem_range.mp hk)
  have hperm : (List.range xs.length).Perm xs :=
    (List.nodup_range.subperm hsub).perm_of_length_le (by rw [List.length_range])
  exact hperm.symm.eq_of_pairwise (fun a b _ _ hab hba => absurd hab hba.asymm) h
    List.pairwise_lt_range

/-- Position `k` of either list holds the name of signal `k`. -/
structure Aligned (re : Regex) (naming : Naming) (mux : Mux) : Prop where
  signals : ∀ k name, (signalNames re naming mux)[k]? = some name →
    ∃ pin ∈ mux.pins, pin.index = k ∧ name = fnFor re mux k 0 naming
  alternates : ∀ k name, (alternateNames re naming mux)[k]? = some name →
    ∃ pin ∈ mux.pins, pin.index = k ∧ name = alternateName re naming mux pin

/-- Every signal below a connected one is connected. -/
def NoGap (mux : Mux) : Prop :=
  ∀ pin ∈ mux.pins, ∀ j < pin.index, ∃ pin' ∈ mux.pins, pin'.index = j

theorem noGap_iff : NoGap mux ↔ ∀ k < mux.pins.length, k ∈ mux.pins.map Pin.index := by
  have hgap := forall_mem_iff_no_gap mux.indices_nodup
  rw [List.length_map] at hgap
  rw [hgap, NoGap, List.forall_mem_map]
  simp only [List.mem_map]

/-- Without a gap the pin at position `k` is signal `k`. -/
theorem NoGap.index_eq (h : NoGap mux) {k : ℕ} {pin : Pin} (hk : mux.pins[k]? = some pin) :
    pin.index = k := by
  have hall := noGap_iff.mp h
  have hrange := eq_range_of_forall_mem mux.increasing (by simpa using hall)
  have hindex : (mux.pins.map Pin.index)[k]? = some pin.index := by
    rw [List.getElem?_map, hk, Option.map_some]
  rw [hrange, List.getElem?_eq_some_iff] at hindex
  obtain ⟨hlt, heq⟩ := hindex
  rw [List.getElem_range] at heq
  exact heq.symm

/-- The lists are aligned with the signals exactly if the connected signals have no gap. -/
theorem aligned_iff : Aligned re naming mux ↔ NoGap mux := by
  constructor
  · intro h
    refine noGap_iff.mpr fun k hk => ?_
    have hname : (signalNames re naming mux)[k]? =
        some (fnFor re mux mux.pins[k].index 0 naming) := by
      rw [signalNames, List.getElem?_map, List.getElem?_eq_getElem hk, Option.map_some]
    obtain ⟨pin, hpin, rfl, -⟩ := h.signals k _ hname
    exact List.mem_map_of_mem hpin
  · intro h
    constructor
    · intro k name hname
      rw [signalNames, List.getElem?_map, Option.map_eq_some_iff] at hname
      obtain ⟨pin, hk, rfl⟩ := hname
      have hindex := h.index_eq hk
      exact ⟨pin, List.mem_of_getElem? hk, hindex, by rw [hindex]⟩
    · intro k name hname
      rw [alternateNames, List.getElem?_map, Option.map_eq_some_iff] at hname
      obtain ⟨pin, hk, rfl⟩ := hname
      exact ⟨pin, List.mem_of_getElem? hk, h.index_eq hk, rfl⟩

/-- A mux whose signal 0 is not connected. -/
def gappedDesign : Element :=
  .mk "EDKSYSTEM" [] [.mk "MODULES" []
    [sampleModule "axi_iic_0" "axi_iic" [("scl_o", "iic_scl")],
     sampleModule "axi_mux_0" "aximux" [("sig1incoming1", "iic_scl")]]]

/-- The first entry of the lists is the name of signal 1. -/
theorem not_aligned : ¬ ∀ (re : Regex) (naming : Naming) (root : Element),
    ∀ mux ∈ parseMuxes root, Aligned re naming mux := by
  intro h
  have hpins : ∃ mux ∈ parseMuxes gappedDesign, mux.pins.map Pin.index = [1] := by decide +kernel
  obtain ⟨mux, hmux, hindex⟩ := hpins
  have hlen : mux.pins.length = 1 := by simpa using congrArg List.length hindex
  obtain ⟨pin, hpin, hzero, -⟩ := (h noRules defaultNaming gappedDesign mux hmux).signals 0 _
    (List.getElem?_eq_getElem (by simp [signalNames, hlen]))
  have hmem : pin.index ∈ mux.pins.map Pin.index := List.mem_map_of_mem hpin
  rw [hindex, hzero] at hmem
  exact absurd hmem (by decide)

end AximuxSystem.Tool
