import AximuxSystem.Driver.NamedCalls
import AximuxSystem.Hardware.AnyRun
import AximuxSystem.Tool.Agreement
import AximuxSystem.Tool.CorePorts

/-!
# From a design to its nets

A design with a generated core is described, the tool emits a controller node
for it, and the driver makes its tables from that node. Whatever selections the
emitted source offers are then made by name, they end at the nets of the design
whose labels named them.
-/

namespace AximuxSystem.Tool

open Collections Text Element Dts Registers Driver Hardware

/-! ### Selections by name -/

/-- What the emitted node of a mux offers: every alternate of a pin, every group and alias. -/
inductive Offered (re : Regex) (naming : Naming) (mux : Mux) : Selection → Prop
  | pin {pin : Pin} (hpin : pin ∈ mux.pins) {a : ℕ} (ha : a ≤ pin.maxAlt) :
    Offered re naming mux ⟨fnFor re mux pin.index a naming, pinName pin.index, [(pin.index, a)]⟩
  | group {name : String} {entries : List (ℕ × ℕ)}
    (h : (name, entries) ∈ mux.emittedGroups re naming) :
    Offered re naming mux ⟨name, groupNodeName name, entries⟩

/-- The wire of the core behind a port. -/
def Kind.signal (sig alt : ℕ) : Kind → Signal
  | incoming => .incoming sig alt
  | outgoing => .outgoing sig alt
  | ctl => .ctl sig alt

section Design

variable {re : Regex} {naming : Naming} {core : Core} {mux : Mux} {sel : Selection}

theorem routes_of_selects {amx : Aximux} {function group : String} {targets : List (ℕ × ℕ)}
    (h : Selects amx function group targets) : Routes amx function group targets := by
  obtain ⟨f, g, hf, hg, hrun⟩ := h
  refine ⟨f, g, hf, hg, fun rf => ?_⟩
  obtain ⟨rf', hok, hsrc, hbits, hregs⟩ := hrun rf
  exact ⟨rf', hok, fun p s hlast => hsrc (p, s) (Grouping.mem_of_lastOf hlast), hbits, hregs⟩

/-- The tables of an emitted node serve what the node offers. -/
theorem Offered.served (h : Emittable re naming core mux)
    (hinv : TableInvariant (infoPins core.info) (Emittable.tables re naming core mux))
    (hsel : Offered re naming mux sel) : sel.Served (Emittable.tables re naming core mux) := by
  have hle := core.muxSignals_le
  have hsmall : ∀ pin ∈ mux.pins, pin.index < 2 ^ 30 := by
    intro pin hpin
    have hlt := h.index_lt pin hpin
    omega
  cases hsel with
  | pin hpin ha =>
    refine ⟨routes_of_selects (h.pin_selects hinv hpin ha), ?_⟩
    exact List.forall_mem_singleton.mpr (hsmall _ hpin)
  | group hgrp =>
    refine ⟨routes_of_selects (h.group_selects hinv hgrp), fun e he => ?_⟩
    obtain ⟨pin, hpin, a, -, rfl⟩ := emittedGroups_slot hgrp he
    exact hsmall pin hpin

end Design

end AximuxSystem.Tool
