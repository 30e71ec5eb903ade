import AximuxSystem.Driver.Effects
import AximuxSystem.Hardware.Datapath
import AximuxSystem.Hardware.Programming

/-!
# The datapath after any run

Calls that fail midway and arguments beyond 16 bits are part of what a driver
meets. After any run from reset, completed calls or not, the wires of a signal
are fixed by the sources and arguments the calls got to apply to its pin, and a
signal no call is about behaves as after reset.
-/

namespace AximuxSystem.Hardware

open Registers Driver

variable {core : Core} {np : List OfNode} {amx : Aximux} {calls : List Call} {p : ℕ}

/-- The flag the calls leave for a parameter of a pin, from reset. -/
def effectiveFlag (amx : Aximux) (calls : List Call) (p : ℕ) (q : ConfigParam) : Bool :=
  lastEffect (calls.flatMap (Call.applies amx)) p q false

/-- Each configuration bit holds what the last applied argument made of it. -/
theorem coreRun_effect (h : Accepts core.info np amx) (hcalls : ∀ c ∈ calls, c.Valid amx)
    (hp : p < core.muxSignals) (q : ConfigParam) :
    ((coreRun core amx calls).2 (4 * p)).getLsbD q.bit = effectiveFlag amx calls p q := by
  have hle := core.muxSignals_le
  rw [coreRun_word h hcalls hp, run_effect_bit (accepted_invariant h) hcalls core.reset (by omega),
    reset_reg hp, BitVec.ofNat_eq_ofNat, BitVec.getLsbD_zero, effectiveFlag]

/-- The outputs of a signal for a source and three flags. -/
def DrivenBy {core : Core} (v : Valuation core) (p src : ℕ) (flag : ConfigParam → Bool) : Prop :=
  v.bit (.sigOut p) = v.bit (.outgoing p src) ∧
  (∀ k ≤ core.altSignals, v.bit (.incoming p k) =
    ((decide (k = src) || flag .short) && v.bit (.sigIn p))) ∧
  v.bit (.sigDir p) = if flag .dirSw then flag .dirOut else v.bit (.ctl p src)

theorem drivenBy_coreRun (h : Accepts core.info np amx) (hcalls : ∀ c ∈ calls, c.Valid amx)
    {v : Valuation core} (hv : Settled core (coreRun core amx calls).2 v)
    (hp : p < core.muxSignals) :
    DrivenBy v p (lastSource amx calls p) (effectiveFlag amx calls p) := by
  have hflag := coreRun_effect h hcalls hp
  have hwires := hv.outputs hp (coreRun_src h hcalls hp) (lastSource_le h calls p)
  rw [DrivenBy, ← hflag .short, ← hflag .dirSw, ← hflag .dirOut]
  exact hwires

/-- Calls about other pins leave a pin with source 0 and no flag. -/
theorem untouched_pin (h : ∀ c ∈ calls, p ∉ (Request.call c).pins amx) :
    lastSource amx calls p = 0 ∧ ∀ q, effectiveFlag amx calls p q = false := by
  have hsources : Grouping.lastOf p (calls.flatMap (Call.sources amx)) = none := by
    rw [Grouping.lastOf_eq_none]
    rintro e he rfl
    obtain ⟨c, hc, he⟩ := List.mem_flatMap.mp he
    cases c with
    | setMux f g => exact h _ hc (sources_members he)
    | pinconfSet pin configs => cases he
    | pinconfGroupSet g configs => cases he
  have happlies : ∀ q : ConfigParam,
      Grouping.lastOf (p, q.code) (calls.flatMap (Call.applies amx)) = none := by
    intro q
    rw [Grouping.lastOf_eq_none]
    intro x hx heq
    obtain ⟨c, hc, hx⟩ := List.mem_flatMap.mp hx
    obtain ⟨pin, hpin, config, -, -, rfl⟩ := mem_applies hx
    have hpp : pin = p := congrArg Prod.fst heq
    subst pin
    cases c with
    | setMux f g => cases hpin
    | pinconfSet pin configs => exact h _ hc hpin
    | pinconfGroupSet g configs => exact h _ hc hpin
  refine ⟨by rw [lastSource, hsources, Option.getD_none], fun q => ?_⟩
  rw [effectiveFlag, lastEffect, happlies, Option.map_none, Option.getD_none]

/-- After any run of calls from reset, failing ones included, whatever the inputs are: the outputs
of a signal are driven by the source and the flags that calls applied to its pin last, and a signal
no call was about is routed as after reset. -/
theorem any_run_drives_datapath (core : Core) {np : List OfNode} {amx : Aximux}
    (h : Accepts core.info np amx) (calls : List Call) (hvalid : ∀ c ∈ calls, c.Valid amx)
    (v : Valuation core) (hv : Settled core (coreRun core amx calls).2 v) :
    ∀ p < core.muxSignals,
      DrivenBy v p (lastSource amx calls p) (effectiveFlag amx calls p) ∧
      ((∀ c ∈ calls, p ∉ (Request.call c).pins amx) → DrivenBy v p 0 fun _ => false) := by
  intro p hp
  have hdriven := drivenBy_coreRun h hvalid hv hp
  refine ⟨hdriven, fun hother => ?_⟩
  obtain ⟨hsrc, hflags⟩ := untouched_pin hother
  rw [hsrc, funext hflags] at hdriven
  exact hdriven

/-- SHORT of pin 2 is set by a list that is refused at its second word. -/
def refusedRun : List Call := [.setMux 2 1, .pinconfSet 2 [0x180, 0x101]]

theorem any_run_drives_datapath_sample :
    DrivenBy (settle sampleCore (coreRun sampleCore sampleTables refusedRun).2 fun _ => true) 2 1
      (fun q => decide (q = .short)) ∧
    DrivenBy (settle sampleCore (coreRun sampleCore sampleTables refusedRun).2 fun _ => true) 5 0
      fun _ => false := by
  have hpin : sampleTables.Registered 2 := ⟨⟨2, "pin2", 2, ["gpio", "uart"]⟩, by decide, rfl⟩
  have hvalid : ∀ c ∈ refusedRun, c.Valid sampleTables :=
    List.forall_mem_cons.mpr ⟨⟨by decide, by decide⟩, List.forall_mem_singleton.mpr hpin⟩
  have hdrives := any_run_drives_datapath sampleCore sampleTables_accepted_core refusedRun hvalid
    (settle sampleCore _ fun _ => true) (settled_settle _ _ _)
  have hflags : effectiveFlag sampleTables refusedRun 2 = fun q => decide (q = .short) := by
    funext q
    cases q <;> decide +kernel
  have hsrc : lastSource sampleTables refusedRun 2 = 1 := by decide +kernel
  refine ⟨?_, (hdrives 5 (by decide)).2 (by decide +kernel)⟩
  rw [← hflags, ← hsrc]
  exact (hdrives 2 (by decide)).1

end AximuxSystem.Hardware
