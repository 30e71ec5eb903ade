import AximuxSystem.Hardware.Datapath
import AximuxSystem.Hardware.Programming

/-!
# From the driver's calls to the wires

A run of successful calls from reset fixes, for every signal of the core, which
alternate reaches its pad, which alternates see the pad and what drives its
direction.
-/

namespace AximuxSystem.Hardware

open Registers Driver

/-- After any run of successful calls from reset, whatever the inputs are, the output of a signal
is the alternate selected last, its input reaches the alternates selected or shorted, and its
direction is the software flag where software control was switched on. -/
theorem calls_drive_datapath (core : Core) {np : List OfNode} {amx : Aximux}
    (h : Accepts core.info np amx) (calls : List Call) (hvalid : ∀ c ∈ calls, c.Valid amx)
    (hshort : ∀ c ∈ calls, c.ShortArgs) (hok : ∀ r ∈ (coreRun core amx calls).1, r = .ok ())
    (v : Valuation core) (hv : Settled core (coreRun core amx calls).2 v) :
    ∀ p < core.muxSignals,
      v.bit (.sigOut p) = v.bit (.outgoing p (lastSource amx calls p)) ∧
      (∀ k ≤ core.altSignals, v.bit (.incoming p k) =
        ((decide (k = lastSource amx calls p) ||
          lastFlag (calls.flatMap (Call.args amx)) p .short false) && v.bit (.sigIn p))) ∧
      v.bit (.sigDir p) =
        if lastFlag (calls.flatMap (Call.args amx)) p .dirSw false then
          lastFlag (calls.flatMap (Call.args amx)) p .dirOut false
        else v.bit (.ctl p (lastSource amx calls p)) := by
  intro p hp
  have hflag := coreRun_flag h hvalid hshort hok hp
  have hwires := hv.outputs hp (coreRun_src h hvalid hp) (lastSource_le h calls p)
  rw [← hflag .short, ← hflag .dirSw, ← hflag .dirOut]
  exact hwires

theorem calls_drive_datapath_sample : ∃ v : Valuation sampleCore,
    v.bit (.sigIn 2) = true ∧ v.bit (.incoming 2 0) = false ∧ v.bit (.incoming 2 1) = true ∧
    v.bit (.sigOut 2) = v.bit (.outgoing 2 1) ∧ v.bit (.sigDir 2) = false := by
  have hok : ∀ r ∈ (coreRun sampleCore sampleTables sampleRun).1, r = .ok () := by
    rw [← (coreRun_eq sampleTables_accepted_core sampleRun_valid).1]
    exact (succeeds_iff (tables_invariant tables_sample).consistent sampleRun_valid _).mpr
      ((succeeds_iff (tables_invariant tables_sample).consistent sampleRun_valid _).mp
        sampleRun_succeeds)
  have hin : (settle sampleCore (coreRun sampleCore sampleTables sampleRun).2
    (· = Signal.sigIn 2)).bit (.sigIn 2) = true := by decide +kernel
  obtain ⟨hout, hin', hdir⟩ := calls_drive_datapath sampleCore sampleTables_accepted_core sampleRun
    sampleRun_valid sampleRun_shortArgs hok _ (settled_settle sampleCore _ (· = Signal.sigIn 2))
    2 (by decide)
  refine ⟨_, hin, (hin' 0 (by decide)).trans ?_, (hin' 1 (by decide)).trans ?_, hout.trans ?_,
    hdir.trans ?_⟩
  · decide +kernel
  · decide +kernel
  · decide +kernel
  · decide +kernel

end AximuxSystem.Hardware
