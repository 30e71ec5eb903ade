import AximuxSystem.Driver.Dump
import AximuxSystem.Hardware.Programming

/-!
# What the driver reports over the core

After a run of successful calls from reset the dump and the debug texts show,
for every pin, the source selected last and the flags applied last. They are
read from the core, which keeps the declared bits of SRCSEL only.
-/

namespace AximuxSystem.Hardware

open Registers Driver

/-- The settings the calls leave a pin with. -/
def callsView (amx : Aximux) (calls : List Call) (pin : ℕ) : PinView where
  src := lastSource amx calls pin
  short := lastFlag (calls.flatMap (Call.args amx)) pin .short false
  dirSw := lastFlag (calls.flatMap (Call.args amx)) pin .dirSw false
  dirOut := lastFlag (calls.flatMap (Call.args amx)) pin .dirOut false

variable {core : Core} {np : List OfNode} {amx : Aximux} {calls : List Call} {pin : ℕ}

/-- No call writes the reserved bit. -/
theorem run_reserved (h : Accepts core.info np amx) (hcalls : ∀ c ∈ calls, c.Valid amx)
    (hpin : pin < core.muxSignals) :
    ((runCalls amx calls core.reset).2 (aximuxReg pin)).getLsbD 4 = false := by
  have hframe : ∀ c ∈ calls, ¬ c.MayChange amx (aximuxReg pin) 4 := by
    intro c _ hc
    cases c with
    | setMux f g => exact absurd hc (Nat.lt_irrefl 4)
    | pinconfSet pin configs => exact absurd hc.1 (by decide)
    | pinconfGroupSet g configs => exact absurd hc.1 (by decide)
  rw [run_frame (accepted_invariant h).consistent hcalls core.reset hframe, reset_reg hpin]
  rfl

/-- The register word of a pin after the run stands for the settings the calls leave. -/
theorem ofWord_run (h : Accepts core.info np amx) (hcalls : ∀ c ∈ calls, c.Valid amx)
    (hshort : ∀ c ∈ calls, c.ShortArgs) (hok : Succeeds amx calls core.reset)
    (hpin : pin < core.muxSignals) :
    PinView.ofWord ((runCalls amx calls core.reset).2 (aximuxReg pin)) =
      callsView amx calls pin := by
  have hinv := accepted_invariant h
  have hle := core.muxSignals_le
  have hflag : ∀ q : ConfigParam,
      ((runCalls amx calls core.reset).2 (aximuxReg pin)).getLsbD q.bit =
        lastFlag (calls.flatMap (Call.args amx)) pin q false := by
    intro q
    rw [run_config_bit hinv hcalls hshort hok (by omega), reset_reg hpin, BitVec.ofNat_eq_ofNat,
      BitVec.getLsbD_zero]
  have hsrc : srcField ((runCalls amx calls core.reset).2 (aximuxReg pin)) =
      lastSource amx calls pin := by
    rw [run_srcField hinv hcalls (by omega), reset_reg hpin]
    rfl
  rw [PinView.ofWord, callsView, hsrc, ← hflag .short, ← hflag .dirSw, ← hflag .dirOut]
  rfl

/-- A program that keeps to pin registers returns over the core what it returns over storage. -/
theorem exec_coreRun {α : Type} (h : Accepts core.info np amx) (hcalls : ∀ c ∈ calls, c.Valid amx)
    {p : RegProg α} (hp : Contained amx (fun _ => Fits core.srcselMask) p) :
    (p.exec core.slave (coreRun core amx calls).2).1 =
      (p.run (runCalls amx calls core.reset).2).1 :=
  ((storage_agrees_slave core).exec (safe_of_contained h hp) (coreRun_eq h hcalls).2).1.symm

theorem dbgShow_contained (hpin : amx.Registered pin) :
    Contained amx (fun _ => Fits core.srcselMask) (aximuxPinDbgShow pin) :=
  ⟨⟨pin, hpin, rfl⟩, fun _ _ => trivial⟩

/-- After any run of successful calls from reset over the core, the dump has an entry for each
pin with exactly the settings the calls left it with, and the debug texts show the same. -/
theorem reports_show_calls (core : Core) {np : List OfNode} {amx : Aximux}
    (h : Accepts core.info np amx) (calls : List Call) (hvalid : ∀ c ∈ calls, c.Valid amx)
    (hshort : ∀ c ∈ calls, c.ShortArgs) (hok : ∀ r ∈ (coreRun core amx calls).1, r = .ok ()) :
    (∃ dump, ((srcselShow amx).exec core.slave (coreRun core amx calls).2).1 = .ok dump ∧
      Report.readHexReport dump =
        some (amx.pins.map fun pin => (pin.name, (callsView amx calls pin.number).byte))) ∧
    ∀ pin, amx.Registered pin → ∃ text,
      ((aximuxPinDbgShow pin).exec core.slave (coreRun core amx calls).2).1 = .ok text ∧
      Report.readFields text = some (callsView amx calls pin).fields := by
  have hinv := accepted_invariant h
  have hsucc : Succeeds amx calls core.reset := by
    rw [Succeeds, (coreRun_eq h hvalid).1]
    exact hok
  constructor
  · have hread := readHexReport_dump h (fun _ => (runCalls amx calls core.reset).2) 0
    rw [dumpEntries_const] at hread
    refine ⟨_, (exec_coreRun h hvalid (srcselShow_contained hinv)).trans
      (congrArg Prod.fst (run_srcselShow h _)), ?_⟩
    rw [dumpEntries_const, hread]
    congr 1
    refine List.map_congr_left fun pin hpin => Prod.ext rfl ?_
    have hlt := hinv.pin_lt pin hpin
    change (_ &&& 0xff : BitVec 32).toNat = _
    rw [lowByte_eq_byte, ofWord_run h hvalid hshort hsucc hlt, run_reserved h hvalid hlt]
    rfl
  · intro pin hpin
    obtain ⟨entry, hentry, rfl⟩ := hpin
    have hview := ofWord_run h hvalid hshort hsucc (hinv.pin_lt entry hentry)
    refine ⟨_, (exec_coreRun h hvalid (dbgShow_contained ⟨entry, hentry, rfl⟩)).trans
      (congrArg Prod.fst (run_aximuxPinDbgShow _ _)), ?_⟩
    rw [hview]
    exact readFields_fields _

theorem reports_show_calls_sample : ∃ dump,
    ((srcselShow sampleTables).exec sampleCore.slave
      (coreRun sampleCore sampleTables sampleRun).2).1 = .ok dump ∧
    Report.readHexReport dump = some [("pin0", 0x40), ("pin2", 0x41)] := by
  have hok : ∀ r ∈ (coreRun sampleCore sampleTables sampleRun).1, r = .ok () := by
    decide +kernel
  obtain ⟨⟨dump, hdump, hread⟩, -⟩ := reports_show_calls sampleCore sampleTables_accepted_core
    sampleRun sampleRun_valid sampleRun_shortArgs hok
  exact ⟨dump, hdump, hread.trans (by decide +kernel)⟩

end AximuxSystem.Hardware
