import AximuxSystem.Hardware.Programming
import AximuxSystem.Qemu.Device

/-!
# The emulated device against the core

The emulated device stores whole words where the core keeps the declared bits
of SRCSEL. On the bus the core shows what the emulated device shows, masked to
these bits; a driver, which writes declared bits only, sees no difference.
-/

namespace AximuxSystem.Qemu

open Registers Driver Hardware

/-- `r` is the address of a SRCSEL register or of MUXINFO. -/
def MappedAddress (core : Core) (r : ℕ) : Prop := core.SrcselAddress r ∨ r = 0x80

/-- What the core shows of a word the emulated device shows. -/
def declared (core : Core) (r : ℕ) (v : BitVec 32) : BitVec 32 :=
  if r = 0x80 then v else v &&& core.srcselMask

/-- The emulated device is one for the core, and the core holds the declared bits of its words. -/
structure Emulates (core : Core) (s : RegFile ℕ 32) (q : AximuxState) : Prop where
  npins : q.npins.toNat = core.muxSignals
  muxinfo : s 0x80 = q.muxinfo
  srcsel : ∀ idx : Fin aximuxMaxPins, idx.val < core.muxSignals →
    s (4 * idx) = q.srcsel idx &&& core.srcselMask

variable {core : Core}

/-- A SRCSEL address belongs to one word of the emulated device. -/
theorem srcselAddress_index {r : ℕ} (h : core.SrcselAddress r) :
    ∃ idx : Fin aximuxMaxPins, idx.val < core.muxSignals ∧ r = 4 * idx ∧ r ≠ 0x80 := by
  obtain ⟨p, hp, rfl⟩ := h
  have hlt : p < aximuxMaxPins := lt_of_lt_of_le hp core.muxSignals_le
  have hne : 4 * p ≠ 0x80 := by
    unfold aximuxMaxPins at hlt
    omega
  exact ⟨⟨p, hlt⟩, hp, rfl, hne⟩

/-- A write of any word to a SRCSEL register keeps the relation. -/
theorem Emulates.write {s : RegFile ℕ 32} {q : AximuxState} (h : Emulates core s q)
    {idx : Fin aximuxMaxPins} (hidx : idx.val < core.muxSignals) (v : BitVec 32) :
    Emulates core (core.slave.write s (4 * idx) v) (device.write q (4 * idx) v) := by
  have hinfo : 0x80 ≠ 4 * idx.val := by
    have hlt := idx.isLt
    unfold aximuxMaxPins at hlt
    omega
  rw [Core.slave_write_srcsel s hidx, device_write_srcsel q (h.npins ▸ hidx)]
  refine ⟨h.npins, ?_, fun other hother => ?_⟩
  · rw [FieldWrite.apply, Function.update_of_ne hinfo]
    exact h.muxinfo
  rw [AximuxState.store_srcsel, FieldWrite.apply]
  by_cases heq : other = idx
  · have hold : Fits core.srcselMask (s (4 * idx)) := by
      rw [h.srcsel idx hidx]
      exact fits_and _ _
    rw [if_pos heq, heq, Function.update_self, merge_eq_and hold]
  · have hval : 4 * other.val ≠ 4 * idx.val := by
      have hne : other.val ≠ idx.val := fun hval => heq (Fin.ext hval)
      omega
    rw [if_neg heq, Function.update_of_ne hval]
    exact h.srcsel other hother

/-- Arbitrary traffic at mapped addresses. -/
theorem slave_shows (core : Core) :
    core.slave.Shows device (MappedAddress core) (declared core) (Emulates core) where
  read_eq s q r h hr := by
    rcases hr with hr | rfl
    · obtain ⟨idx, hidx, rfl, hne⟩ := srcselAddress_index hr
      rw [Core.slave_read_srcsel s hidx, device_read_srcsel q (h.npins ▸ hidx), declared,
        if_neg hne]
      exact h.srcsel idx hidx
    · rw [Core.slave_read_muxinfo, device_read_muxinfo, declared, if_pos rfl]
      exact h.muxinfo
  write s q r v h hr := by
    rcases hr with hr | rfl
    · obtain ⟨idx, hidx, rfl, -⟩ := srcselAddress_index hr
      exact h.write hidx v
    · rw [Core.slave_write_muxinfo, device_write_muxinfo]
      exact h

/-- Traffic of declared bits: both devices hold the same words. -/
theorem slave_agrees (core : Core) :
    core.slave.Agree device core.SrcselAddress (fun _ => Fits core.srcselMask) fun s q =>
      Emulates core s q ∧ ∀ idx : Fin aximuxMaxPins, Fits core.srcselMask (q.srcsel idx) where
  read_eq s q r h hr := by
    obtain ⟨idx, hidx, rfl, -⟩ := srcselAddress_index hr
    rw [Core.slave_read_srcsel s hidx, device_read_srcsel q (h.1.npins ▸ hidx),
      h.1.srcsel idx hidx, and_eq_of_fits (h.2 idx)]
  read_ok s q r h hr := by
    obtain ⟨idx, hidx, rfl, -⟩ := srcselAddress_index hr
    rw [Core.slave_read_srcsel s hidx, h.1.srcsel idx hidx]
    exact fits_and _ _
  write s q r v h hr hv := by
    obtain ⟨idx, hidx, rfl, -⟩ := srcselAddress_index hr
    refine ⟨h.1.write hidx v, fun other => ?_⟩
    rw [device_write_srcsel q (h.1.npins ▸ hidx), AximuxState.store_srcsel]
    split_ifs
    · exact hv
    · exact h.2 other

/-- The emulated device simulates the core. For arbitrary bus traffic at mapped addresses from
reset, the core answers what the emulated device answers, masked to the declared bits of SRCSEL
and equal for MUXINFO. The same trees are accepted over both, and every run of requests, failing
ones included, has the same results over both. -/
theorem emulation_simulates_core (core : Core) : ∃ q : AximuxState,
    aximuxRealize (BitVec.ofNat 32 core.muxSignals) (BitVec.ofNat 32 core.altSignals) = .ok q ∧
    (∀ ops : List (BusOp ℕ 32), (∀ op ∈ ops, MappedAddress core op.address) →
      core.slave.observe ops core.reset =
        (device.observe ops q).map fun x => (x.1, declared core x.1 x.2)) ∧
    ∀ np amx, (Accepts core.info np amx ↔
        Accepts (device.read q Driver.aximuxRegMuxinfo) np amx) ∧
      (Accepts core.info np amx → ∀ reqs : List Request, (∀ req ∈ reqs, req.Valid amx) →
        (Prog.execAll core.slave (reqs.map (Request.prog amx)) core.reset).1 =
          (Prog.execAll device (reqs.map (Request.prog amx)) q).1) := by
  obtain ⟨q, hq, hnpins, hsrcsel, hinfo⟩ := aximuxRealize_ok core.muxSignals_pos
    core.muxSignals_le core.altSignals_pos core.altSignals_le
  have hreset : Emulates core core.reset q := by
    refine ⟨hnpins, Core.reset_muxinfo.trans hinfo.symm, fun idx hidx => ?_⟩
    rw [Core.reset_srcsel hidx, hsrcsel, and_eq_of_fits (fits_zero _)]
  refine ⟨q, hq, fun ops hops => (slave_shows core).observe hops hreset, fun np amx => ⟨?_, ?_⟩⟩
  · have heq : core.info = device.read q Driver.aximuxRegMuxinfo :=
      (slave_shows core).read_eq core.reset q 0x80 hreset (.inr rfl)
    rw [heq]
  · intro h reqs hreqs
    refine ((slave_agrees core).execAll (E := fun _ => True) ?_ ⟨hreset, fun idx => ?_⟩).1
    · intro p hp
      obtain ⟨req, hreq, rfl⟩ := List.mem_map.mp hp
      exact request_safe h (hreqs req hreq)
    · rw [hsrcsel]
      exact fits_zero _

/-- Calls on the sample tables, a refused one and both kinds of reading back included. -/
def sampleRequests : List Request :=
  sampleRun.map .call ++ [.call (.setMux 0 2), .pinconfGet 2 0x181, .srcselShow]

theorem emulation_simulates_core_sample : ∃ q : AximuxState, aximuxRealize 8 4 = .ok q ∧
    sampleCore.slave.observe [.write 8 0xffffffff, .read 8, .read 0x80] sampleCore.reset =
      (device.observe [.write 8 0xffffffff, .read 8, .read 0x80] q).map
        (fun x => (x.1, declared sampleCore x.1 x.2)) ∧
    (Prog.execAll sampleCore.slave (sampleRequests.map (Request.prog sampleTables))
        sampleCore.reset).1 =
      (Prog.execAll device (sampleRequests.map (Request.prog sampleTables)) q).1 := by
  obtain ⟨q, hq, hbus, hdriver⟩ := emulation_simulates_core sampleCore
  refine ⟨q, hq, hbus _ ?_, (hdriver sampleNodes sampleTables).2 sampleTables_accepted_core _ ?_⟩
  · simp only [List.forall_mem_cons, List.not_mem_nil, false_imp_iff, implies_true, and_true]
    have haddr : MappedAddress sampleCore 8 := .inl ⟨2, by decide, rfl⟩
    exact ⟨haddr, haddr, .inr rfl⟩
  · have hpin : sampleTables.Registered 2 := ⟨⟨2, "pin2", 2, ["gpio", "uart"]⟩, by decide, rfl⟩
    intro req hreq
    rcases List.mem_append.mp hreq with hreq | hreq
    · obtain ⟨c, hc, rfl⟩ := List.mem_map.mp hreq
      exact sampleRun_valid c hc
    · simp only [List.mem_cons, List.not_mem_nil, or_false] at hreq
      obtain rfl | rfl | rfl := hreq
      · exact ⟨by decide, by decide⟩
      · exact hpin
      · trivial

end AximuxSystem.Qemu
