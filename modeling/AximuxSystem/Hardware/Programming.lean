import AximuxSystem.Hardware.SlaveMap
import AximuxSystem.Driver.Requests
import AximuxSystem.Driver.Pinconf

/-!
# The driver over the register map

A driver probed on a core writes source numbers up to the number of alternates
and the three configuration bits, all of which the map declares. Hence it
cannot tell the core from plain storage, and what its calls leave in the fields
of a SRCSEL register is known from their arguments.
-/

namespace AximuxSystem.Hardware

open Registers Driver

variable {core : Core}

/-- The MUXINFO word: the number of alternates and the number of signals. -/
def Core.info (core : Core) : BitVec 32 := core.slave.read core.reset aximuxRegMuxinfo

theorem toNat_info (core : Core) : core.info.toNat = core.altSignals * 2 ^ 8 + core.muxSignals := by
  have hN := core.muxSignals_le
  have hA := core.altSignals_le
  have hread : core.info = core.reset 0x80 := Core.slave_read_muxinfo core.reset
  rw [hread, Core.reset_muxinfo, BitVec.toNat_or, BitVec.toNat_shiftLeft, BitVec.toNat_ofNat,
    BitVec.toNat_ofNat, Nat.mod_eq_of_lt (by omega : core.altSignals < 2 ^ 32),
    Nat.mod_eq_of_lt (by omega : core.muxSignals < 2 ^ 32), Nat.shiftLeft_eq,
    Nat.mod_eq_of_lt (by omega), ← Nat.shiftLeft_eq,
    ← Nat.shiftLeft_add_eq_or_of_lt (by omega : core.muxSignals < 2 ^ 8)]

theorem infoPins_info (core : Core) : infoPins core.info = core.muxSignals := by
  have hN := core.muxSignals_le
  have hmask : (0xff : BitVec 32).toNat = 2 ^ 8 - 1 := rfl
  rw [infoPins, BitVec.toNat_and, hmask, Nat.and_two_pow_sub_one_eq_mod, toNat_info]
  omega

theorem altLimit_info (core : Core) : altLimit (infoAlts core.info) = core.altSignals := by
  have hN := core.muxSignals_le
  have hA := core.altSignals_le
  have hpos := core.altSignals_pos
  have hmask : (0xff : BitVec 32).toNat = 2 ^ 8 - 1 := rfl
  have halts : infoAlts core.info = core.altSignals := by
    rw [infoAlts, BitVec.toNat_and, BitVec.toNat_ushiftRight, hmask,
      Nat.and_two_pow_sub_one_eq_mod, Nat.shiftRight_eq_div_pow, toNat_info]
    omega
  rw [halts, altLimit, if_neg]
  unfold aximuxMaxAlts
  omega

/-! ### The driver writes declared bits only -/

theorem keeps_srcWrite {pin src : ℕ} (hsrc : src ≤ core.altSignals) :
    Keeps (fun _ => Fits core.srcselMask) (srcWrite pin src) := by
  intro old hold
  refine fits_merge hold fun i _ hi => ?_
  rw [Core.getLsbD_srcselMask, decide_eq_true_eq]
  refine .inl ?_
  by_contra hge
  have hlt : src < 2 ^ i := calc
    src < 2 ^ core.altSignalSize := lt_of_le_of_lt hsrc core.altSignals_lt
    _ ≤ 2 ^ i := Nat.pow_le_pow_right (by decide) (not_lt.mp hge)
  rw [srcWrite, BitVec.getLsbD_ofNat, Nat.testBit_lt_two_pow hlt, Bool.and_false] at hi
  cases hi

theorem keeps_configWrite {pin : ℕ} {config : BitVec 32} {w : FieldWrite ℕ 32}
    (h : configWrite pin config = some w) : Keeps (fun _ => Fits core.srcselMask) w := by
  obtain ⟨mask, hmask, rfl⟩ := Option.map_eq_some_iff.mp h
  obtain ⟨q, -, rfl⟩ := cfgBit_eq_some hmask
  intro old hold
  refine fits_merge hold fun i hi _ => ?_
  rw [getLsbD_paramBit, decide_eq_true_eq] at hi
  rw [Core.getLsbD_srcselMask, decide_eq_true_eq, hi]
  exact .inr (by cases q <;> decide)

variable {np : List OfNode} {amx : Aximux}

theorem accepted_nalts (h : Accepts core.info np amx) : amx.nalts = core.altSignals := by
  obtain ⟨-, -, pins, extra, -, -, rfl⟩ := tables_eq_ok.mp (accepts_iff.mp h)
  exact altLimit_info core

theorem accepted_invariant (h : Accepts core.info np amx) :
    TableInvariant core.muxSignals amx :=
  infoPins_info core ▸ tables_invariant (accepts_iff.mp h)

theorem srcselAddress_of_registered (h : Accepts core.info np amx) {r : ℕ}
    (hr : amx.PinRegister r) : core.SrcselAddress r := by
  obtain ⟨p, ⟨pin, hpin, rfl⟩, rfl, -⟩ := (accepted_invariant h).pinRegister_lt hr
  exact ⟨pin.number, (accepted_invariant h).pin_lt pin hpin, rfl⟩

theorem safe_of_contained {α : Type} (h : Accepts core.info np amx) {P : ℕ → BitVec 32 → Prop}
    {p : RegProg α} (hp : Contained amx P p) : p.Safe core.SrcselAddress P fun _ => True :=
  hp.mono (fun _ => srcselAddress_of_registered h) fun _ _ => trivial

theorem call_safe (h : Accepts core.info np amx) {c : Call} (hc : c.Valid amx) :
    (c.prog amx).Safe core.SrcselAddress (fun _ => Fits core.srcselMask) fun _ => True :=
  safe_of_contained h (Call.contained (accepted_invariant h)
    (fun _ _ _ hsrc => keeps_srcWrite (accepted_nalts h ▸ hsrc))
    (fun _ _ _ _ hw => keeps_configWrite hw) hc)

/-- Every request of a driver probed on the core keeps to the declared bits. -/
theorem request_safe (h : Accepts core.info np amx) {req : Request} (hreq : req.Valid amx) :
    (req.prog amx).Safe core.SrcselAddress (fun _ => Fits core.srcselMask) fun _ => True :=
  safe_of_contained h (Request.contained (accepted_invariant h)
    (fun _ _ _ hsrc => keeps_srcWrite (accepted_nalts h ▸ hsrc))
    (fun _ _ _ _ hw => keeps_configWrite hw) hreq)

/-! ### The core behind the driver -/

/-- The core and plain storage hold the same declared bits in every SRCSEL register. -/
def Mirrors (core : Core) (rf s : RegFile ℕ 32) : Prop :=
  ∀ r, core.SrcselAddress r → rf r = s r ∧ Fits core.srcselMask (rf r)

theorem storage_agrees_slave (core : Core) :
    RegFile.device.Agree core.slave core.SrcselAddress (fun _ => Fits core.srcselMask)
      (Mirrors core) := by
  refine mapDevice_agree fun r hr => ?_
  obtain ⟨p, hp, rfl⟩ := hr
  exact ⟨core.srcsel p, Core.registerAt_srcsel hp, rfl⟩

theorem mirrors_reset (core : Core) : Mirrors core core.reset core.reset := by
  intro r hr
  obtain ⟨p, hp, rfl⟩ := hr
  rw [Core.reset_srcsel hp]
  exact ⟨rfl, fits_zero _⟩

/-- A run of calls over the core, from reset. -/
def coreRun (core : Core) (amx : Aximux) (calls : List Call) :
    List (Except Stop Unit) × RegFile ℕ 32 :=
  Prog.execAll core.slave (calls.map (Call.prog amx)) core.reset

theorem coreRun_eq (h : Accepts core.info np amx) {calls : List Call}
    (hcalls : ∀ c ∈ calls, c.Valid amx) :
    (runCalls amx calls core.reset).1 = (coreRun core amx calls).1 ∧
      Mirrors core (runCalls amx calls core.reset).2 (coreRun core amx calls).2 := by
  refine (storage_agrees_slave core).execAll (E := fun _ => True) ?_ (mirrors_reset core)
  intro p hp
  obtain ⟨c, hc, rfl⟩ := List.mem_map.mp hp
  exact call_safe h (hcalls c hc)

/-! ### Fields after a run -/

/-- The source the calls gave to the pin last; 0 if none did. -/
def lastSource (amx : Aximux) (calls : List Call) (pin : ℕ) : ℕ :=
  (Grouping.lastOf pin (calls.flatMap (Call.sources amx))).getD 0

theorem lastSource_le (h : Accepts core.info np amx) (calls : List Call) (pin : ℕ) :
    lastSource amx calls pin ≤ core.altSignals := by
  rw [lastSource]
  cases hlast : Grouping.lastOf pin (calls.flatMap (Call.sources amx)) with
  | none => exact Nat.zero_le _
  | some s =>
    obtain ⟨c, -, he⟩ := List.mem_flatMap.mp (Grouping.mem_of_lastOf hlast)
    exact accepted_nalts h ▸ (sources_bounds (accepted_invariant h)).2 _ he

variable {calls : List Call} {p : ℕ}

theorem coreRun_word (h : Accepts core.info np amx) (hcalls : ∀ c ∈ calls, c.Valid amx)
    (hp : p < core.muxSignals) :
    (coreRun core amx calls).2 (4 * p) = (runCalls amx calls core.reset).2 (aximuxReg p) := by
  have hle := core.muxSignals_le
  rw [aximuxReg_eq (by omega)]
  exact ((coreRun_eq h hcalls).2 _ ⟨p, hp, rfl⟩).1.symm

theorem reset_reg (hp : p < core.muxSignals) : core.reset (aximuxReg p) = 0 := by
  have hle := core.muxSignals_le
  rw [aximuxReg_eq (by omega), Core.reset_srcsel hp]

/-- The source field holds the last source. -/
theorem coreRun_src (h : Accepts core.info np amx) (hcalls : ∀ c ∈ calls, c.Valid amx)
    (hp : p < core.muxSignals) :
    (core.src.value ((coreRun core amx calls).2 (4 * p))).toNat = lastSource amx calls p := by
  have hinv := accepted_invariant h
  have hle := core.muxSignals_le
  have hfield : srcField ((runCalls amx calls core.reset).2 (aximuxReg p)) =
      lastSource amx calls p := by
    rw [run_srcField hinv hcalls (by omega), reset_reg hp]
    rfl
  have hlast : lastSource amx calls p < 2 ^ core.altSignalSize :=
    lt_of_le_of_lt (lastSource_le h calls p) core.altSignals_lt
  have hbound : lastSource amx calls p < 2 ^ 4 :=
    lt_of_le_of_lt ((lastSource_le h calls p).trans core.altSignals_le) (by decide)
  apply Nat.eq_of_testBit_eq
  intro i
  rw [BitVec.testBit_toNat, Field.value, BitVec.getLsbD_extractLsb', coreRun_word h hcalls hp,
    Core.src_size]
  change (_ && BitVec.getLsbD _ (0 + i)) = _
  rw [Nat.zero_add]
  by_cases hi : i < core.altSignalSize
  · rw [decide_eq_true hi, Bool.true_and]
    by_cases hsrc : i < 4
    · rw [← hfield, testBit_srcField, decide_eq_true hsrc, Bool.true_and]
    · -- a fifth bit of the field lies between SRC and SHORT, where no call writes
      have hfour : i = 4 := by
        have := core.altSignalSize_le
        omega
      subst i
      have hframe : ∀ c ∈ calls, ¬ c.MayChange amx (aximuxReg p) 4 := by
        intro c _ hc
        cases c with
        | setMux f g => exact hsrc hc
        | pinconfSet pin configs => exact absurd hc.1 (by decide)
        | pinconfGroupSet g configs => exact absurd hc.1 (by decide)
      rw [run_frame hinv.consistent hcalls core.reset hframe, reset_reg hp,
        Nat.testBit_lt_two_pow hbound]
      rfl
  · have hpow : 2 ^ core.altSignalSize ≤ 2 ^ i := Nat.pow_le_pow_right (by decide) (not_lt.mp hi)
    rw [decide_eq_false hi, Bool.false_and, Nat.testBit_lt_two_pow (lt_of_lt_of_le hlast hpow)]

/-- Each configuration bit holds the last flag. -/
theorem coreRun_flag (h : Accepts core.info np amx) (hcalls : ∀ c ∈ calls, c.Valid amx)
    (hshort : ∀ c ∈ calls, c.ShortArgs) (hok : ∀ r ∈ (coreRun core amx calls).1, r = .ok ())
    (hp : p < core.muxSignals) (q : ConfigParam) :
    ((coreRun core amx calls).2 (4 * p)).getLsbD q.bit =
      lastFlag (calls.flatMap (Call.args amx)) p q false := by
  have hle := core.muxSignals_le
  have hsucc : Succeeds amx calls core.reset := by
    rw [Succeeds, (coreRun_eq h hcalls).1]
    exact hok
  rw [coreRun_word h hcalls hp,
    run_config_bit (accepted_invariant h) hcalls hshort hsucc (by omega), reset_reg hp,
    BitVec.ofNat_eq_ofNat, BitVec.getLsbD_zero]

/-- A core of 8 signals with 4 alternates each. -/
def sampleCore : Core where
  muxSignals := 8
  altSignals := 4
  altSignalSize := 3
  muxSignals_pos := by decide
  muxSignals_le := by decide
  altSignals_pos := by decide
  altSignals_le := by decide
  altSignals_lt := by decide
  altSignalSize_le := by decide

theorem sampleCore_info : sampleCore.info = 0x408 := by decide +kernel

theorem sampleTables_accepted_core : Accepts sampleCore.info sampleNodes sampleTables :=
  sampleCore_info ▸ sampleTables_accepted

end AximuxSystem.Hardware
