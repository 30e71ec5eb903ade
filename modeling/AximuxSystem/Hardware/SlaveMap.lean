import AximuxSystem.Foundation.RegisterMap

/-!
# Register map of the core

The registers of `generator/axislave.mm` with the fields that carry a position,
and the device the map describes. The width of the source field is a parameter
of the core: it must hold every source number and end below SHORT.
-/

namespace AximuxSystem.Hardware

open Registers

/-- Parameters of a generated core. `mux_gen.py` refuses counts outside these ranges. -/
structure Core where
  muxSignals : ℕ
  altSignals : ℕ
  altSignalSize : ℕ
  muxSignals_pos : 1 ≤ muxSignals
  muxSignals_le : muxSignals ≤ 32
  altSignals_pos : 1 ≤ altSignals
  altSignals_le : altSignals ≤ 15
  altSignals_lt : altSignals < 2 ^ altSignalSize
  altSignalSize_le : altSignalSize ≤ 5

namespace Core

variable (core : Core)

/-! ### Fields of SRCSEL -/

def src : Field 32 := ⟨core.altSignalSize - 1, 0, .RW, 0⟩

def short : Field 32 := ⟨5, 5, .RW, 0⟩

def dctl : Field 32 := ⟨6, 6, .RW, 0⟩

def dir : Field 32 := ⟨7, 7, .RW, 0⟩

def srcsel (ii : ℕ) : Register ℕ 32 := ⟨4 * ii, [core.src, short, dctl, dir]⟩

/-! ### Fields of MUXINFO -/

def signals : Field 32 := ⟨7, 0, .R, BitVec.ofNat 32 core.muxSignals⟩

def altsigs : Field 32 := ⟨15, 8, .R, BitVec.ofNat 32 core.altSignals⟩

def reserved : Field 32 := ⟨31, 16, .R, 0⟩

def muxinfo : Register ℕ 32 := ⟨0x80, [core.signals, core.altsigs, reserved]⟩

/-- Registers without an address of their own follow each other from address 0. -/
def registers : List (Register ℕ 32) :=
  (List.range core.muxSignals).map core.srcsel ++ [core.muxinfo]

def slave : Device (RegFile ℕ 32) ℕ 32 := mapDevice core.registers

def reset : RegFile ℕ 32 := resetState core.registers

/-- `r` is the address of a SRCSEL register. -/
def SrcselAddress (r : ℕ) : Prop := ∃ p < core.muxSignals, r = 4 * p

variable {core}

theorem altSignalSize_pos : 1 ≤ core.altSignalSize := by
  by_contra h
  have hzero : core.altSignalSize = 0 := by omega
  have hlt := core.altSignals_lt
  rw [hzero] at hlt
  have := core.altSignals_pos
  omega

theorem src_size : core.src.size = core.altSignalSize := Nat.sub_add_cancel altSignalSize_pos

theorem registers_nodup : (core.registers.map Register.address).Nodup := by
  have hsrcsel : ((List.range core.muxSignals).map core.srcsel).map Register.address =
      (List.range core.muxSignals).map (4 * ·) := by
    rw [List.map_map]
    rfl
  rw [registers, List.map_append, hsrcsel, List.nodup_append]
  refine ⟨List.nodup_range.map fun p q h => by simpa using h, List.nodup_singleton _, ?_⟩
  intro a ha b hb
  obtain ⟨p, hp, rfl⟩ := List.mem_map.mp ha
  have hlt := List.mem_range.mp hp
  have hle := core.muxSignals_le
  rw [List.mem_singleton.mp hb]
  change 4 * p ≠ 0x80
  omega

theorem registerAt_srcsel {p : ℕ} (hp : p < core.muxSignals) :
    registerAt core.registers (4 * p) = some (core.srcsel p) :=
  registerAt_of_mem registers_nodup
    (List.mem_append_left _ (List.mem_map_of_mem (List.mem_range.mpr hp)))

theorem registerAt_muxinfo : registerAt core.registers 0x80 = some core.muxinfo :=
  registerAt_of_mem registers_nodup (List.mem_append_right _ (List.mem_singleton_self _))

/-! ### Words of the registers -/

/-- The writable bits of SRCSEL: the source field and the three configuration bits. -/
def srcselMask (core : Core) : BitVec 32 := (core.srcsel 0).rwMask

theorem getLsbD_srcselMask (i : ℕ) : core.srcselMask.getLsbD i =
    decide (i < core.altSignalSize ∨ i = 5 ∨ i = 6 ∨ i = 7) := by
  have hpos : 1 ≤ core.altSignalSize := altSignalSize_pos
  have hle := core.altSignalSize_le
  have hfields : (core.srcsel 0).fields.filter (·.access = .RW) =
    [core.src, short, dctl, dir] := rfl
  rw [srcselMask, Register.rwMask, hfields, getLsbD_orAll]
  simp only [List.map_cons, List.map_nil, List.any_cons, List.any_nil, Field.getLsbD_mask, src,
    short, dctl, dir, ← Bool.decide_and, Bool.or_false, ← Bool.decide_or]
  exact decide_eq_decide.mpr (by omega)

theorem rwMask_muxinfo : core.muxinfo.rwMask = 0 := rfl

theorem reset_srcsel {p : ℕ} (hp : p < core.muxSignals) : core.reset (4 * p) = 0 := by
  have hzero : ∀ f : Field 32, f.default = 0 → f.reset = 0 := by
    intro f hf
    simp [Field.reset, hf]
  rw [reset, resetState_eq (registerAt_srcsel hp), Register.reset]
  simp [srcsel, orAll, hzero, src, short, dctl, dir]

theorem reset_muxinfo : core.reset 0x80 =
    BitVec.ofNat 32 core.altSignals <<< 8 ||| BitVec.ofNat 32 core.muxSignals := by
  have hN := core.muxSignals_le
  have hA := core.altSignals_le
  have hsignals : core.signals.reset = BitVec.ofNat 32 core.muxSignals <<< 0 := by
    refine Field.reset_of_lt ?_
    change (BitVec.ofNat 32 core.muxSignals).toNat < 2 ^ 8
    rw [BitVec.toNat_ofNat, Nat.mod_eq_of_lt (by omega)]
    omega
  have haltsigs : core.altsigs.reset = BitVec.ofNat 32 core.altSignals <<< 8 := by
    refine Field.reset_of_lt ?_
    change (BitVec.ofNat 32 core.altSignals).toNat < 2 ^ 8
    rw [BitVec.toNat_ofNat, Nat.mod_eq_of_lt (by omega)]
    omega
  have hreserved : reserved.reset = 0 := by decide
  rw [reset, resetState_eq registerAt_muxinfo, Register.reset, muxinfo, List.map_cons,
    List.map_cons, List.map_singleton, hsignals, haltsigs, hreserved]
  simp [orAll, BitVec.or_comm]

/-! ### Accesses -/

section Accesses

variable (s : RegFile ℕ 32)

theorem slave_read_srcsel {p : ℕ} (hp : p < core.muxSignals) :
    core.slave.read s (4 * p) = s (4 * p) := mapDevice_read (registerAt_srcsel hp) s

theorem slave_read_muxinfo : core.slave.read s 0x80 = s 0x80 := mapDevice_read registerAt_muxinfo s

theorem slave_write_srcsel {p : ℕ} (hp : p < core.muxSignals) (v : BitVec 32) :
    core.slave.write s (4 * p) v = FieldWrite.apply ⟨4 * p, core.srcselMask, v⟩ s :=
  mapDevice_write (registerAt_srcsel hp) s v

/-- MUXINFO has no writable field. -/
theorem slave_write_muxinfo (v : BitVec 32) : core.slave.write s 0x80 v = s := by
  refine (mapDevice_write registerAt_muxinfo s v).trans ?_
  rw [rwMask_muxinfo, FieldWrite.apply, Function.update_eq_self_iff]
  apply BitVec.eq_of_getLsbD_eq
  intro i _
  rw [FieldWrite.getLsbD_merge, BitVec.ofNat_eq_ofNat, BitVec.getLsbD_zero]
  rfl

end Accesses

end Core
end AximuxSystem.Hardware
