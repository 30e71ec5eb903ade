import AximuxSystem.Foundation.RegisterProgram

/-!
# Emulated device

The memory-mapped device of `sim/qemu/hw/aximux.c`. It stores whole words for
the pins it was given and nothing else; accesses it does not map read as 0 and
write nothing.
-/

namespace AximuxSystem.Qemu

open Registers

def aximuxRegMuxinfo : BitVec 64 := 0x80

def aximuxMaxPins : ℕ := 32

/-- `struct AximuxState` of a realized device. -/
structure AximuxState where
  srcsel : Fin aximuxMaxPins → BitVec 32
  muxinfo : BitVec 32
  npins : BitVec 32
  nalts : BitVec 32
  npins_le : npins.toNat ≤ aximuxMaxPins

/-- `s->srcsel[idx] = v` -/
def AximuxState.store (s : AximuxState) (idx : Fin aximuxMaxPins) (v : BitVec 32) : AximuxState :=
  { s with srcsel := Function.update s.srcsel idx v }

namespace AximuxState

variable (s : AximuxState) (idx : Fin aximuxMaxPins) (v : BitVec 32)

@[simp] theorem store_npins : (s.store idx v).npins = s.npins := rfl

@[simp] theorem store_muxinfo : (s.store idx v).muxinfo = s.muxinfo := rfl

@[simp] theorem store_srcsel (other : Fin aximuxMaxPins) :
    (s.store idx v).srcsel other = if other = idx then v else s.srcsel other :=
  Function.update_apply s.srcsel idx v other

end AximuxState

def aximuxRealize (npins nalts : BitVec 32) : Except String AximuxState :=
  if h : npins = 0 ∨ npins.toNat > aximuxMaxPins then .error "aximux: npins must be 1..32"
  else if nalts = 0 ∨ nalts.toNat > 15 then .error "aximux: nalts must be 1..15"
  else .ok {
    srcsel := fun _ => 0
    muxinfo := (nalts <<< 8) ||| npins
    npins := npins
    nalts := nalts
    npins_le := Nat.le_of_not_gt fun hgt => h (.inr hgt) }

/-- Index of the SRCSEL register at an address, if the device maps one there. -/
def srcselIndex (s : AximuxState) (addr : BitVec 64) : Option (Fin aximuxMaxPins) :=
  if addr < aximuxRegMuxinfo ∧ addr &&& 3 = 0 then
    let idx : BitVec 32 := (addr >>> 2).setWidth 32
    if h : idx < s.npins then some ⟨idx.toNat, lt_of_lt_of_le h s.npins_le⟩ else none
  else none

def aximuxRead (s : AximuxState) (addr : BitVec 64) (size : ℕ) : BitVec 64 :=
  if size ≠ 4 then 0
  else if addr = aximuxRegMuxinfo then s.muxinfo.setWidth 64
  else
    match srcselIndex s addr with
    | some idx => (s.srcsel idx).setWidth 64
    | none => 0

def aximuxWrite (s : AximuxState) (addr : BitVec 64) (val : BitVec 64) (size : ℕ) : AximuxState :=
  if size ≠ 4 then s
  else if addr = aximuxRegMuxinfo then s
  else
    match srcselIndex s addr with
    | some idx => s.store idx (val.setWidth 32)
    | none => s

/-- The device on a bus of 32-bit accesses. -/
def device : Device AximuxState ℕ 32 where
  read s r := (aximuxRead s (BitVec.ofNat 64 r) 4).setWidth 32
  write s r v := aximuxWrite s (BitVec.ofNat 64 r) (v.setWidth 64) 4

theorem aximuxRealize_ok {npins nalts : ℕ} (hp : 1 ≤ npins) (hpins : npins ≤ 32)
    (ha : 1 ≤ nalts) (halts : nalts ≤ 15) :
    ∃ s, aximuxRealize (BitVec.ofNat 32 npins) (BitVec.ofNat 32 nalts) = .ok s ∧
      s.npins.toNat = npins ∧ (∀ idx, s.srcsel idx = 0) ∧
      s.muxinfo = BitVec.ofNat 32 nalts <<< 8 ||| BitVec.ofNat 32 npins := by
  have hn : (BitVec.ofNat 32 npins).toNat = npins := by
    rw [BitVec.toNat_ofNat, Nat.mod_eq_of_lt (by omega)]
  have ha' : (BitVec.ofNat 32 nalts).toNat = nalts := by
    rw [BitVec.toNat_ofNat, Nat.mod_eq_of_lt (by omega)]
  have hpins' : ¬ (BitVec.ofNat 32 npins = 0 ∨
      (BitVec.ofNat 32 npins).toNat > aximuxMaxPins) := by
    unfold aximuxMaxPins
    rintro (h | h)
    · have hzero : npins = 0 := by rw [← hn, h]; rfl
      omega
    · omega
  have halts' : ¬ (BitVec.ofNat 32 nalts = 0 ∨ (BitVec.ofNat 32 nalts).toNat > 15) := by
    rintro (h | h)
    · have hzero : nalts = 0 := by rw [← ha', h]; rfl
      omega
    · omega
  rw [aximuxRealize, dif_neg hpins', if_neg halts']
  exact ⟨_, rfl, hn, fun _ => rfl, rfl⟩

/-! ### Mapped accesses -/

section Mapped

variable (s : AximuxState)

theorem srcselIndex_eq {idx : Fin aximuxMaxPins} (h : idx.val < s.npins.toNat) :
    srcselIndex s (BitVec.ofNat 64 (4 * idx)) = some idx := by
  have hlt := idx.isLt
  unfold aximuxMaxPins at hlt
  have haddr : (BitVec.ofNat 64 (4 * idx)).toNat = 4 * idx := by
    rw [BitVec.toNat_ofNat, Nat.mod_eq_of_lt (by omega)]
  have hbelow : BitVec.ofNat 64 (4 * idx) < aximuxRegMuxinfo := by
    rw [BitVec.lt_def, haddr]
    change 4 * idx.val < 0x80
    omega
  have haligned : BitVec.ofNat 64 (4 * idx) &&& 3 = 0 := by
    apply BitVec.eq_of_toNat_eq
    rw [BitVec.toNat_and, haddr]
    change 4 * idx.val &&& 2 ^ 2 - 1 = 0
    rw [Nat.and_two_pow_sub_one_eq_mod]
    omega
  have hidx : ((BitVec.ofNat 64 (4 * idx) >>> 2).setWidth 32).toNat = idx := by
    rw [BitVec.toNat_setWidth, BitVec.toNat_ushiftRight, haddr, Nat.shiftRight_eq_div_pow]
    omega
  have hpins : (BitVec.ofNat 64 (4 * idx) >>> 2).setWidth 32 < s.npins := by
    rw [BitVec.lt_def, hidx]
    exact h
  simp only [srcselIndex, hbelow, haligned, and_self, if_true, hpins, dite_true, hidx]

theorem srcsel_ne_muxinfo (idx : Fin aximuxMaxPins) :
    BitVec.ofNat 64 (4 * idx) ≠ aximuxRegMuxinfo := by
  intro h
  have hlt := idx.isLt
  unfold aximuxMaxPins at hlt
  have haddr := congrArg BitVec.toNat h
  rw [BitVec.toNat_ofNat, Nat.mod_eq_of_lt (by omega)] at haddr
  change 4 * idx.val = 0x80 at haddr
  omega

theorem setWidth_roundtrip (v : BitVec 32) : (v.setWidth 64).setWidth 32 = v := by
  rw [BitVec.setWidth_setWidth_of_le _ (by decide), BitVec.setWidth_eq]

theorem device_read_muxinfo : device.read s 0x80 = s.muxinfo := setWidth_roundtrip s.muxinfo

theorem device_write_muxinfo (v : BitVec 32) : device.write s 0x80 v = s := rfl

theorem device_read_srcsel {idx : Fin aximuxMaxPins} (h : idx.val < s.npins.toNat) :
    device.read s (4 * idx) = s.srcsel idx := by
  simp only [device, aximuxRead, ne_eq, not_true, if_false, srcsel_ne_muxinfo, srcselIndex_eq s h,
    setWidth_roundtrip]

theorem device_write_srcsel {idx : Fin aximuxMaxPins} (h : idx.val < s.npins.toNat)
    (v : BitVec 32) : device.write s (4 * idx) v = s.store idx v := by
  simp only [device, aximuxWrite, ne_eq, not_true, if_false, srcsel_ne_muxinfo, srcselIndex_eq s h,
    setWidth_roundtrip]

end Mapped

end AximuxSystem.Qemu
