import AximuxSystem.Foundation.Grouping
import AximuxSystem.Qemu.Device

/-!
# The emulated device under guest traffic

Accesses of any address, value and size, in any order. A SRCSEL word is decided
by the last word written to exactly its address; every other access leaves the
device as it is.
-/

namespace AximuxSystem.Qemu

/-- One call of `aximux_read` or `aximux_write`. -/
inductive Access where
  | read (addr : BitVec 64) (size : ℕ)
  | write (addr val : BitVec 64) (size : ℕ)
  deriving DecidableEq, Repr

namespace Access

def addr : Access → BitVec 64
  | read addr _ => addr
  | write addr _ _ => addr

def size : Access → ℕ
  | read _ size => size
  | write _ _ size => size

/-- The device after the access. -/
def after (s : AximuxState) : Access → AximuxState
  | read _ _ => s
  | write addr val size => aximuxWrite s addr val size

end Access

def afterAll (s : AximuxState) (ops : List Access) : AximuxState := ops.foldl Access.after s

/-- The 4-byte writes among the accesses, whatever their addresses. -/
def wordWrites (ops : List Access) : List (BitVec 64 × BitVec 64) :=
  ops.filterMap fun
    | .write addr val size => if size = 4 then some (addr, val) else none
    | .read _ _ => none

/-- What the last 4-byte write to exactly this address leaves there. -/
def lastWord (ops : List Access) (addr : BitVec 64) : Option (BitVec 32) :=
  (Grouping.lastOf addr (wordWrites ops)).map (·.setWidth 32)

/-! ### Decoding -/

section Decoding

variable {s : AximuxState} {addr val : BitVec 64} {size : ℕ} {idx : Fin aximuxMaxPins}

theorem and_three_eq_zero (addr : BitVec 64) : addr &&& 3 = 0 ↔ addr.toNat % 4 = 0 := by
  have hand : (addr &&& 3).toNat = addr.toNat % 4 := by
    rw [BitVec.toNat_and]
    exact Nat.and_two_pow_sub_one_eq_mod addr.toNat 2
  rw [← hand]
  exact ⟨fun h => by rw [h]; rfl, fun h => BitVec.eq_of_toNat_eq h⟩

/-- The index the device computes from a mapped address. -/
theorem index_toNat (h : addr < aximuxRegMuxinfo) :
    ((addr >>> 2).setWidth 32 : BitVec 32).toNat = addr.toNat / 4 := by
  have hlt : addr.toNat < 0x80 := h
  rw [BitVec.toNat_setWidth, BitVec.toNat_ushiftRight, Nat.shiftRight_eq_div_pow]
  omega

/-- The device maps the multiples of four below four times the number of pins. -/
theorem srcselIndex_eq_some : srcselIndex s addr = some idx ↔
    idx.val < s.npins.toNat ∧ addr = BitVec.ofNat 64 (4 * idx) := by
  constructor
  · intro h
    unfold srcselIndex at h
    split_ifs at h with hmap
    obtain ⟨hbelow, haligned⟩ := hmap
    have hmod := (and_three_eq_zero addr).mp haligned
    simp only at h
    split_ifs at h with hpins
    have hidx : idx.val = addr.toNat / 4 := by
      rw [← Option.some.inj h]
      exact index_toNat hbelow
    have hlt : addr.toNat / 4 < s.npins.toNat := by
      rw [← index_toNat hbelow]
      exact hpins
    refine ⟨hidx ▸ hlt, BitVec.eq_of_toNat_eq ?_⟩
    rw [BitVec.toNat_ofNat, hidx, Nat.mod_eq_of_lt (by omega)]
    omega
  · rintro ⟨hlt, rfl⟩
    exact srcselIndex_eq s hlt

theorem srcselIndex_muxinfo : srcselIndex s aximuxRegMuxinfo = none := by
  rw [srcselIndex, if_neg]
  exact fun h => absurd h.1 (by decide)

theorem aximuxRead_eq : aximuxRead s addr size =
    if size = 4 then
      if addr = aximuxRegMuxinfo then s.muxinfo.setWidth 64
      else ((srcselIndex s addr).map fun idx => (s.srcsel idx).setWidth 64).getD 0
    else 0 := by
  unfold aximuxRead
  by_cases hsize : size = 4
  · simp only [hsize, ne_eq, not_true_eq_false, if_false, if_true]
    split_ifs
    · rfl
    · cases srcselIndex s addr <;> rfl
  · simp only [hsize, ne_eq, not_false_eq_true, if_true, if_false]

theorem aximuxWrite_eq : aximuxWrite s addr val size =
    if size = 4 then ((srcselIndex s addr).map fun idx => s.store idx (val.setWidth 32)).getD s
    else s := by
  unfold aximuxWrite
  by_cases hsize : size = 4
  · simp only [hsize, ne_eq, not_true_eq_false, if_false, if_true]
    split_ifs with hinfo
    · rw [hinfo, srcselIndex_muxinfo]
      rfl
    · cases srcselIndex s addr <;> rfl
  · simp only [hsize, ne_eq, not_false_eq_true, if_true, if_false]

end Decoding

/-! ### Runs -/

theorem toNat_srcselAddress (idx : Fin aximuxMaxPins) :
    (BitVec.ofNat 64 (4 * idx)).toNat = 4 * idx := by
  have hlt := idx.isLt
  unfold aximuxMaxPins at hlt
  rw [BitVec.toNat_ofNat, Nat.mod_eq_of_lt (by omega)]

theorem srcselAddress_inj {i j : Fin aximuxMaxPins}
    (h : BitVec.ofNat 64 (4 * i) = BitVec.ofNat 64 (4 * j)) : i = j := by
  have hval := congrArg BitVec.toNat h
  rw [toNat_srcselAddress, toNat_srcselAddress] at hval
  exact Fin.ext (by omega)

theorem lastWord_append (ops ops' : List Access) (addr : BitVec 64) :
    lastWord (ops ++ ops') addr = (lastWord ops' addr).or (lastWord ops addr) := by
  rw [lastWord, wordWrites, List.filterMap_append, Grouping.lastOf_append, Option.map_or]
  rfl

theorem lastWord_write (addr val a : BitVec 64) (size : ℕ) :
    lastWord [.write addr val size] a =
      if size = 4 ∧ addr = a then some (val.setWidth 32) else none := by
  by_cases hsize : size = 4
  · simp only [lastWord, wordWrites, List.filterMap_cons, hsize, if_true, List.filterMap_nil,
      Grouping.lastOf_singleton, true_and]
    split_ifs <;> rfl
  · simp [lastWord, wordWrites, hsize]

/-- What one access does to a word. -/
theorem after_srcsel (s : AximuxState) (op : Access) (idx : Fin aximuxMaxPins) :
    (op.after s).srcsel idx =
      if idx.val < s.npins.toNat then
        (lastWord [op] (BitVec.ofNat 64 (4 * idx))).getD (s.srcsel idx)
      else s.srcsel idx := by
  cases op with
  | read addr size => exact (ite_self _).symm
  | write addr val size =>
    rw [Access.after, aximuxWrite_eq, lastWord_write]
    by_cases hsize : size = 4
    · rw [if_pos hsize]
      cases hindex : srcselIndex s addr with
      | none =>
        have hne : idx.val < s.npins.toNat → ¬ (size = 4 ∧ addr = BitVec.ofNat 64 (4 * idx)) := by
          intro hlt h
          rw [srcselIndex_eq_some.mpr ⟨hlt, h.2⟩] at hindex
          cases hindex
        split_ifs with hlt h
        · exact absurd h (hne hlt)
        · rfl
        · rfl
      | some i =>
        obtain ⟨hi, haddr⟩ := srcselIndex_eq_some.mp hindex
        rw [Option.map_some, Option.getD_some, AximuxState.store_srcsel]
        by_cases heq : idx = i
        · subst i
          rw [if_pos rfl, if_pos hi, if_pos ⟨hsize, haddr⟩, Option.getD_some]
        · have hne : ¬ (size = 4 ∧ addr = BitVec.ofNat 64 (4 * idx)) := fun h =>
            heq (srcselAddress_inj (h.2.symm.trans haddr))
          rw [if_neg heq, if_neg hne, Option.getD_none, ite_self]
    · rw [if_neg hsize]
      split_ifs with hlt h
      · exact absurd h.1 hsize
      · rfl
      · rfl

theorem after_npins (s : AximuxState) (op : Access) : (op.after s).npins = s.npins := by
  cases op with
  | read addr size => rfl
  | write addr val size =>
    rw [Access.after, aximuxWrite_eq]
    split_ifs
    · cases srcselIndex s addr <;> rfl
    · rfl

theorem after_muxinfo (s : AximuxState) (op : Access) : (op.after s).muxinfo = s.muxinfo := by
  cases op with
  | read addr size => rfl
  | write addr val size =>
    rw [Access.after, aximuxWrite_eq]
    split_ifs
    · cases srcselIndex s addr <;> rfl
    · rfl

/-- What a run leaves of the device: its size, MUXINFO, and the last word at each address. -/
structure Left (s : AximuxState) (ops : List Access) (s' : AximuxState) : Prop where
  npins : s'.npins = s.npins
  muxinfo : s'.muxinfo = s.muxinfo
  srcsel : ∀ idx, s'.srcsel idx =
    if idx.val < s.npins.toNat then
      (lastWord ops (BitVec.ofNat 64 (4 * idx))).getD (s.srcsel idx)
    else s.srcsel idx

theorem Left.step {s s' : AximuxState} {ops : List Access} (h : Left s ops s') (op : Access) :
    Left s (ops ++ [op]) (op.after s') where
  npins := (after_npins s' op).trans h.npins
  muxinfo := (after_muxinfo s' op).trans h.muxinfo
  srcsel := by
    intro idx
    rw [after_srcsel, h.npins, h.srcsel, lastWord_append]
    split_ifs
    · cases lastWord [op] (BitVec.ofNat 64 (4 * idx)) <;> rfl
    · rfl

theorem left_afterAll (s : AximuxState) (ops : List Access) : Left s ops (afterAll s ops) := by
  induction ops using List.reverseRecOn with
  | nil => exact ⟨rfl, rfl, fun idx => (ite_self _).symm⟩
  | append_singleton ops op ih =>
    rw [afterAll, List.foldl_concat]
    exact ih.step op

/-! ### From realization -/

theorem aximuxRealize_eq_ok {npins nalts : BitVec 32} {s : AximuxState}
    (h : aximuxRealize npins nalts = .ok s) : npins.toNat ≤ 32 ∧ nalts.toNat ≤ 15 ∧
      s.npins = npins ∧ s.muxinfo = nalts <<< 8 ||| npins ∧ ∀ idx, s.srcsel idx = 0 := by
  unfold aximuxRealize at h
  split_ifs at h with hpins halts
  cases h
  exact ⟨not_lt.mp fun hgt => hpins (.inr hgt), not_lt.mp fun hgt => halts (.inr hgt), rfl, rfl,
    fun _ => rfl⟩

theorem toNat_muxinfo {npins nalts : BitVec 32} (hpins : npins.toNat ≤ 32)
    (halts : nalts.toNat ≤ 15) :
    (nalts <<< 8 ||| npins).toNat = nalts.toNat * 256 + npins.toNat := by
  have hlt : npins.toNat < 2 ^ 8 := by omega
  rw [BitVec.toNat_or, BitVec.toNat_shiftLeft, Nat.shiftLeft_eq, Nat.mod_eq_of_lt (by omega),
    ← Nat.shiftLeft_eq, ← Nat.shiftLeft_add_eq_or_of_lt hlt, Nat.shiftLeft_eq]

/-- The access is none of a whole word of SRCSEL. -/
def Access.Unmapped (npins : BitVec 32) (op : Access) : Prop :=
  op.size ≠ 4 ∨ op.addr.toNat % 4 ≠ 0 ∨ 4 * npins.toNat ≤ op.addr.toNat ∨ op.addr = 0x80

/-- The state stores what was written since realization and nothing else. -/
structure StoresWrites (npins nalts : BitVec 32) (ops : List Access) (s : AximuxState) :
    Prop where
  read_srcsel : ∀ i < npins.toNat, aximuxRead s (BitVec.ofNat 64 (4 * i)) 4 =
    ((lastWord ops (BitVec.ofNat 64 (4 * i))).getD 0).setWidth 64
  read_muxinfo : aximuxRead s 0x80 4 = BitVec.ofNat 64 (nalts.toNat * 256 + npins.toNat)
  read_other : ∀ addr size,
    ¬ (size = 4 ∧ (addr = 0x80 ∨ ∃ i < npins.toNat, addr = BitVec.ofNat 64 (4 * i))) →
      aximuxRead s addr size = 0
  unchanged : ∀ op : Access, op.Unmapped npins → op.after s = s
  beyond : ∀ idx : Fin aximuxMaxPins, npins.toNat ≤ idx → s.srcsel idx = 0
  /-- Where the array is indexed, the index is one of it. -/
  index_lt : ∀ addr : BitVec 64, addr < aximuxRegMuxinfo → addr &&& 3 = 0 →
    ((addr >>> 2).setWidth 32 : BitVec 32) < s.npins →
      ((addr >>> 2).setWidth 32 : BitVec 32).toNat < aximuxMaxPins

theorem after_of_unmapped {s : AximuxState} {op : Access} (h : op.Unmapped s.npins) :
    op.after s = s := by
  cases op with
  | read addr size => rfl
  | write addr val size =>
    rw [Access.after, aximuxWrite_eq]
    split_ifs with hsize
    · cases hindex : srcselIndex s addr with
      | none => rfl
      | some idx =>
        obtain ⟨hlt, rfl⟩ := srcselIndex_eq_some.mp hindex
        have haddr := toNat_srcselAddress idx
        rcases h with h | h | h | h
        · exact absurd hsize h
        · exact absurd (by rw [Access.addr, haddr]; omega) h
        · rw [Access.addr, haddr] at h
          omega
        · exact absurd h (srcsel_ne_muxinfo idx)
    · rfl

/-- After any accesses the device holds what they wrote. -/
theorem storesWrites_afterAll {npins nalts : BitVec 32} {s : AximuxState}
    (h : aximuxRealize npins nalts = .ok s) (ops : List Access) :
    StoresWrites npins nalts ops (afterAll s ops) := by
  obtain ⟨hpins, halts, rfl, hinfo, hzero⟩ := aximuxRealize_eq_ok h
  have hleft := left_afterAll s ops
  constructor
  · intro i hi
    have hlt : i < aximuxMaxPins := lt_of_lt_of_le hi hpins
    have hindex : srcselIndex (afterAll s ops) (BitVec.ofNat 64 (4 * i)) = some ⟨i, hlt⟩ :=
      srcselIndex_eq_some.mpr ⟨by rw [hleft.npins]; exact hi, rfl⟩
    have hne : BitVec.ofNat 64 (4 * i) ≠ aximuxRegMuxinfo := srcsel_ne_muxinfo ⟨i, hlt⟩
    rw [aximuxRead_eq, if_pos rfl, if_neg hne, hindex, Option.map_some, Option.getD_some,
      hleft.srcsel, if_pos hi, hzero]
  · have hread : aximuxRead (afterAll s ops) 0x80 4 = (afterAll s ops).muxinfo.setWidth 64 := rfl
    rw [hread, hleft.muxinfo, hinfo]
    apply BitVec.eq_of_toNat_eq
    rw [BitVec.toNat_setWidth, toNat_muxinfo hpins halts, BitVec.toNat_ofNat]
  · intro addr size hnot
    rw [aximuxRead_eq]
    split_ifs with hsize haddr
    · exact absurd ⟨hsize, .inl haddr⟩ hnot
    · cases hindex : srcselIndex (afterAll s ops) addr with
      | none => rfl
      | some idx =>
        obtain ⟨hlt, haddr'⟩ := srcselIndex_eq_some.mp hindex
        rw [hleft.npins] at hlt
        exact absurd ⟨hsize, .inr ⟨idx, hlt, haddr'⟩⟩ hnot
    · rfl
  · intro op hop
    rw [← hleft.npins] at hop
    exact after_of_unmapped hop
  · intro idx hidx
    rw [hleft.srcsel, if_neg (not_lt.mpr hidx), hzero]
  · intro addr _ _ hlt
    exact lt_of_lt_of_le hlt (afterAll s ops).npins_le

/-- A word that is overwritten, and writes of another size, address or register. -/
def sampleTraffic : List Access :=
  [.write 8 0xffffffff00000001 4, .read 8 4, .write 8 0x2 2, .write 9 0x3 4, .write 0x80 0x4 4,
    .write 0x100000008 0x5 4, .write 8 0x6_00000061 4, .write 0x20 0x7 4]

theorem storesWrites_afterAll_sample : ∃ s, aximuxRealize 8 4 = .ok s ∧
    StoresWrites 8 4 sampleTraffic (afterAll s sampleTraffic) ∧
    aximuxRead (afterAll s sampleTraffic) 8 4 = 0x61 := by
  obtain ⟨s, hs, -⟩ := aximuxRealize_ok (show 1 ≤ 8 by decide) (show 8 ≤ 32 by decide)
    (show 1 ≤ 4 by decide) (show 4 ≤ 15 by decide)
  have hstores := storesWrites_afterAll hs sampleTraffic
  refine ⟨s, hs, hstores, ?_⟩
  have hread := hstores.read_srcsel 2 (by decide)
  have hlast : lastWord sampleTraffic (BitVec.ofNat 64 (4 * 2)) = some 0x61 := by decide
  rw [hlast] at hread
  exact hread

end AximuxSystem.Qemu
