import AximuxSystem.Foundation.RegisterProgram

/-!
# Register maps

A register map lists registers by address, and every register lists its fields.
The device of a map stores the bits of the writable fields; the other bits keep
their reset value whatever is written. A client that writes nothing but
writable bits cannot tell this device from plain storage.
-/

namespace Registers

/-- How the bus may access a field. -/
inductive FieldAccess where
  | RW | R
  deriving DecidableEq, Repr

/-- Bits `hi` down to `lo` of a register, with their value after reset. -/
structure Field (n : ℕ) where
  hi : ℕ
  lo : ℕ
  access : FieldAccess
  default : BitVec n
  deriving DecidableEq, Repr

structure Register (A : Type) (n : ℕ) where
  address : A
  fields : List (Field n)
  deriving DecidableEq, Repr

variable {A : Type} {n : ℕ}

namespace Field

def size (f : Field n) : ℕ := f.hi + 1 - f.lo

def mask (f : Field n) : BitVec n := (BitVec.allOnes f.size).setWidth n <<< f.lo

/-- The content of the field in a word of its register. -/
def value (f : Field n) (word : BitVec n) : BitVec f.size := word.extractLsb' f.lo f.size

/-- The default value, at the position of the field. -/
def reset (f : Field n) : BitVec n := (f.default <<< f.lo) &&& f.mask

theorem getLsbD_mask (f : Field n) (i : ℕ) :
    f.mask.getLsbD i = (decide (i < n) && decide (f.lo ≤ i ∧ i ≤ f.hi)) := by
  have hsize : decide (i - f.lo < f.size) = decide (i - f.lo < f.hi + 1 - f.lo) := rfl
  rw [mask, BitVec.getLsbD_shiftLeft, BitVec.getLsbD_setWidth, BitVec.getLsbD_allOnes, hsize]
  by_cases hn : i < n <;> by_cases hlo : f.lo ≤ i <;> by_cases hhi : i ≤ f.hi <;>
    simp [hn, hlo, hhi] <;> omega

theorem toNat_value_bit {f : Field n} (h : f.hi = f.lo) (word : BitVec n) :
    (f.value word).toNat = (word.getLsbD f.lo).toNat := by
  have hsize : f.size = 1 := by rw [size, h, Nat.add_sub_cancel_left]
  rw [value, BitVec.extractLsb'_toNat, hsize, BitVec.getLsbD, Nat.toNat_testBit,
    Nat.shiftRight_eq_div_pow, Nat.pow_one]

/-- A default value the field can hold is kept whole. -/
theorem reset_of_lt {f : Field n} (h : f.default.toNat < 2 ^ f.size) :
    f.reset = f.default <<< f.lo := by
  apply BitVec.eq_of_getLsbD_eq
  intro i hi
  rw [reset, BitVec.getLsbD_and, getLsbD_mask, BitVec.getLsbD_shiftLeft, decide_eq_true hi,
    Bool.true_and, Bool.true_and]
  by_cases hlo : i < f.lo
  · simp [hlo]
  by_cases hhi : i ≤ f.hi
  · simp [not_lt.mp hlo, hhi]
  · have hpow : 2 ^ f.size ≤ 2 ^ (i - f.lo) :=
      Nat.pow_le_pow_right (by decide) (by unfold size; omega)
    have hbit : f.default.getLsbD (i - f.lo) = false :=
      Nat.testBit_lt_two_pow (lt_of_lt_of_le h hpow)
    simp [hbit]

end Field

/-- The union of several words. -/
def orAll (words : List (BitVec n)) : BitVec n := words.foldr (· ||| ·) 0

theorem getLsbD_orAll (words : List (BitVec n)) (i : ℕ) :
    (orAll words).getLsbD i = words.any (·.getLsbD i) := by
  induction words with
  | nil => exact BitVec.getLsbD_zero
  | cons w words ih =>
    rw [List.any_cons, ← ih]
    exact BitVec.getLsbD_or

namespace Register

/-- The bits that belong to some field. -/
def declaredMask (reg : Register A n) : BitVec n := orAll (reg.fields.map Field.mask)

/-- The bits that belong to a writable field. -/
def rwMask (reg : Register A n) : BitVec n :=
  orAll ((reg.fields.filter (·.access = .RW)).map Field.mask)

def reset (reg : Register A n) : BitVec n := orAll (reg.fields.map Field.reset)

end Register

/-! ### The device of a map -/

section Map

variable [DecidableEq A]

def registerAt (map : List (Register A n)) (r : A) : Option (Register A n) :=
  map.find? (·.address = r)

theorem registerAt_of_mem {map : List (Register A n)} (h : (map.map Register.address).Nodup)
    {reg : Register A n} (hreg : reg ∈ map) : registerAt map reg.address = some reg := by
  induction map with
  | nil => cases hreg
  | cons first map ih =>
    rw [List.map_cons, List.nodup_cons] at h
    rw [registerAt, List.find?_cons]
    rcases List.mem_cons.mp hreg with rfl | hreg
    · rw [decide_eq_true rfl]
    · have hne : first.address ≠ reg.address := fun heq =>
        h.1 (heq ▸ List.mem_map_of_mem hreg)
      rw [decide_eq_false hne]
      exact ih h.2 hreg

/-- Writes change the writable bits of the addressed register; other addresses are not decoded. -/
def mapDevice (map : List (Register A n)) : Device (RegFile A n) A n where
  read s r := if (registerAt map r).isSome then s r else 0
  write s r v :=
    match registerAt map r with
    | some reg => FieldWrite.apply ⟨r, reg.rwMask, v⟩ s
    | none => s

def resetState (map : List (Register A n)) : RegFile A n := fun r =>
  match registerAt map r with
  | some reg => reg.reset
  | none => 0

variable {map : List (Register A n)} {r : A} {reg : Register A n}

theorem mapDevice_read (h : registerAt map r = some reg) (s : RegFile A n) :
    (mapDevice map).read s r = s r := by
  simp [mapDevice, h]

theorem mapDevice_write (h : registerAt map r = some reg) (s : RegFile A n) (v : BitVec n) :
    (mapDevice map).write s r v = FieldWrite.apply ⟨r, reg.rwMask, v⟩ s := by
  simp [mapDevice, h]

theorem resetState_eq (h : registerAt map r = some reg) : resetState map r = reg.reset := by
  simp [resetState, h]

end Map

/-! ### Clients that write writable bits only -/

/-- Every set bit of the word lies under the mask. -/
def Fits (mask v : BitVec n) : Prop := ∀ i, v.getLsbD i = true → mask.getLsbD i = true

theorem fits_zero (mask : BitVec n) : Fits mask 0 := by
  intro i hi
  rw [BitVec.ofNat_eq_ofNat, BitVec.getLsbD_zero] at hi
  cases hi

theorem fits_and (mask v : BitVec n) : Fits mask (v &&& mask) := by
  intro i hi
  rw [BitVec.getLsbD_and, Bool.and_eq_true] at hi
  exact hi.2

theorem fits_merge {mask old : BitVec n} (h : Fits mask old) {w : FieldWrite A n}
    (hw : ∀ i, w.mask.getLsbD i = true → w.val.getLsbD i = true → mask.getLsbD i = true) :
    Fits mask (w.merge old) := by
  intro i hi
  rw [FieldWrite.getLsbD_merge] at hi
  split_ifs at hi with hmask
  · exact hw i hmask hi
  · exact h i hi

/-- Writing all bits under the mask leaves exactly these bits of the new word. -/
theorem merge_eq_and {mask old : BitVec n} (h : Fits mask old) (r : A) (v : BitVec n) :
    (⟨r, mask, v⟩ : FieldWrite A n).merge old = v &&& mask := by
  apply BitVec.eq_of_getLsbD_eq
  intro i _
  rw [FieldWrite.getLsbD_merge, BitVec.getLsbD_and]
  cases hmask : mask.getLsbD i with
  | true => simp
  | false =>
    have hold : old.getLsbD i = false := by
      rw [← Bool.not_eq_true]
      intro hi
      rw [h i hi] at hmask
      cases hmask
    simpa using hold

theorem and_eq_of_fits {mask v : BitVec n} (h : Fits mask v) : v &&& mask = v := by
  apply BitVec.eq_of_getLsbD_eq
  intro i _
  rw [BitVec.getLsbD_and]
  cases hv : v.getLsbD i with
  | false => rfl
  | true => rw [h i hv, Bool.and_self]

/-- Plain storage and the device of a map agree where all words fit the writable bits. -/
theorem mapDevice_agree [DecidableEq A] {map : List (Register A n)} {S : A → Prop}
    {mask : A → BitVec n}
    (h : ∀ r, S r → ∃ reg, registerAt map r = some reg ∧ reg.rwMask = mask r) :
    RegFile.device.Agree (mapDevice map) S (fun r => Fits (mask r))
      fun s t => ∀ r, S r → s r = t r ∧ Fits (mask r) (s r) where
  read_eq s t r hR hr := by
    obtain ⟨reg, hreg, -⟩ := h r hr
    rw [mapDevice_read hreg]
    exact (hR r hr).1
  read_ok s t r hR hr := (hR r hr).2
  write s t r v hR hr hv := by
    obtain ⟨reg, hreg, hmask⟩ := h r hr
    intro r' hr'
    rw [mapDevice_write hreg, hmask]
    by_cases heq : r' = r
    · subst r'
      have hold : Fits (mask r) (t r) := (hR r hr).1 ▸ (hR r hr).2
      simp only [RegFile.device, FieldWrite.apply, Function.update_self]
      exact ⟨by rw [merge_eq_and hold, and_eq_of_fits hv], hv⟩
    · simp only [RegFile.device, FieldWrite.apply, Function.update_of_ne heq]
      exact hR r' hr'

end Registers
