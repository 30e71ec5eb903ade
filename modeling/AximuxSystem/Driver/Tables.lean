import AximuxSystem.Foundation.RegisterProgram

/-!
# Driver state of the AXIMUX pin controller

The records of `driver/aximux.c` with the members the table code and the
pinctrl callbacks use. An array and its element count that are always grown
together are one list; `npins` of the controller is kept apart from its arrays
because they are allocated from the count and filled by a second pass.
Unsigned integers are natural numbers, register words are 32-bit vectors.
-/

namespace AximuxSystem.Driver

/-- The error numbers the driver returns or passes on. -/
inductive Errno where
  | EINVAL | ENOMEM | ENODATA | EILSEQ | EOVERFLOW | ENOTSUPP
  deriving DecidableEq, Repr

/-- Why a driver function ends early: it returns an error, or it would index outside an array. -/
inductive Stop where
  | errno (e : Errno)
  | fault
  deriving DecidableEq, Repr

/-- Byte offset of register `n`; the shift is one of 32-bit unsigned integers. -/
def aximuxReg (n : ℕ) : ℕ := (n <<< 2) % 2 ^ 32

def aximuxRegMuxinfo : ℕ := 0x80

def aximuxSrcMask : BitVec 32 := 0xf
def aximuxShortBit : BitVec 32 := 0x20
def aximuxDirenBit : BitVec 32 := 0x40
def aximuxDirctlBit : BitVec 32 := 0x80

def aximuxMaxPins : ℕ := 32
def aximuxMaxAlts : ℕ := 15

/-- Last generic pin configuration parameter of the kernel. -/
def pinConfigEnd : BitVec 32 := 0x7f

def aximuxCfgShort : BitVec 32 := pinConfigEnd + 1
def aximuxCfgDirSw : BitVec 32 := pinConfigEnd + 2
def aximuxCfgDirOut : BitVec 32 := pinConfigEnd + 3

/-- `struct aximux_pin` -/
structure AximuxPin where
  number : ℕ
  name : String
  nfuncs : ℕ
  funcNames : List String
  deriving DecidableEq, Repr

/-- `struct pinctrl_pin_desc`, as far as the driver fills it. -/
structure PinDesc where
  number : ℕ
  name : String
  deriving DecidableEq, Repr

/-- `struct aximux_group` -/
structure AximuxGroup where
  name : String
  pins : List ℕ
  npins : ℕ
  deriving DecidableEq, Repr

/-- `struct aximux_function`: three arrays of `ngroups` elements each. -/
structure AximuxFunction where
  name : String
  groups : List String
  muxVals : List (List ℕ)
  muxNpins : List ℕ
  deriving DecidableEq, Repr

def AximuxFunction.ngroups (fn : AximuxFunction) : ℕ := fn.groups.length

/-- `struct aximux` -/
structure Aximux where
  npins : ℕ
  nalts : ℕ
  pins : List AximuxPin
  pindescs : List PinDesc
  groups : List AximuxGroup
  functions : List AximuxFunction
  deriving DecidableEq, Repr

def Aximux.ngroups (amx : Aximux) : ℕ := amx.groups.length
def Aximux.nfunctions (amx : Aximux) : ℕ := amx.functions.length

@[simp] theorem aximuxReg_eq {n : ℕ} (h : n < 2 ^ 30) : aximuxReg n = 4 * n := by
  rw [aximuxReg, Nat.shiftLeft_eq, Nat.mod_eq_of_lt (by omega), Nat.mul_comm]

theorem aximuxReg_inj {m n : ℕ} (hm : m < 2 ^ 30) (hn : n < 2 ^ 30)
    (h : aximuxReg m = aximuxReg n) : m = n := by
  rw [aximuxReg_eq hm, aximuxReg_eq hn] at h
  omega

end AximuxSystem.Driver
