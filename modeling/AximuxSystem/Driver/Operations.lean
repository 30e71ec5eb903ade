import AximuxSystem.Driver.Tables

/-!
# The pinctrl callbacks

Each callback is a program of register accesses. Array elements are fetched
with a bound check that ends in `fault`, so that an access outside a table is
visible in the model.
-/

namespace AximuxSystem.Driver

open Registers

/-- Driver code that accesses the registers. -/
abbrev RegProg (α : Type) := Prog ℕ 32 Stop α

/-- `xs[i]` -/
def fetch {α : Type} (xs : List α) (i : ℕ) : RegProg α :=
  match xs[i]? with
  | some x => .ret x
  | none => .stop .fault

def aximuxRead (pin : ℕ) : RegProg (BitVec 32) :=
  .read (aximuxReg pin) .ret

def aximuxWrite (pin : ℕ) (val : BitVec 32) : RegProg Unit :=
  .write (aximuxReg pin) val (.ret ())

def aximuxSetSrc (pin src : ℕ) : RegProg Unit := do
  let val ← aximuxRead pin
  let val := (val &&& ~~~aximuxSrcMask) ||| (BitVec.ofNat 32 src &&& aximuxSrcMask)
  aximuxWrite pin val

variable (amx : Aximux)

def aximuxGetGroupsCount : ℕ := amx.ngroups

def aximuxGetGroupName (selector : ℕ) : RegProg String := do
  let grp ← fetch amx.groups selector
  .ret grp.name

def aximuxGetGroupPins (selector : ℕ) : RegProg (List ℕ × ℕ) := do
  let grp ← fetch amx.groups selector
  .ret (grp.pins, grp.npins)

def aximuxGetFunctionsCount : ℕ := amx.nfunctions

def aximuxGetFunctionName (selector : ℕ) : RegProg String := do
  let func ← fetch amx.functions selector
  .ret func.name

def aximuxGetFunctionGroups (selector : ℕ) : RegProg (List String × ℕ) := do
  let func ← fetch amx.functions selector
  .ret (func.groups, func.ngroups)

/-- One iteration of the pin loop of `aximux_set_mux`. -/
def aximuxSetMuxPin (func : AximuxFunction) (grp : AximuxGroup) (g i : ℕ) : RegProg Unit := do
  let pin ← fetch grp.pins i
  let row ← fetch func.muxVals g
  let src ← fetch row i
  if pin ≥ aximuxMaxPins ∨ src > amx.nalts then
    .stop (.errno .EINVAL)
  else
    aximuxSetSrc pin src

def aximuxSetMux (funcSelector groupSelector : ℕ) : RegProg Unit := do
  let func ← fetch amx.functions funcSelector
  let grp ← fetch amx.groups groupSelector
  let g := func.groups.findIdx (· == grp.name)
  if g = func.ngroups then
    .stop (.errno .EINVAL)
  else do
    let n ← fetch func.muxNpins g
    if n ≠ grp.npins then
      .stop (.errno .EINVAL)
    else
      (List.range grp.npins).forM (aximuxSetMuxPin amx func grp g)

/-- Bits 7..0 of a packed configuration word. -/
def pinconfToConfigParam (config : BitVec 32) : BitVec 32 := config &&& 0xff

/-- The 24-bit argument in bits 31..8 of a packed configuration word. -/
def pinconfToConfigArgument (config : BitVec 32) : BitVec 32 := (config >>> 8) &&& 0xffffff

def pinconfToConfigPacked (param arg : BitVec 32) : BitVec 32 := (arg <<< 8) ||| (param &&& 0xff)

def aximuxPinconfGet (pin : ℕ) (config : BitVec 32) : RegProg (BitVec 32) := do
  let param := pinconfToConfigParam config
  let val ← aximuxRead pin
  let arg : BitVec 16 ←
    if param = aximuxCfgShort then
      .ret (if val &&& aximuxShortBit ≠ 0 then 1 else 0)
    else if param = aximuxCfgDirSw then
      .ret (if val &&& aximuxDirenBit ≠ 0 then 1 else 0)
    else if param = aximuxCfgDirOut then
      .ret (if val &&& aximuxDirctlBit ≠ 0 then 1 else 0)
    else
      .stop (.errno .ENOTSUPP)
  .ret (pinconfToConfigPacked param (arg.setWidth 32))

/-- One iteration of the configuration loop of `aximux_pinconf_set`. The argument goes through a
16-bit variable before it is tested. -/
def aximuxPinconfSetOne (pin : ℕ) (config : BitVec 32) : RegProg Unit := do
  let param := pinconfToConfigParam config
  let arg : BitVec 16 := (pinconfToConfigArgument config).setWidth 16
  let val ← aximuxRead pin
  let val ←
    if param = aximuxCfgShort then
      .ret (if arg ≠ 0 then val ||| aximuxShortBit else val &&& ~~~aximuxShortBit)
    else if param = aximuxCfgDirSw then
      .ret (if arg ≠ 0 then val ||| aximuxDirenBit else val &&& ~~~aximuxDirenBit)
    else if param = aximuxCfgDirOut then
      .ret (if arg ≠ 0 then val ||| aximuxDirctlBit else val &&& ~~~aximuxDirctlBit)
    else
      .stop (.errno .ENOTSUPP)
  aximuxWrite pin val

def aximuxPinconfSet (pin : ℕ) (configs : List (BitVec 32)) : RegProg Unit :=
  configs.forM (aximuxPinconfSetOne pin)

def aximuxPinconfGroupGet (group : ℕ) (config : BitVec 32) : RegProg (BitVec 32) := do
  let (pins, npins) ← aximuxGetGroupPins amx group
  if npins = 0 then
    .stop (.errno .EINVAL)
  else do
    let pin ← fetch pins 0
    aximuxPinconfGet pin config

def aximuxPinconfGroupSet (group : ℕ) (configs : List (BitVec 32)) : RegProg Unit := do
  let (pins, npins) ← aximuxGetGroupPins amx group
  (List.range npins).forM fun i => do
    let pin ← fetch pins i
    aximuxPinconfSet pin configs

/-- `%02x` of one byte. -/
def hexByte (v : ℕ) : String :=
  String.ofList [Nat.digitChar (v / 16 % 16), Nat.digitChar (v % 16)]

def pageSize : ℕ := 4096

/-- What a buffer of `size` bytes keeps of a formatted text, the terminator not counted. -/
def scnprintf (size : ℕ) (text : String) : String :=
  String.ofList (text.toList.take (size - 1))

/-- One iteration of `srcsel_show`, appending to the output so far. -/
def srcselShowPin (buf : String) (i : ℕ) : RegProg String := do
  let pin ← fetch amx.pins i
  let val ← aximuxRead pin.number
  .ret (buf ++ scnprintf (pageSize - buf.length)
    (pin.name ++ ":0x" ++ hexByte (val &&& 0xff).toNat ++ "\n"))

def srcselShow : RegProg String :=
  (List.range amx.npins).foldlM (srcselShowPin amx) ""

def aximuxPinDbgShow (offset : ℕ) : RegProg String := do
  let val ← aximuxRead offset
  let flag (bit : BitVec 32) : String := if val &&& bit ≠ 0 then "1" else "0"
  .ret ("src=" ++ toString (val &&& aximuxSrcMask).toNat ++ " short=" ++ flag aximuxShortBit ++
    " diren=" ++ flag aximuxDirenBit ++ " dirctl=" ++ flag aximuxDirctlBit)

end AximuxSystem.Driver
