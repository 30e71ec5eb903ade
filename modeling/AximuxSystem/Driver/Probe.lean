import AximuxSystem.Driver.DeviceTree
import AximuxSystem.Foundation.Fallible

/-!
# Building the tables at probe

The table code of `driver/aximux.c`: `aximux_parse_pins`,
`aximux_build_default_groups`, `aximux_parse_extra_groups` and
`aximux_add_function`. Besides the driver structure the state holds what the
code does to its surroundings: the allocation requests it makes, the references
it holds on child nodes, and what it logs.
-/

namespace AximuxSystem.Driver

open Fallible

structure Kernel where
  amx : Aximux
  /-- Whether the `k`-th allocation request is served. -/
  served : ℕ → Bool
  /-- Allocation requests made so far. -/
  allocs : ℕ
  /-- References taken minus references dropped on each child of the controller node. -/
  refs : ℕ → ℤ
  log : List String

/-- Driver code that runs at probe. -/
abbrev Probe (α : Type) := Comp Kernel Stop α

/-- `count` allocation requests in a row; true if all of them are served. -/
def kalloc (count : ℕ) : Probe Bool := fun k =>
  (.ok ((List.range' k.allocs count).all k.served), { k with allocs := k.allocs + count })

def devErr (text : String) : Probe Unit :=
  Comp.modify fun k => { k with log := k.log ++ [text] }

def ofNodeGet (i : ℕ) : Probe Unit :=
  Comp.modify fun k => { k with refs := Function.update k.refs i (k.refs i + 1) }

def ofNodePut (i : ℕ) : Probe Unit :=
  Comp.modify fun k => { k with refs := Function.update k.refs i (k.refs i - 1) }

def getAmx : Probe Aximux := Kernel.amx <$> Comp.get

def updateAmx (f : Aximux → Aximux) : Probe Unit :=
  Comp.modify fun k => { k with amx := f k.amx }

/-- Fail with `-ENOMEM` unless `count` requests are served. -/
def needAlloc (count : ℕ) : Probe Unit := do
  let ok ← kalloc count
  if ok then pure () else Comp.throw (.errno .ENOMEM)

/-- `for_each_available_child_of_node`: a reference is held on the child while the body runs and
stays held if the body leaves the loop early. `s` is the loop's local variable. -/
def forEachAvailableChild {β : Type} (body : ℕ → OfNode → β → Probe β) :
    ℕ → List OfNode → β → Probe β
  | _, [], s => pure s
  | i, child :: rest, s =>
    if child.available then do
      ofNodeGet i
      let s ← body i child s
      ofNodePut i
      forEachAvailableChild body (i + 1) rest s
    else
      forEachAvailableChild body (i + 1) rest s

theorem forEachAvailableChild_append {β : Type} (body : ℕ → OfNode → β → Probe β) (i : ℕ)
    (before after : List OfNode) (s : β) :
    forEachAvailableChild body i (before ++ after) s =
      forEachAvailableChild body i before s >>= fun s =>
        forEachAvailableChild body (i + before.length) after s := by
  induction before generalizing i s with
  | nil => rfl
  | cons child before ih =>
    rw [List.cons_append, forEachAvailableChild, forEachAvailableChild, List.length_cons,
      show i + (before.length + 1) = i + 1 + before.length by omega]
    split_ifs
    · simp only [bind_assoc, ih]
    · exact ih (i + 1) s

/-- `xs[i] = f(xs[i])` on an array of the driver structure. -/
def storeAt {α : Type} (get : Aximux → List α) (set : Aximux → List α → Aximux)
    (i : ℕ) (f : α → α) : Probe Unit := do
  let amx ← getAmx
  if i < (get amx).length then
    updateAmx fun amx => set amx ((get amx).modify i f)
  else
    Comp.throw .fault

def storePin (i : ℕ) (f : AximuxPin → AximuxPin) : Probe Unit :=
  storeAt Aximux.pins (fun amx pins => { amx with pins := pins }) i f

def storePindesc (i : ℕ) (desc : PinDesc) : Probe Unit :=
  storeAt Aximux.pindescs (fun amx descs => { amx with pindescs := descs }) i fun _ => desc

def storeGroup (i : ℕ) (grp : AximuxGroup) : Probe Unit :=
  storeAt Aximux.groups (fun amx groups => { amx with groups := groups }) i fun _ => grp

/-- `xs[i]` at probe. -/
def load {α : Type} (xs : List α) (i : ℕ) : Probe α :=
  match xs[i]? with
  | some x => pure x
  | none => Comp.throw .fault

/-- `kasprintf("pin%u", n)` -/
def pinName (n : ℕ) : String := "pin" ++ toString n

/-- First pass over the children: count those that describe a pin. -/
def countPin (_ : ℕ) (child : OfNode) (_ : Unit) : Probe Unit :=
  if child.findProperty "brunosmmm,pins" then
    pure ()
  else
    match child.readU32 "reg" with
    | .error _ => pure ()
    | .ok _ => updateAmx fun amx => { amx with npins := amx.npins + 1 }

/-- The property that lists the functions of a pin. -/
def namesProp (child : OfNode) : Option String :=
  if child.findProperty "function-names" then some "function-names"
  else if child.findProperty "alternate-names" then some "alternate-names"
  else none

/-- Read the list of function names of a pin into entry `idx`. -/
def readNames (child : OfNode) (idx : ℕ) : Probe Unit :=
  match namesProp child with
  | none => pure ()
  | some prop =>
    match child.countStrings prop with
    | .error e => Comp.throw (.errno e)
    | .ok n => do
      needAlloc 1
      match child.readStringArray prop n with
      | .error _ => Comp.throw (.errno .EINVAL)
      | .ok names => storePin idx fun pin => { pin with funcNames := names.toList, nfuncs := n }

/-- Second pass over the children: fill entry `idx` and advance. -/
def fillPin (hwPins : ℕ) (_ : ℕ) (child : OfNode) (idx : ℕ) : Probe ℕ :=
  if child.findProperty "brunosmmm,pins" then
    pure idx
  else
    match child.readU32 "reg" with
    | .error _ => pure idx
    | .ok reg =>
      if reg ≥ hwPins then
        Comp.throw (.errno .EINVAL)
      else do
        storePin idx fun pin => { pin with number := reg }
        needAlloc 1
        storePin idx fun pin => { pin with name := pinName reg }
        readNames child idx
        storePindesc idx ⟨reg, pinName reg⟩
        pure (idx + 1)

/-- Allocate the zeroed pin arrays for `npins` pins. -/
def allocPins (npins : ℕ) : Probe Unit := do
  needAlloc 2
  updateAmx fun amx =>
    { amx with pins := List.replicate npins ⟨0, "", 0, []⟩
               pindescs := List.replicate npins ⟨0, ""⟩ }

/-- One iteration of the loop that names the pins of a node without pin children. -/
def defaultPin (idx : ℕ) : Probe Unit := do
  needAlloc 1
  storePin idx fun pin => { pin with number := idx, name := pinName idx }
  storePindesc idx ⟨idx, pinName idx⟩

def infoPins (info : BitVec 32) : ℕ := (info &&& 0xff).toNat

def infoAlts (info : BitVec 32) : ℕ := ((info >>> 8) &&& 0xff).toNat

/-- `info` is the word read from MUXINFO. The last index of the second pass is returned. -/
def aximuxParsePins (info : BitVec 32) (np : List OfNode) : Probe ℕ := do
  let hwPins := infoPins info
  let hwAlts := infoAlts info
  if hwPins = 0 ∨ hwPins > aximuxMaxPins then do
    devErr ("invalid MUXINFO pins=" ++ toString hwPins ++ "\n")
    Comp.throw (.errno .EINVAL)
  else do
    updateAmx fun amx =>
      { amx with nalts := if hwAlts = 0 ∨ hwAlts > aximuxMaxAlts then aximuxMaxAlts else hwAlts }
    forEachAvailableChild countPin 0 np ()
    let amx ← getAmx
    if amx.npins = 0 then do
      updateAmx fun amx => { amx with npins := hwPins }
      allocPins hwPins
      (List.range hwPins).forM defaultPin
      pure hwPins
    else if amx.npins > hwPins then do
      devErr ("DT pin count " ++ toString amx.npins ++ " > MUXINFO " ++ toString hwPins ++ "\n")
      Comp.throw (.errno .EINVAL)
    else do
      allocPins amx.npins
      forEachAvailableChild (fillPin hwPins) 0 np 0

/-- A copy of the first `n` elements of a caller's array. -/
def kmemdup (xs : List ℕ) (n : ℕ) : Probe (List ℕ) := do
  needAlloc 1
  if n ≤ xs.length then pure (xs.take n) else Comp.throw .fault

/-- Append one element to each of the three arrays of a function. -/
def AximuxFunction.push (fn : AximuxFunction) (group : String) (vals : List ℕ) (npins : ℕ) :
    AximuxFunction :=
  { fn with groups := fn.groups ++ [group], muxVals := fn.muxVals ++ [vals],
            muxNpins := fn.muxNpins ++ [npins] }

def aximuxAddFunction (name group : String) (npins : ℕ) (muxVals : List ℕ) : Probe Unit := do
  let vals ← kmemdup muxVals npins
  let amx ← getAmx
  let f := amx.functions.findIdx (·.name == name)
  if f = amx.nfunctions then do
    needAlloc 1
    updateAmx fun amx => { amx with functions := amx.functions ++ [⟨name, [], [], []⟩] }
  else
    pure ()
  needAlloc 3
  updateAmx fun amx =>
    { amx with functions := amx.functions.modify f fun fn => fn.push group vals npins }

/-- One iteration of the pin loop of `aximux_build_default_groups`. -/
def defaultGroup (i : ℕ) : Probe Unit := do
  needAlloc 1
  let amx ← getAmx
  let pin ← load amx.pins i
  storeGroup i ⟨pin.name, [pin.number], 1⟩
  (List.range pin.nfuncs).forM fun f => do
    let func ← load pin.funcNames f
    aximuxAddFunction func pin.name 1 [f]

def aximuxBuildDefaultGroups : Probe Unit := do
  needAlloc 1
  let amx ← getAmx
  updateAmx fun amx => { amx with groups := List.replicate amx.npins ⟨"", [], 0⟩ }
  (List.range amx.npins).forM defaultGroup

def aximuxFindPinByName (amx : Aximux) (name : String) : Except Errno ℕ :=
  match amx.pins.find? (·.name == name) with
  | some pin => .ok pin.number
  | none => .error .EINVAL

/-- Resolve one entry of `brunosmmm,pins`; on failure the reference on the child is dropped. -/
def resolvePin (amx : Aximux) (i : ℕ) (child : OfNode) (j : ℕ) : Probe ℕ :=
  match child.readStringIndex "brunosmmm,pins" j with
  | .error e => do
    ofNodePut i
    Comp.throw (.errno e)
  | .ok pname =>
    match aximuxFindPinByName amx pname with
    | .error _ => do
      devErr ("unknown pin '" ++ pname ++ "' in " ++ child.name ++ "\n")
      ofNodePut i
      Comp.throw (.errno .EINVAL)
    | .ok pin => pure pin

/-- The source values of an extra group: all zero unless `n` values can be read. -/
def groupMux (child : OfNode) (n : ℕ) : List ℕ :=
  match child.readU32Array "brunosmmm,mux" n with
  | .ok mux => mux.toList
  | .error _ => List.replicate n 0

def groupFunction (child : OfNode) : String :=
  match child.readString "brunosmmm,function" with
  | .ok fname => fname
  | .error _ => child.name

/-- Body of the loop of `aximux_parse_extra_groups`. -/
def extraGroup (i : ℕ) (child : OfNode) (_ : Unit) : Probe Unit :=
  match child.countStrings "brunosmmm,pins" with
  | .error _ => pure ()
  | .ok 0 => pure ()
  | .ok (n + 1) => do
    needAlloc 2
    let amx ← getAmx
    let pins ← (List.range (n + 1)).mapM (resolvePin amx i child)
    let mux := groupMux child (n + 1)
    let fname := groupFunction child
    let ok ← kalloc 1
    if ok then do
      updateAmx fun amx => { amx with groups := amx.groups ++ [⟨child.name, pins, n + 1⟩] }
      aximuxAddFunction fname child.name (n + 1) mux
    else do
      ofNodePut i
      Comp.throw (.errno .ENOMEM)

def aximuxParseExtraGroups (np : List OfNode) : Probe Unit :=
  forEachAvailableChild extraGroup 0 np ()

/-- `devm_kzalloc` of the driver structure. -/
def Aximux.zeroed : Aximux := ⟨0, 0, [], [], [], []⟩

/-- The part of `aximux_probe` that builds the tables: the three passes run one after the other
and the first error is returned. -/
def aximuxProbeTables (info : BitVec 32) (np : List OfNode) : Probe Unit := do
  let _ ← aximuxParsePins info np
  aximuxBuildDefaultGroups
  aximuxParseExtraGroups np

/-- The state in which `aximux_probe` calls the table code. -/
def Kernel.initial (served : ℕ → Bool) : Kernel :=
  ⟨Aximux.zeroed, served, 1, fun _ => 0, []⟩

end AximuxSystem.Driver
