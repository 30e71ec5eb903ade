import AximuxSystem.Foundation.StateStream
import AximuxSystem.Qemu.Traffic

/-!
# Migration of the emulated device

The device is saved and loaded by the fields of `vmstate_aximux`. A migration
may load anything, so the words of the state are taken here without what
realization makes sure of, and an access outside of the array is a fault.
-/

namespace AximuxSystem.Qemu

open StateStream

/-- The fields of `struct AximuxState` as memory holds them. -/
structure Memory where
  srcsel : Fin aximuxMaxPins → BitVec 32
  muxinfo : BitVec 32
  npins : BitVec 32
  nalts : BitVec 32

/-- The array is indexed outside of its bounds. -/
inductive Fault where
  | outOfBounds
  deriving DecidableEq, Repr

namespace Memory

/-- `s->srcsel[idx]` -/
def word (m : Memory) (idx : BitVec 32) : Except Fault (BitVec 32) :=
  if h : idx.toNat < aximuxMaxPins then .ok (m.srcsel ⟨idx.toNat, h⟩) else .error .outOfBounds

/-- `s->srcsel[idx] = v` -/
def setWord (m : Memory) (idx v : BitVec 32) : Except Fault Memory :=
  if h : idx.toNat < aximuxMaxPins then
    .ok { m with srcsel := Function.update m.srcsel ⟨idx.toNat, h⟩ v }
  else .error .outOfBounds

/-- `aximux_read` -/
def read (m : Memory) (addr : BitVec 64) (size : ℕ) : Except Fault (BitVec 64) :=
  if size ≠ 4 then .ok 0
  else if addr = aximuxRegMuxinfo then .ok (m.muxinfo.setWidth 64)
  else if addr < aximuxRegMuxinfo ∧ addr &&& 3 = 0 then
    let idx : BitVec 32 := (addr >>> 2).setWidth 32
    if idx < m.npins then (m.word idx).map (·.setWidth 64) else .ok 0
  else .ok 0

/-- `aximux_write` -/
def write (m : Memory) (addr val : BitVec 64) (size : ℕ) : Except Fault Memory :=
  if size ≠ 4 then .ok m
  else if addr = aximuxRegMuxinfo then .ok m
  else if addr < aximuxRegMuxinfo ∧ addr &&& 3 = 0 then
    let idx : BitVec 32 := (addr >>> 2).setWidth 32
    if idx < m.npins then m.setWord idx (val.setWidth 32) else .ok m
  else .ok m

end Memory

/-- One of the `VMSTATE_UINT32` fields. -/
def uint32Field (name : String) (get : Memory → BitVec 32) (set : BitVec 32 → Memory → Memory) :
    StateField Memory where
  name := name
  num := 1
  get m := fun _ => get m
  set ws := set (ws 0)

def vmstateAximux : Description Memory where
  name := "aximux"
  versionId := 1
  minimumVersionId := 1
  fields :=
    [⟨"srcsel", aximuxMaxPins, Memory.srcsel, fun ws m => { m with srcsel := ws }⟩,
      uint32Field "muxinfo" Memory.muxinfo fun w m => { m with muxinfo := w },
      uint32Field "npins" Memory.npins fun w m => { m with npins := w },
      uint32Field "nalts" Memory.nalts fun w m => { m with nalts := w }]

section Memory

variable {addr val : BitVec 64} {size : ℕ}

/-- What an index computed from a mapped address finds in the array. -/
theorem index_lt (h : addr < aximuxRegMuxinfo) :
    ((addr >>> 2).setWidth 32 : BitVec 32).toNat < aximuxMaxPins := by
  have hlt : addr.toNat < 0x80 := h
  rw [index_toNat h]
  unfold aximuxMaxPins
  omega

/-- Whatever the fields hold, a read stays within the array. -/
theorem Memory.read_ok (m : Memory) (addr : BitVec 64) (size : ℕ) :
    ∃ v, m.read addr size = .ok v := by
  simp only [Memory.read]
  split_ifs with hsize hinfo hmap hpins
  · exact ⟨_, rfl⟩
  · exact ⟨_, rfl⟩
  · rw [Memory.word, dif_pos (index_lt hmap.1)]
    exact ⟨_, rfl⟩
  · exact ⟨_, rfl⟩
  · exact ⟨_, rfl⟩

end Memory

/-! ### Runs with migrations -/

/-- A guest access, or a migration to a device that holds anything. -/
inductive Event where
  | access (op : Access)
  | migrate (dst : Memory)

namespace Memory

/-- The values read, if any, and the memory after the access. -/
def access (m : Memory) : Access → Except Fault (List (BitVec 64) × Memory)
  | .read addr size => (m.read addr size).map fun v => ([v], m)
  | .write addr val size => (m.write addr val size).map fun m' => ([], m')

/-- The device the guest goes on with; it stays where it is if the stream does not load. -/
def migrate (m dst : Memory) : Memory :=
  (vmstateAximux.load vmstateAximux.versionId (vmstateAximux.save m) dst).getD m

/-- The values of all reads and the memory at the end. -/
def run (m : Memory) : List Event → Except Fault (List (BitVec 64) × Memory)
  | [] => .ok ([], m)
  | .access op :: events =>
    (m.access op).bind fun x => (x.2.run events).map fun y => (x.1 ++ y.1, y.2)
  | .migrate dst :: events => (m.migrate dst).run events

end Memory

/-- The value an access of the device reads, if it is a read. -/
def Access.value (s : AximuxState) : Access → List (BitVec 64)
  | read addr size => [aximuxRead s addr size]
  | write _ _ _ => []

/-- The device of the harness after realization. -/
def harnessDevice : AximuxState := ⟨fun _ => 0, 0x408, 8, 4, by decide⟩

theorem harnessDevice_realized : aximuxRealize 8 4 = .ok harnessDevice := rfl

end AximuxSystem.Qemu
