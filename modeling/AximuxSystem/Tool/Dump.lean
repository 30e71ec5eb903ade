import AximuxSystem.Foundation.Json
import AximuxSystem.Tool.Netlist

/-!
# The dump of the records

`--dump-json` and the style `json` write the records of the muxes as JSON text.
Nothing is lost in the text, and it is ASCII, whatever the names in the design
are.
-/

namespace AximuxSystem.Tool

open Json

/-! ### Records as values -/

def Peer.value (p : Peer) : Value :=
  .object [("instance", Codec.string.encode p.inst), ("modtype", Codec.string.encode p.modtype),
    ("port", Codec.string.encode p.port), ("dir", Codec.string.encode p.dir)]

def Peer.ofValue (v : Value) : Option Peer := do
  let inst ← Codec.string.field "instance" v
  let modtype ← Codec.string.field "modtype" v
  let port ← Codec.string.field "port" v
  let dir ← Codec.string.field "dir" v
  some ⟨inst, modtype, port, dir⟩

def peerCodec : Codec Peer :=
  ⟨Peer.value, Peer.ofValue, fun p => by simp [Peer.value, Peer.ofValue]⟩

def textCodec : Codec (Option String) := Codec.string.optional fun _ => Value.noConfusion

def Net.value (net : Net) : Value :=
  .object [("signame", Codec.string.encode net.signame), ("label", textCodec.encode net.label),
    ("peers", peerCodec.list.encode net.peers)]

def Net.ofValue (v : Value) : Option Net := do
  let signame ← Codec.string.field "signame" v
  let label ← textCodec.field "label" v
  let peers ← peerCodec.list.field "peers" v
  some ⟨signame, label, peers⟩

def netCodec : Codec Net := ⟨Net.value, Net.ofValue, fun net => by simp [Net.value, Net.ofValue]⟩

def connectionCodec : Codec (Option Net) := netCodec.optional fun _ => Value.noConfusion

def Slot.value (slot : Slot) : Value :=
  .object [("alt", Codec.number.encode slot.alt),
    ("incoming", connectionCodec.encode slot.incoming),
    ("outgoing", connectionCodec.encode slot.outgoing), ("ctl", connectionCodec.encode slot.ctl),
    ("peers", peerCodec.list.encode slot.peers)]

def Slot.ofValue (v : Value) : Option Slot := do
  let alt ← Codec.number.field "alt" v
  let incoming ← connectionCodec.field "incoming" v
  let outgoing ← connectionCodec.field "outgoing" v
  let ctl ← connectionCodec.field "ctl" v
  let peers ← peerCodec.list.field "peers" v
  some ⟨alt, incoming, outgoing, ctl, peers⟩

def slotCodec : Codec Slot :=
  ⟨Slot.value, Slot.ofValue, fun slot => by simp [Slot.value, Slot.ofValue]⟩

def Pin.value (pin : Pin) : Value :=
  .object [("index", Codec.number.encode pin.index), ("alts", slotCodec.list.encode pin.alts)]

/-- Alternates out of order are no pin. -/
def Pin.ofValue (v : Value) : Option Pin := do
  let index ← Codec.number.field "index" v
  let alts ← slotCodec.list.field "alts" v
  if h : (alts.map Slot.alt).Pairwise (· < ·) then some ⟨index, alts, h⟩ else none

def pinCodec : Codec Pin :=
  ⟨Pin.value, Pin.ofValue, fun pin => by simp [Pin.value, Pin.ofValue, pin.increasing]⟩

def Mux.value (mux : Mux) : Value :=
  .object [("instance", Codec.string.encode mux.inst), ("modtype", textCodec.encode mux.modtype),
    ("pins", pinCodec.list.encode mux.pins), ("npins", Codec.number.encode mux.npins)]

/-- Pins out of order are no record. -/
def Mux.ofValue (v : Value) : Option Mux := do
  let inst ← Codec.string.field "instance" v
  let modtype ← textCodec.field "modtype" v
  let pins ← pinCodec.list.field "pins" v
  let npins ← Codec.number.field "npins" v
  if h : (pins.map Pin.index).Pairwise (· < ·) then some ⟨inst, modtype, pins, npins, h⟩ else none

def muxCodec : Codec Mux :=
  ⟨Mux.value, Mux.ofValue, fun mux => by simp [Mux.value, Mux.ofValue, mux.increasing]⟩

/-! ### The text -/

/-- `json.dumps(muxes, indent=2) + "\n"` -/
def dumpText (muxes : List Mux) : String :=
  String.ofList (print 0 (muxCodec.list.encode muxes) ++ ['\n'])

/-- `json.loads`, and the records the value is made of. -/
def loadDump (text : String) : Option (List Mux) := (read text).bind muxCodec.list.decode

theorem loadDump_dumpText (muxes : List Mux) : loadDump (dumpText muxes) = some muxes := by
  rw [loadDump, dumpText, read_print _ (List.forall_mem_singleton.mpr rfl), Option.bind_some,
    Codec.decode_encode]

theorem ascii_dumpText (muxes : List Mux) : Ascii (dumpText muxes).toList := by
  rw [dumpText, String.toList_ofList]
  exact (ascii_print _ 0).append (List.forall_mem_singleton.mpr (by decide))

end AximuxSystem.Tool
