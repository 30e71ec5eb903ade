import AximuxSystem.Foundation.Dict
import AximuxSystem.Foundation.Text

/-!
# Mux records from a hardware description

`parse_muxes` of `tools/hwh_aximux_dt.py`: which modules of the description are
muxes, which nets their ports are on, and which other ports are on the same
nets. Elements are identified by their position in the document, so that the
parent map of the source is the tail of a position.
-/

namespace AximuxSystem.Tool

open Collections Text

/-! ### The document -/

/-- An XML element; text content plays no role. -/
inductive Element where
  | mk (tag : String) (attrs : List (String × String)) (children : List Element)

/-- Position of an element: its index among its siblings, then the position of its parent. -/
abbrev Path := List ℕ

namespace Element

def tag : Element → String
  | mk tag _ _ => tag

def children : Element → List Element
  | mk _ _ children => children

/-- `e.get(name)` -/
def get (e : Element) (name : String) : Option String :=
  match e with
  | mk _ attrs _ => attrs.lookup name

/-- `e.get(name) or ""` -/
def getOrEmpty (e : Element) (name : String) : String := (e.get name).getD ""

def find (root : Element) : Path → Option Element
  | [] => some root
  | i :: parent => (root.find parent).bind fun e => e.children[i]?

mutual

/-- The element and all its descendants in document order, with their positions. -/
def iterAll (path : Path) : Element → List (Path × Element)
  | mk tag attrs children => (path, mk tag attrs children) :: iterChildren path 0 children

def iterChildren (path : Path) (i : ℕ) : List Element → List (Path × Element)
  | [] => []
  | e :: es => e.iterAll (i :: path) ++ iterChildren path (i + 1) es

end

/-- `e.iter(tag)` for the element at a position -/
def iter (e : Element) (path : Path) (tag : String) : List (Path × Element) :=
  (e.iterAll path).filter (·.2.tag == tag)

/-- The nearest `MODULE` above a position: climb the parents until one is met. -/
def owner (root : Element) : Path → Option Path
  | [] => none
  | _ :: parent =>
    if (root.find parent).map Element.tag = some "MODULE" then some parent else owner root parent

end Element

/-! ### Nets and peers -/

/-- One end of a net: instance and type of its module, name and direction of the port. -/
structure Peer where
  inst : String
  modtype : String
  port : String
  dir : String
  deriving DecidableEq, Repr

def noisePrefixes : List String :=
  ["xlconcat_", "xlslice_", "xlconstant_", "const_", "util_vector_logic_",
    "util_reduced_logic_", "explode", "ground_", "vcc_"]

def isNoise (inst : String) : Bool := noisePrefixes.any fun p => startsWith inst p

def portsOfModule (root : Element) (m : Path × Element) : Dict String String :=
  (m.2.iter m.1 "PORT").foldl
    (fun out p =>
      if root.owner p.1 = some m.1 then
        let name := p.2.getOrEmpty "NAME"
        let signame := p.2.getOrEmpty "SIGNAME"
        if name ≠ "" ∧ signame ≠ "" then out.set name signame else out
      else out)
    Dict.empty

def signameIndex (root : Element) : Dict String (List Peer) :=
  (root.iter [] "MODULE").foldl
    (fun idx m =>
      let inst := m.2.getOrEmpty "INSTANCE"
      let modtype := m.2.getOrEmpty "MODTYPE"
      (m.2.iter m.1 "PORT").foldl
        (fun idx p =>
          if root.owner p.1 = some m.1 then
            let signame := p.2.getOrEmpty "SIGNAME"
            let pname := p.2.getOrEmpty "NAME"
            if signame ≠ "" ∧ pname ≠ "" then
              idx.modify signame [] (· ++ [⟨inst, modtype, pname, p.2.getOrEmpty "DIR"⟩])
            else idx
          else idx)
        idx)
    Dict.empty

/-- `re.sub(r"_[iotn]$", "", pn)` -/
def dropDirection (pn : String) : String :=
  let (body, rest) := splitFinalNewline pn.toList
  match body.reverse with
  | c :: '_' :: front =>
    if c ∈ ['i', 'o', 't', 'n'] then String.ofList (front.reverse ++ rest) else pn
  | _ => pn

def peerInfo (peers : List Peer) (muxInst : String) : Option String × List Peer :=
  let others := peers.filter (·.inst != muxInst)
  let interesting := others.filter fun x => !isNoise x.inst
  let chosen := if interesting ≠ [] then interesting else others
  match chosen with
  | [] => (none, [])
  | peer :: _ => (some (peer.inst ++ "." ++ dropDirection peer.port), chosen)

/-! ### Mux records -/

inductive Kind where
  | incoming | outgoing | ctl
  deriving DecidableEq, Repr

def Kind.text : Kind → String
  | incoming => "incoming"
  | outgoing => "outgoing"
  | ctl => "ctl"

/-- `PORT_RE.match(name)`: pin, kind and alternate of a mux port. -/
def decodePort (name : String) : Option (ℕ × Kind × ℕ) :=
  let (body, _) := splitFinalNewline name.toList
  if "sig".toList.isPrefixOf body then
    let rest := body.drop 3
    let pin := rest.takeWhile isDecimal
    let tail := rest.dropWhile isDecimal
    match [Kind.incoming, .outgoing, .ctl].find? fun kind => kind.text.toList.isPrefixOf tail with
    | some kind =>
      let alt := tail.drop kind.text.length
      if pin ≠ [] ∧ alt ≠ [] ∧ alt.all isDecimal then
        some (decimalValue pin, kind, decimalValue alt)
      else none
    | none => none
  else none

/-- What is connected to one port of a mux. -/
structure Net where
  signame : String
  label : Option String
  peers : List Peer
  deriving DecidableEq, Repr

structure Slot where
  alt : ℕ
  incoming : Option Net
  outgoing : Option Net
  ctl : Option Net
  peers : List Peer
  deriving DecidableEq, Repr

def Slot.new (alt : ℕ) : Slot := ⟨alt, none, none, none, []⟩

def Slot.connect (slot : Slot) (kind : Kind) (net : Net) : Slot :=
  match kind with
  | .incoming =>
    { slot with
      incoming := some net
      peers := if net.peers ≠ [] then net.peers else slot.peers }
  | .outgoing => { slot with outgoing := some net }
  | .ctl => { slot with ctl := some net }

@[simp] theorem Slot.connect_alt (slot : Slot) (kind : Kind) (net : Net) :
    (slot.connect kind net).alt = slot.alt := by
  cases kind <;> rfl

/-- The slots of one pin while its ports are collected: every slot is kept under its own number. -/
structure Alts where
  slots : Dict ℕ Slot
  keyed : ∀ alt slot, slots.get? alt = some slot → slot.alt = alt

namespace Alts

def empty : Alts := ⟨Dict.empty, nofun⟩

def connect (alts : Alts) (alt : ℕ) (kind : Kind) (net : Net) : Alts where
  slots := alts.slots.modify alt (Slot.new alt) (·.connect kind net)
  keyed := by
    intro a slot h
    rw [Dict.get?_modify] at h
    split_ifs at h with ha
    · cases h
      rw [Slot.connect_alt, ha]
      cases hold : alts.slots.get? alt with
      | none => rfl
      | some old => exact alts.keyed alt old hold
    · exact alts.keyed a slot h

theorem map_alt_sorted (alts : Alts) :
    (alts.slots.sortedItems.map Prod.snd).map Slot.alt = alts.slots.sortedItems.map Prod.fst := by
  rw [List.map_map]
  refine List.map_congr_left fun item hitem => ?_
  exact alts.keyed item.1 item.2 (alts.slots.mem_sortedItems.mp hitem)

end Alts

structure Pin where
  index : ℕ
  alts : List Slot
  increasing : (alts.map Slot.alt).Pairwise (· < ·)

theorem Pin.alts_nodup (pin : Pin) : (pin.alts.map Slot.alt).Nodup :=
  pin.increasing.imp fun hlt => hlt.ne

structure Mux where
  inst : String
  modtype : Option String
  pins : List Pin
  npins : ℕ
  increasing : (pins.map Pin.index).Pairwise (· < ·)

theorem Mux.indices_nodup (mux : Mux) : (mux.pins.map Pin.index).Nodup :=
  mux.increasing.imp fun hlt => hlt.ne

def Pin.ofAlts (index : ℕ) (alts : Alts) : Pin where
  index := index
  alts := alts.slots.sortedItems.map Prod.snd
  increasing := by
    rw [alts.map_alt_sorted]
    exact alts.slots.sortedItems_increasing

/-- The port loop of `parse_muxes`. -/
def collectPins (sidx : Dict String (List Peer)) (inst : String) (ports : Dict String String) :
    Dict ℕ Alts :=
  ports.items.foldl
    (fun pins port =>
      match decodePort port.1 with
      | none => pins
      | some (pin, kind, alt) =>
        let (label, detail) := peerInfo ((sidx.get? port.2).getD []) inst
        pins.modify pin Alts.empty (·.connect alt kind ⟨port.2, label, detail⟩))
    Dict.empty

def Mux.ofPins (inst : String) (modtype : Option String) (pins : Dict ℕ Alts) : Mux where
  inst := inst
  modtype := modtype
  pins := pins.sortedItems.map fun item => Pin.ofAlts item.1 item.2
  npins := pins.items.length
  increasing := by
    rw [List.map_map]
    exact pins.sortedItems_increasing

theorem Mux.ofPins_npins (inst : String) (modtype : Option String) (pins : Dict ℕ Alts) :
    (Mux.ofPins inst modtype pins).npins = (Mux.ofPins inst modtype pins).pins.length := by
  rw [Mux.ofPins, List.length_map, pins.perm_sortedItems.length_eq]

def muxModtypes : List String := ["axi_mux", "aximux"]

/-- `MUX_INST_RE.search(inst)`, case ignored -/
def isMuxInst (inst : String) : Bool :=
  let (body, _) := splitFinalNewline inst.toList
  let (front, digits) := splitFinalDigits body
  decide (digits ≠ []) && "mux_".toList.isSuffixOf (front.map Char.toLower)

def isMux (m : Element) : Bool :=
  muxModtypes.contains (m.getOrEmpty "MODTYPE").toLower || isMuxInst (m.getOrEmpty "INSTANCE")

def parseMuxes (root : Element) : List Mux :=
  let sidx := signameIndex root
  let muxes := ((root.iter [] "MODULE").filter fun m => isMux m.2).map fun m =>
    let inst := m.2.getOrEmpty "INSTANCE"
    Mux.ofPins inst (m.2.get "MODTYPE") (collectPins sidx inst (portsOfModule root m))
  muxes.insertionSort fun a b => a.inst ≤ b.inst

/-! ### A sample design -/

/-- A module with its ports and the nets they are on. -/
def sampleModule (inst modtype : String) (ports : List (String × String)) : Element :=
  .mk "MODULE" [("INSTANCE", inst), ("MODTYPE", modtype)]
    [.mk "PORTS" [] (ports.map fun port =>
      .mk "PORT" [("NAME", port.1), ("SIGNAME", port.2)] [])]

def sampleDesign : Element :=
  .mk "EDKSYSTEM" [] [.mk "MODULES" []
    [sampleModule "axi_iic_0" "axi_iic" [("scl_o", "iic_scl"), ("sda_o", "iic_sda")],
     sampleModule "axi_mux_0" "aximux"
      [("sig0incoming1", "iic_scl"), ("sig1incoming2", "iic_sda")]]]

end AximuxSystem.Tool
