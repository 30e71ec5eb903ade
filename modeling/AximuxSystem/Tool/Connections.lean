import AximuxSystem.Tool.Naming
import AximuxSystem.Tool.NetIndex

/-!
# Connections of the mux records

The record of a mux has, at every pin, alternate and kind, the net of the last
port whose name says so. Where no two ports claim one place, the record and the
document have the same connections. What a connection shows of its net is what
the index has of it.
-/

namespace AximuxSystem.Tool

open Collections Text Element

/-! ### Slots while they are collected -/

/-- The connection of one kind. -/
def Slot.net (a : Slot) : Kind → Option Net
  | .incoming => a.incoming
  | .outgoing => a.outgoing
  | .ctl => a.ctl

@[simp] theorem Slot.net_new (alt : ℕ) (kind : Kind) : (Slot.new alt).net kind = none := by
  cases kind <;> rfl

@[simp] theorem Slot.net_connect (a : Slot) (kind k : Kind) (net : Net) :
    (a.connect kind net).net k = if k = kind then some net else a.net k := by
  cases kind <;> cases k <;> rfl

/-- What a port of a mux on net `s` is recorded as. -/
def netOf (sidx : Dict String (List Peer)) (inst s : String) : Net :=
  ⟨s, (peerInfo ((sidx.get? s).getD []) inst).1, (peerInfo ((sidx.get? s).getD []) inst).2⟩

/-- The ports whose names decode, as places with nets. -/
def connections (ports : List (String × String)) : List ((ℕ × Kind × ℕ) × String) :=
  ports.filterMap fun port => (decodePort port.1).map fun place => (place, port.2)

theorem mem_connections {ports : List (String × String)} {place : ℕ × Kind × ℕ} {s : String} :
    (place, s) ∈ connections ports ↔ ∃ name, (name, s) ∈ ports ∧ decodePort name = some place := by
  rw [connections, List.mem_filterMap]
  constructor
  · rintro ⟨⟨name, s'⟩, hport, h⟩
    obtain ⟨place', hplace, heq⟩ := Option.map_eq_some_iff.mp h
    obtain ⟨rfl, rfl⟩ := Prod.mk.inj heq
    exact ⟨name, hport, hplace⟩
  · rintro ⟨name, hport, hplace⟩
    exact ⟨(name, s), hport, by rw [hplace]; rfl⟩

/-- Connect one place. -/
def connectAt (sidx : Dict String (List Peer)) (inst : String) (pins : Dict ℕ Alts)
    (c : (ℕ × Kind × ℕ) × String) : Dict ℕ Alts :=
  pins.modify c.1.1 Alts.empty (·.connect c.1.2.2 c.1.2.1 (netOf sidx inst c.2))

variable {sidx : Dict String (List Peer)} {inst : String}

theorem collectPins_eq (ports : Dict String String) : collectPins sidx inst ports =
    (connections ports.items).foldl (connectAt sidx inst) Dict.empty := by
  rw [collectPins, connections, List.foldl_filterMap]
  congr 1
  funext pins port
  cases decodePort port.1 <;> rfl

/-- The slot of an alternate of a pin. -/
def slotAt (pins : Dict ℕ Alts) (pin alt : ℕ) : Option Slot :=
  (pins.get? pin).bind fun alts => alts.slots.get? alt

theorem slotAt_connectAt (pins : Dict ℕ Alts) (c : (ℕ × Kind × ℕ) × String) (pin alt : ℕ) :
    slotAt (connectAt sidx inst pins c) pin alt =
      if pin = c.1.1 ∧ alt = c.1.2.2 then
        some (((slotAt pins pin alt).getD (Slot.new alt)).connect c.1.2.1 (netOf sidx inst c.2))
      else slotAt pins pin alt := by
  obtain ⟨⟨p, kind, a⟩, s⟩ := c
  rw [slotAt, connectAt, Dict.get?_modify]
  by_cases hp : pin = p
  · subst pin
    rw [if_pos rfl, Option.bind_some, Alts.connect, Dict.get?_modify]
    have hold : ((pins.get? p).getD Alts.empty).slots.get? alt = slotAt pins p alt := by
      rw [slotAt]
      cases pins.get? p <;> rfl
    by_cases ha : alt = a
    · subst alt
      rw [if_pos rfl, if_pos ⟨rfl, rfl⟩, hold]
    · rw [if_neg ha, if_neg fun h => ha h.2, hold]
  · rw [if_neg hp, if_neg fun h => hp h.1]
    rfl

variable (sidx inst) in
/-- Every place shows the last net connected to it. -/
theorem net_slotAt (cs : List ((ℕ × Kind × ℕ) × String)) (pin alt : ℕ) (kind : Kind) :
    ((slotAt (cs.foldl (connectAt sidx inst) Dict.empty) pin alt).bind fun a => a.net kind) =
      (Grouping.lastOf (pin, kind, alt) cs).map (netOf sidx inst) := by
  induction cs using List.reverseRecOn with
  | nil => rfl
  | append_singleton cs c ih =>
    rw [List.foldl_concat, slotAt_connectAt, Grouping.lastOf_append, Grouping.lastOf_singleton]
    obtain ⟨⟨p, k, a⟩, s⟩ := c
    by_cases hslot : pin = p ∧ alt = a
    · obtain ⟨rfl, rfl⟩ := hslot
      rw [if_pos ⟨rfl, rfl⟩, Option.bind_some, Slot.net_connect]
      by_cases hk : kind = k
      · subst kind
        rw [if_pos rfl, if_pos rfl]
        rfl
      · have hplace : ¬ (pin, k, alt) = (pin, kind, alt) := by
          simpa using Ne.symm hk
        rw [if_neg hk, if_neg hplace, Option.none_or, ← ih]
        cases slotAt (cs.foldl (connectAt sidx inst) Dict.empty) pin alt with
        | none => exact Slot.net_new alt kind
        | some old => rfl
    · have hplace : ¬ (p, k, a) = (pin, kind, alt) := by
        rintro ⟨⟩
        exact hslot ⟨rfl, rfl⟩
      rw [if_neg hslot, if_neg hplace, Option.none_or, ih]

/-! ### Records -/

/-- The record `parse_muxes` makes of a module. -/
def moduleRecord (root : Element) (m : Path × Element) : Mux :=
  Mux.ofPins (m.2.getOrEmpty "INSTANCE") (m.2.get "MODTYPE")
    (collectPins (signameIndex root) (m.2.getOrEmpty "INSTANCE") (portsOfModule root m))

theorem mem_slots {pins : Dict ℕ Alts} {modtype : Option String} {slot : Slot} {p : ℕ} :
    (∃ pin ∈ (Mux.ofPins inst modtype pins).pins, pin.index = p ∧ slot ∈ pin.alts) ↔
      slotAt pins p slot.alt = some slot := by
  rw [slotAt, Option.bind_eq_some_iff]
  constructor
  · rintro ⟨pin, hpin, rfl, hslot⟩
    obtain ⟨⟨i, alts⟩, hitem, rfl⟩ := List.mem_map.mp hpin
    obtain ⟨⟨a, slot⟩, hkept, rfl⟩ := List.mem_map.mp hslot
    have hget := alts.slots.mem_sortedItems.mp hkept
    have halt : slot.alt = a := alts.keyed a slot hget
    exact ⟨alts, pins.mem_sortedItems.mp hitem, by rw [halt]; exact hget⟩
  · rintro ⟨alts, halts, hslot⟩
    exact ⟨Pin.ofAlts p alts, List.mem_map.mpr ⟨(p, alts), pins.mem_sortedItems.mpr halts, rfl⟩,
      rfl, List.mem_map.mpr ⟨(slot.alt, slot), alts.slots.mem_sortedItems.mpr hslot, rfl⟩⟩

/-- A connection of a record comes from the last port for its place. -/
theorem net_moduleRecord {root : Element} {m : Path × Element} {pin : Pin} {slot : Slot}
    (hpin : pin ∈ (moduleRecord root m).pins) (hslot : slot ∈ pin.alts) (kind : Kind) :
    slot.net kind = (Grouping.lastOf (pin.index, kind, slot.alt)
      (connections (portsOfModule root m).items)).map
        (netOf (signameIndex root) (m.2.getOrEmpty "INSTANCE")) := by
  have hat := mem_slots.mp ⟨pin, hpin, rfl, hslot⟩
  rw [collectPins_eq] at hat
  have hnet := net_slotAt (signameIndex root) (m.2.getOrEmpty "INSTANCE")
    (connections (portsOfModule root m).items) pin.index slot.alt kind
  rw [hat] at hnet
  exact hnet

/-- The modules that are muxes, in document order. -/
def muxModules (root : Element) : List (Path × Element) :=
  (root.iter [] "MODULE").filter fun m => isMux m.2

theorem mem_muxModules {root module : Element} {p : Path} : (p, module) ∈ muxModules root ↔
    root.find p = some module ∧ module.tag = "MODULE" ∧ isMux module = true := by
  rw [muxModules, List.mem_filter, mem_iter, and_assoc]

/-- The records are those of the modules in the order of their instances. -/
theorem parseMuxes_eq (root : Element) : parseMuxes root =
    ((muxModules root).insertionSort fun a b =>
      a.2.getOrEmpty "INSTANCE" ≤ b.2.getOrEmpty "INSTANCE").map (moduleRecord root) :=
  (List.map_insertionSort _ (fun a b : Mux => a.inst ≤ b.inst) (moduleRecord root) _
    fun _ _ _ _ => Iff.rfl).symm

theorem mem_parseMuxes {root : Element} {mux : Mux} :
    mux ∈ parseMuxes root ↔ ∃ m ∈ muxModules root, mux = moduleRecord root m := by
  rw [parseMuxes_eq, List.mem_map]
  simp only [List.mem_insertionSort, eq_comm]

/-! ### Connections of a record and of the document -/

/-- The record has net `s` at a place. -/
def Mux.Carries (mux : Mux) (place : ℕ × Kind × ℕ) (s : String) : Prop :=
  ∃ pin ∈ mux.pins, pin.index = place.1 ∧ ∃ slot ∈ pin.alts, slot.alt = place.2.2 ∧
    ∃ net, slot.net place.2.1 = some net ∧ net.signame = s

/-- The element at `p` is a port of the module at `m` that is on net `s` and whose name says
`place`. -/
def PortAt (root : Element) (m p : Path) (place : ℕ × Kind × ℕ) (s : String) : Prop :=
  ∃ port, root.find p = some port ∧ port.tag = "PORT" ∧ NearestModule root p m ∧
    decodePort (port.getOrEmpty "NAME") = some place ∧ port.getOrEmpty "SIGNAME" = s ∧ s ≠ ""

/-- No two ports of the module at `m` that are on nets say the same place. -/
def OnePortEach (root : Element) (m : Path) : Prop :=
  ∀ place p p' s s', PortAt root m p place s → PortAt root m p' place s' → p = p'

section Ports

variable {root : Element} {m : Path × Element} {p : Path} {place : ℕ × Kind × ℕ} {s : String}

theorem portAt_iff : PortAt root m.1 p place s ↔ ∃ port, ConnectedPort root m.1 p port ∧
    decodePort (port.getOrEmpty "NAME") = some place ∧ port.getOrEmpty "SIGNAME" = s := by
  constructor
  · rintro ⟨port, hfound, htag, hnear, hplace, rfl, hnet⟩
    have hname : port.getOrEmpty "NAME" ≠ "" := by
      intro h
      have hempty : decodePort "" = none := by decide
      rw [h, hempty] at hplace
      cases hplace
    exact ⟨port, ⟨hfound, htag, hnear, hname, hnet⟩, hplace, rfl⟩
  · rintro ⟨port, h, hplace, rfl⟩
    exact ⟨port, h.found, h.isPort, h.nearest, hplace, rfl, h.onNet⟩

theorem portAt_of_mem (hm : root.find m.1 = some m.2)
    (h : (place, s) ∈ connections (portsOfModule root m).items) :
    ∃ p, PortAt root m.1 p place s := by
  obtain ⟨name, hitem, hplace⟩ := mem_connections.mp h
  obtain ⟨p, port, hport, rfl, hnet⟩ := exists_port_of_mem hm hitem
  exact ⟨p, portAt_iff.mpr ⟨port, hport, hplace, hnet⟩⟩

/-- The net of the only port that says a place. -/
theorem PortAt.net_eq (hone : OnePortEach root m.1) {p' : Path} {s' : String}
    (h : PortAt root m.1 p place s) (h' : PortAt root m.1 p' place s') : s' = s := by
  obtain rfl := hone place p p' s s' h h'
  obtain ⟨port, hfound, -, -, -, rfl, -⟩ := h
  obtain ⟨port', hfound', -, -, -, rfl, -⟩ := h'
  rw [Option.some.inj (hfound.symm.trans hfound')]

/-- Such a port is not replaced by another one of its name. -/
theorem PortAt.mem_connections (hm : root.find m.1 = some m.2) (hone : OnePortEach root m.1)
    (h : PortAt root m.1 p place s) :
    (place, s) ∈ connections (portsOfModule root m).items := by
  obtain ⟨port, hport, hplace, hnet⟩ := portAt_iff.mp h
  refine Tool.mem_connections.mpr ⟨port.getOrEmpty "NAME", ?_, hplace⟩
  rw [Dict.mem_items, portsOfModule_get?]
  refine Grouping.lastOf_of_unique ?_ fun s' hs' => ?_
  · rw [← hnet]
    exact List.mem_map_of_mem ((mem_modulePorts hm).mpr hport)
  · obtain ⟨⟨p', port'⟩, hmem, heq⟩ := List.mem_map.mp hs'
    obtain ⟨hname, hnet'⟩ := Prod.mk.inj heq
    refine h.net_eq hone (portAt_iff.mpr ⟨port', (mem_modulePorts hm).mp hmem, ?_, hnet'⟩)
    rw [hname]
    exact hplace

theorem lastOf_connections (hm : root.find m.1 = some m.2) (hone : OnePortEach root m.1) :
    Grouping.lastOf place (connections (portsOfModule root m).items) = some s ↔
      ∃ p, PortAt root m.1 p place s := by
  constructor
  · exact fun h => portAt_of_mem hm (Grouping.mem_of_lastOf h)
  · rintro ⟨p, h⟩
    refine Grouping.lastOf_of_unique (h.mem_connections hm hone) fun s' hs' => ?_
    obtain ⟨p', h'⟩ := portAt_of_mem hm hs'
    exact h.net_eq hone h'

end Ports

theorem slotAt_alt {pins : Dict ℕ Alts} {p a : ℕ} {slot : Slot}
    (h : slotAt pins p a = some slot) : slot.alt = a := by
  obtain ⟨alts, -, hslot⟩ := Option.bind_eq_some_iff.mp h
  exact alts.keyed a slot hslot

theorem carries_moduleRecord {root : Element} {m : Path × Element} {place : ℕ × Kind × ℕ}
    {s : String} : (moduleRecord root m).Carries place s ↔
      Grouping.lastOf place (connections (portsOfModule root m).items) = some s := by
  obtain ⟨p, kind, a⟩ := place
  constructor
  · rintro ⟨pin, hpin, rfl, slot, hslot, rfl, net, hnet, rfl⟩
    rw [net_moduleRecord hpin hslot] at hnet
    obtain ⟨s, hlast, rfl⟩ := Option.map_eq_some_iff.mp hnet
    exact hlast
  · intro hlast
    have hnet := net_slotAt (signameIndex root) (m.2.getOrEmpty "INSTANCE")
      (connections (portsOfModule root m).items) p a kind
    rw [hlast, ← collectPins_eq, Option.map_some] at hnet
    obtain ⟨slot, hslot, hkind⟩ := Option.bind_eq_some_iff.mp hnet
    obtain rfl := slotAt_alt hslot
    obtain ⟨pin, hpin, hindex, hmem⟩ := mem_slots.mpr hslot
    exact ⟨pin, hpin, hindex, slot, hmem, rfl, _, hkind, rfl⟩

/-- The record of a module. The last two parts are about modules without two ports for one
place. -/
structure RecordOf (root : Element) (m : Path × Element) (mux : Mux) : Prop where
  inst : mux.inst = m.2.getOrEmpty "INSTANCE"
  modtype : mux.modtype = m.2.get "MODTYPE"
  npins : mux.npins = mux.pins.length
  pins_increasing : (mux.pins.map Pin.index).Pairwise (· < ·)
  alts_increasing : ∀ pin ∈ mux.pins, (pin.alts.map Slot.alt).Pairwise (· < ·)
  /-- Every slot stands under its own number in the dictionary of its pin. -/
  keys : mux.pins.map (fun pin => (pin.index, pin.alts.map Slot.alt)) =
    (collectPins (signameIndex root) mux.inst (portsOfModule root m)).sortedItems.map
      fun item => (item.1, item.2.slots.sortedItems.map Prod.fst)
  carries_iff : OnePortEach root m.1 → ∀ place s,
    mux.Carries place s ↔ ∃ p, PortAt root m.1 p place s
  none_of_no_port : OnePortEach root m.1 → ∀ pin ∈ mux.pins, ∀ slot ∈ pin.alts, ∀ kind,
    (¬ ∃ p s, PortAt root m.1 p (pin.index, kind, slot.alt) s) → slot.net kind = none

theorem recordOf_moduleRecord {root : Element} {m : Path × Element}
    (hm : root.find m.1 = some m.2) : RecordOf root m (moduleRecord root m) where
  inst := rfl
  modtype := rfl
  npins := Mux.ofPins_npins _ _ _
  pins_increasing := (moduleRecord root m).increasing
  alts_increasing := fun pin _ => pin.increasing
  keys := by
    rw [moduleRecord, Mux.ofPins, List.map_map]
    refine List.map_congr_left fun item _ => ?_
    exact congrArg (Prod.mk item.1) item.2.map_alt_sorted
  carries_iff := fun hone _ _ => carries_moduleRecord.trans (lastOf_connections hm hone)
  none_of_no_port := by
    intro hone pin hpin slot hslot kind hno
    rw [net_moduleRecord hpin hslot, Option.map_eq_none_iff]
    cases hlast : Grouping.lastOf (pin.index, kind, slot.alt)
        (connections (portsOfModule root m).items) with
    | none => rfl
    | some s =>
      obtain ⟨p, hport⟩ := (lastOf_connections hm hone).mp hlast
      exact absurd ⟨p, s, hport⟩ hno

/-- There is one record for every module that is a mux, in the order of the instances, and the
connections of a record are those of the ports of its module. -/
theorem records_exact (root : Element) : ∃ modules : List (Path × Element),
    (modules.map Prod.fst).Nodup ∧
    (∀ p module, (p, module) ∈ modules ↔
      root.find p = some module ∧ module.tag = "MODULE" ∧ isMux module = true) ∧
    List.Forall₂ (RecordOf root) modules (parseMuxes root) ∧
    ((parseMuxes root).map Mux.inst).Pairwise (· ≤ ·) := by
  have hperm := List.perm_insertionSort
    (fun a b : Path × Element => a.2.getOrEmpty "INSTANCE" ≤ b.2.getOrEmpty "INSTANCE")
    (muxModules root)
  refine ⟨_, (hperm.map Prod.fst).nodup_iff.mpr ?_, fun p module => ?_, ?_, ?_⟩
  · exact (nodup_iter root [] "MODULE").sublist (List.filter_sublist.map Prod.fst)
  · rw [hperm.mem_iff, mem_muxModules]
  · rw [parseMuxes_eq, List.forall₂_map_right_iff, List.forall₂_same]
    intro m hm
    exact recordOf_moduleRecord (mem_muxModules.mp (hperm.mem_iff.mp hm)).1
  · rw [List.pairwise_map, parseMuxes]
    exact List.pairwise_insertionSort (fun a b : Mux => a.inst ≤ b.inst) _

/-! ### What a connection shows of its net -/

/-- The label of an end of a net is noise exactly if its instance is. -/
theorem isNoise_label (x : Peer) :
    isNoise (labelInst (x.inst ++ "." ++ dropDirection x.port)) = isNoise x.inst := by
  have hdot : ∀ start ∈ noisePrefixes, '.' ∉ start.toList := by decide
  rw [isNoise, isNoise, Bool.eq_iff_iff, List.any_eq_true, List.any_eq_true]
  refine exists_congr fun start => and_congr_right fun hstart => ?_
  rw [labelInst, String.append_assoc]
  have hstart' : startsWith (beforeFirst '.' (x.inst ++ ("." ++ dropDirection x.port))) start =
      startsWith x.inst start := by
    rw [← startsWith_beforeFirst (hdot start hstart) x.inst]
    exact congrArg (startsWith · start) (beforeFirst_append '.' x.inst _)
  rw [hstart']

/-- The list has every named port on a net that lies in a module, once, and the index shows of
each net what the list has of it. -/
structure IndexExact (root : Element) (ports : List (Path × String × Peer)) : Prop where
  once : (ports.map Prod.fst).Nodup
  all : ∀ p port, root.find p = some port → port.tag = "PORT" → port.getOrEmpty "NAME" ≠ "" →
    port.getOrEmpty "SIGNAME" ≠ "" → (∃ q, Above q p ∧ IsModule root q) →
    ∃ peer, (p, port.getOrEmpty "SIGNAME", peer) ∈ ports
  only : ∀ p s peer, (p, s, peer) ∈ ports → IndexedPort root p s peer
  lookup : ∀ s peers, (signameIndex root).get? s = some peers ↔
    peers = (ports.filter fun x => x.2.1 = s).map (fun x => x.2.2) ∧ peers ≠ []

/-- A connection of a record shows the ends of its net outside the instance. -/
structure NetExact (root : Element) (inst : String) (net : Net) : Prop where
  peers : net.peers = chosenPeers (otherPeers (netPeers root net.signame) inst)
  label : net.label = net.peers.head?.map fun x => x.inst ++ "." ++ dropDirection x.port
  label_none : net.label = none ↔ net.peers = []
  noise : ∀ l, net.label = some l → isNoise (labelInst l) = true →
    ∀ x ∈ otherPeers (netPeers root net.signame) inst, isNoise x.inst = true

theorem indexExact (root : Element) : IndexExact root (indexedPorts root) where
  once := nodup_indexedPorts root
  all := by
    rintro p port hfound htag hname hnet ⟨q, habove, hmod⟩
    obtain ⟨m, hnear⟩ := exists_nearest habove hmod
    obtain ⟨module, hm, -⟩ := Option.map_eq_some_iff.mp hnear.isModule
    exact ⟨_, mem_indexedPorts.mpr
      ⟨m, module, port, hm, ⟨hfound, htag, hnear, hname, hnet⟩, rfl, rfl⟩⟩
  only := fun _ _ _ => mem_indexedPorts.mp
  lookup := by
    intro s peers
    rw [signameIndex_eq, Grouping.get?_grouped, Grouping.valuesOf, List.filter_map, List.map_map]
    rfl

theorem netExact_netOf (root : Element) (inst s : String) :
    NetExact root inst (netOf (signameIndex root) inst s) := by
  have hinfo := peerInfo_eq (netPeers root s) inst
  have hpeers : (netOf (signameIndex root) inst s).peers =
      chosenPeers (otherPeers (netPeers root s) inst) := congrArg Prod.snd hinfo
  have hlabel : (netOf (signameIndex root) inst s).label =
      (netOf (signameIndex root) inst s).peers.head?.map
        fun x => x.inst ++ "." ++ dropDirection x.port := by
    rw [hpeers]
    exact congrArg Prod.fst hinfo
  refine ⟨hpeers, hlabel, ?_, fun l hl hnoise x hx => ?_⟩
  · rw [hlabel, Option.map_eq_none_iff, List.head?_eq_none_iff]
  · rw [hlabel] at hl
    obtain ⟨first, hfirst, rfl⟩ := Option.map_eq_some_iff.mp hl
    rw [isNoise_label] at hnoise
    -- An end that is no noise would have been chosen before one that is.
    by_contra hx'
    have hreal : ∃ x ∈ otherPeers (netPeers root s) inst, isNoise x.inst = false :=
      ⟨x, hx, Bool.eq_false_of_not_eq_true hx'⟩
    have hmem := List.mem_of_mem_head? hfirst
    rw [hpeers, chosenPeers, if_pos hreal] at hmem
    have hnot := (List.mem_filter.mp hmem).2
    rw [hnoise] at hnot
    cases hnot

/-- The index has every port of a net once, the ports of a module are found in it, and every
connection of a record shows what the index has of its net. -/
theorem index_exact (root : Element) :
    (∃ ports, IndexExact root ports) ∧
    (∀ m module, root.find m = some module →
      ∀ name s, (name, s) ∈ (portsOfModule root (m, module)).items →
        ∃ p port, ConnectedPort root m p port ∧ port.getOrEmpty "NAME" = name ∧
          port.getOrEmpty "SIGNAME" = s ∧ portPeer module port ∈ netPeers root s) ∧
    ∀ mux ∈ parseMuxes root, ∀ pin ∈ mux.pins, ∀ slot ∈ pin.alts, ∀ kind net,
      slot.net kind = some net → NetExact root mux.inst net := by
  refine ⟨⟨_, indexExact root⟩, fun m module hm name s hitem => ?_, ?_⟩
  · obtain ⟨p, port, hport, hname, hnet⟩ := exists_port_of_mem (m := (m, module)) hm hitem
    exact ⟨p, port, hport, hname, hnet,
      mem_netPeers.mpr ⟨p, m, module, port, hm, hport, hnet, rfl⟩⟩
  · intro mux hmux pin hpin slot hslot kind net hnet
    obtain ⟨m, -, rfl⟩ := mem_parseMuxes.mp hmux
    rw [net_moduleRecord hpin hslot] at hnet
    obtain ⟨s, -, rfl⟩ := Option.map_eq_some_iff.mp hnet
    exact netExact_netOf root _ s

end AximuxSystem.Tool
