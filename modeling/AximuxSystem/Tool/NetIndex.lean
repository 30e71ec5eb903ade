import AximuxSystem.Foundation.Grouping
import AximuxSystem.Tool.Document

/-!
# Ports and nets

Which ports of the document count for a module, and what `ports_of_module` and
`signame_index` make of them. The two functions climb from every port on their
own; both keep the ports whose nearest module is the one at hand.
-/

namespace AximuxSystem.Tool

open Collections Element

variable {root : Element} {m : Path × Element} {p : Path} {port : Element}

/-- A port with a name and a net whose nearest module is the one at `m`. -/
structure ConnectedPort (root : Element) (m p : Path) (port : Element) : Prop where
  found : root.find p = some port
  isPort : port.tag = "PORT"
  nearest : NearestModule root p m
  named : port.getOrEmpty "NAME" ≠ ""
  onNet : port.getOrEmpty "SIGNAME" ≠ ""

/-- The ports the loops over a module keep, with their positions. -/
def modulePorts (root : Element) (m : Path × Element) : List (Path × Element) :=
  (m.2.iter m.1 "PORT").filter fun p => decide (root.owner p.1 = some m.1 ∧
    p.2.getOrEmpty "NAME" ≠ "" ∧ p.2.getOrEmpty "SIGNAME" ≠ "")

theorem mem_modulePorts (hm : root.find m.1 = some m.2) :
    (p, port) ∈ modulePorts root m ↔ ConnectedPort root m.1 p port := by
  rw [modulePorts, List.mem_filter, mem_iter_at hm, decide_eq_true_eq, owner_eq_some]
  constructor
  · rintro ⟨⟨-, hfound, htag⟩, hnear, hname, hnet⟩
    exact ⟨hfound, htag, hnear, hname, hnet⟩
  · intro h
    exact ⟨⟨h.nearest.above.suffix, h.found, h.isPort⟩, h.nearest, h.named, h.onNet⟩

/-! ### Ports of a module -/

theorem portsOfModule_eq (root : Element) (m : Path × Element) :
    portsOfModule root m = (modulePorts root m).foldl
      (fun out p => out.set (p.2.getOrEmpty "NAME") (p.2.getOrEmpty "SIGNAME")) Dict.empty := by
  rw [portsOfModule, modulePorts, List.foldl_filter]
  congr 1
  funext out p
  by_cases hown : root.owner p.1 = some m.1
  · simp only [hown, if_true, true_and, decide_eq_true_eq]
  · simp only [hown, if_false, false_and, decide_false, Bool.false_eq_true]

/-- A name stands for the net of the last port that has it. -/
theorem portsOfModule_get? (root : Element) (m : Path × Element) (name : String) :
    (portsOfModule root m).get? name = Grouping.lastOf name ((modulePorts root m).map fun p =>
      (p.2.getOrEmpty "NAME", p.2.getOrEmpty "SIGNAME")) := by
  rw [portsOfModule_eq, Grouping.get?_foldl_set]

/-- Every pair of a name and a net comes from a port. -/
theorem exists_port_of_mem {name s : String} (hm : root.find m.1 = some m.2)
    (h : (name, s) ∈ (portsOfModule root m).items) : ∃ p port, ConnectedPort root m.1 p port ∧
      port.getOrEmpty "NAME" = name ∧ port.getOrEmpty "SIGNAME" = s := by
  rw [Dict.mem_items, portsOfModule_get?] at h
  obtain ⟨⟨p, port⟩, hport, heq⟩ := List.mem_map.mp (Grouping.mem_of_lastOf h)
  obtain ⟨hname, hnet⟩ := Prod.mk.inj heq
  exact ⟨p, port, (mem_modulePorts hm).mp hport, hname, hnet⟩

/-! ### Index of the nets -/

/-- The end of a net at a port of a module. -/
def portPeer (m port : Element) : Peer :=
  ⟨m.getOrEmpty "INSTANCE", m.getOrEmpty "MODTYPE", port.getOrEmpty "NAME", port.getOrEmpty "DIR"⟩

/-- The port at `p` lies in a module and is the end `peer` of net `s`. -/
def IndexedPort (root : Element) (p : Path) (s : String) (peer : Peer) : Prop :=
  ∃ m module port, root.find m = some module ∧ ConnectedPort root m p port ∧
    port.getOrEmpty "SIGNAME" = s ∧ peer = portPeer module port

/-- The ports in the order of the index, with their nets and what the index shows of them. -/
def indexedPorts (root : Element) : List (Path × String × Peer) :=
  (root.iter [] "MODULE").flatMap fun m => (modulePorts root m).map fun p =>
    (p.1, p.2.getOrEmpty "SIGNAME", portPeer m.2 p.2)

theorem mem_indexedPorts {s : String} {peer : Peer} :
    (p, s, peer) ∈ indexedPorts root ↔ IndexedPort root p s peer := by
  simp only [indexedPorts, List.mem_flatMap, List.mem_map, Prod.exists, Prod.mk.injEq, mem_iter]
  constructor
  · rintro ⟨m, module, ⟨hm, -⟩, p, port, hport, rfl, rfl, rfl⟩
    exact ⟨m, module, port, hm, (mem_modulePorts (m := (m, module)) hm).mp hport, rfl, rfl⟩
  · rintro ⟨m, module, port, hm, hport, rfl, rfl⟩
    have htag : module.tag = "MODULE" := by
      have hmodule := hport.nearest.isModule
      rw [IsModule, hm] at hmodule
      exact Option.some.inj hmodule
    exact ⟨m, module, ⟨hm, htag⟩, p, port, (mem_modulePorts (m := (m, module)) hm).mpr hport,
      rfl, rfl, rfl⟩

/-- Every port is indexed once: it is kept in the pass for its nearest module only. -/
theorem nodup_indexedPorts (root : Element) : ((indexedPorts root).map Prod.fst).Nodup := by
  rw [indexedPorts, List.map_flatMap, List.nodup_flatMap]
  refine ⟨fun m _ => ?_, ?_⟩
  · rw [List.map_map]
    exact (nodup_iter m.2 m.1 "PORT").sublist (List.filter_sublist.map Prod.fst)
  · refine (List.pairwise_map.mp (nodup_iter root [] "MODULE")).imp fun {m m'} hne => ?_
    rw [Function.onFun, List.disjoint_left]
    intro p hp hp'
    have howner : ∀ m : Path × Element, p ∈ ((modulePorts root m).map fun p =>
        (p.1, p.2.getOrEmpty "SIGNAME", portPeer m.2 p.2)).map Prod.fst →
          root.owner p = some m.1 := by
      intro m hp
      rw [List.map_map] at hp
      obtain ⟨x, hx, rfl⟩ := List.mem_map.mp hp
      exact (of_decide_eq_true (List.mem_filter.mp hx).2).1
    exact hne (Option.some.inj ((howner m hp).symm.trans (howner m' hp')))

theorem signameIndex_eq (root : Element) :
    signameIndex root = Grouping.grouped ((indexedPorts root).map Prod.snd) := by
  rw [Grouping.grouped, List.foldl_map, indexedPorts, List.foldl_flatMap, signameIndex]
  congr 1
  funext idx m
  rw [List.foldl_map, modulePorts, List.foldl_filter]
  change List.foldl _ idx (m.2.iter m.1 "PORT") = List.foldl _ idx (m.2.iter m.1 "PORT")
  congr 1
  funext idx p
  by_cases hown : root.owner p.1 = some m.1
  · simp only [hown, if_true, true_and, decide_eq_true_eq, and_comm]
    rfl
  · simp only [hown, if_false, false_and, decide_false, Bool.false_eq_true]

/-- The ends of a net in the order of the index. -/
def netPeers (root : Element) (s : String) : List Peer := ((signameIndex root).get? s).getD []

theorem netPeers_eq (root : Element) (s : String) : netPeers root s =
    ((indexedPorts root).filter fun x => x.2.1 = s).map fun x => x.2.2 := by
  rw [netPeers, signameIndex_eq, Grouping.getD_grouped, Grouping.valuesOf, List.filter_map,
    List.map_map]
  rfl

theorem mem_netPeers {s : String} {peer : Peer} :
    peer ∈ netPeers root s ↔ ∃ p, IndexedPort root p s peer := by
  rw [netPeers_eq]
  simp only [List.mem_map, List.mem_filter, decide_eq_true_eq, Prod.exists, mem_indexedPorts]
  constructor
  · rintro ⟨p, s, peer, ⟨hport, rfl⟩, rfl⟩
    exact ⟨p, hport⟩
  · rintro ⟨p, hport⟩
    exact ⟨p, s, peer, ⟨hport, rfl⟩, rfl⟩

/-! ### Peers of a connection -/

/-- The ends of a net outside an instance. -/
def otherPeers (peers : List Peer) (muxInst : String) : List Peer :=
  peers.filter (·.inst != muxInst)

/-- The ends that count: those that are no noise, or all if there are none. -/
def chosenPeers (others : List Peer) : List Peer :=
  if ∃ x ∈ others, isNoise x.inst = false then others.filter fun x => !isNoise x.inst else others

theorem peerInfo_eq (peers : List Peer) (muxInst : String) : peerInfo peers muxInst =
    ((chosenPeers (otherPeers peers muxInst)).head?.map fun x =>
        x.inst ++ "." ++ dropDirection x.port,
      chosenPeers (otherPeers peers muxInst)) := by
  have hchosen : chosenPeers (otherPeers peers muxInst) =
      if ((otherPeers peers muxInst).filter fun x => !isNoise x.inst) ≠ [] then
        (otherPeers peers muxInst).filter fun x => !isNoise x.inst
      else otherPeers peers muxInst := by
    rw [chosenPeers]
    congr 1
    simp [List.filter_eq_nil_iff]
  generalize chosenPeers (otherPeers peers muxInst) = chosen at hchosen
  rw [otherPeers] at hchosen
  rw [peerInfo, ← hchosen]
  cases chosen <;> rfl

end AximuxSystem.Tool
