import AximuxSystem.Hardware.Datapath
import AximuxSystem.Tool.Connections

/-!
# Ports of a generated core

`generator/mux_gen.py` names the ports of a core after the signal, the kind and
the alternate they serve, and `PORT_RE` of the tool takes the names apart again.
So the record of a module that instantiates a core has every connection of the
module, within the bounds of the core. The ports of the bus interface come from
outside; their names begin with the name the generator gives the interface.
-/

namespace AximuxSystem.Tool

open Collections Text Element Hardware

/-! ### Names of the ports -/

inductive Direction where
  | input | output
  deriving DecidableEq, Repr

structure ModulePort where
  name : String
  direction : Direction
  size : ℕ
  deriving DecidableEq, Repr

/-- `f"sig{sig}{kind}{alt}"` -/
def portName (sig : ℕ) (kind : Kind) (alt : ℕ) : String :=
  "sig" ++ toString sig ++ kind.text ++ toString alt

def Kind.direction : Kind → Direction
  | incoming => .output
  | outgoing => .input
  | ctl => .input

/-- The ports of one kind: `ctl` for `dir_ports`, the other two under their own names. -/
def kindPorts (core : Core) (kind : Kind) : List ModulePort :=
  (List.range core.muxSignals).flatMap fun sig =>
    core.alternates.map fun alt => ⟨portName sig kind alt, kind.direction, 1⟩

/-- The ports of `axi_mux`; `bus` are those of `AXI4LiteSlaveIf.instantiate("s_axi", ...)`. -/
def corePorts (core : Core) (bus : List ModulePort) : List ModulePort :=
  bus ++
    [⟨"sig_in", .input, core.muxSignals⟩, ⟨"sig_out", .output, core.muxSignals⟩,
      ⟨"sig_dir", .output, core.muxSignals⟩] ++
    kindPorts core .ctl ++ kindPorts core .incoming ++ kindPorts core .outgoing

theorem Kind.text_head (kind : Kind) (rest : List Char) :
    ∀ c ∈ (kind.text.toList ++ rest).head?, isDecimal c = false := by
  intro c hc
  cases kind with
  | incoming =>
    obtain rfl : 'i' = c := Option.some.inj hc
    decide
  | outgoing =>
    obtain rfl : 'o' = c := Option.some.inj hc
    decide
  | ctl =>
    obtain rfl : 'c' = c := Option.some.inj hc
    decide

/-- No kind is the beginning of another one. -/
theorem Kind.find_text (kind : Kind) (rest : List Char) :
    ([Kind.incoming, .outgoing, .ctl].find? fun k =>
      k.text.toList.isPrefixOf (kind.text.toList ++ rest)) = some kind := by
  cases kind <;> rfl

/-- A name without a final newline is the whole match. -/
theorem splitFinalNewline_of_last {cs : List Char} (h : cs.getLast? ≠ some '\n') :
    splitFinalNewline cs = (cs, []) := if_neg h

theorem portName_toList (sig : ℕ) (kind : Kind) (alt : ℕ) : (portName sig kind alt).toList =
    "sig".toList ++ ((toString sig).toList ++ (kind.text.toList ++ (toString alt).toList)) := by
  simp only [portName, String.toList_append, List.append_assoc]

theorem portName_last (sig : ℕ) (kind : Kind) (alt : ℕ) :
    (portName sig kind alt).toList.getLast? ≠ some '\n' := by
  rw [portName, String.toList_append, List.getLast?_append_of_ne_nil _ (toString_ne_nil alt)]
  intro hlast
  exact absurd (isDigit_of_mem_toString (List.mem_of_getLast? hlast)) (by decide)

/-- The tool reads in the name of a port what the generator wrote into it. -/
@[simp] theorem decodePort_portName (sig : ℕ) (kind : Kind) (alt : ℕ) :
    decodePort (portName sig kind alt) = some (sig, kind, alt) := by
  obtain ⟨hpin, htail⟩ := splitDigits_toString (kind.text_head (toString alt).toList) sig
  have hstart : "sig".toList.isPrefixOf (portName sig kind alt).toList = true := by
    rw [portName_toList, List.isPrefixOf_iff_prefix]
    exact List.prefix_append _ _
  have hrest : (portName sig kind alt).toList.drop 3 =
      (toString sig).toList ++ (kind.text.toList ++ (toString alt).toList) := by
    rw [portName_toList]
    rfl
  have halt : (kind.text.toList ++ (toString alt).toList).drop kind.text.length =
      (toString alt).toList := List.drop_left' (String.length_toList)
  have hdigits : (toString alt).toList.all isDecimal = true :=
    List.all_eq_true.mpr fun c hc => isDecimal_of_mem_toString hc
  rw [decodePort, splitFinalNewline_of_last (portName_last sig kind alt)]
  simp only [hstart, hrest, hpin, htail, kind.find_text, halt, if_true]
  rw [if_pos ⟨toString_ne_nil sig, toString_ne_nil alt, hdigits⟩, decimalValue_toString,
    decimalValue_toString]

theorem decodePort_of_bus {name : String} (h : startsWith name "s_axi" = true) :
    decodePort name = none := by
  obtain ⟨rest, hrest⟩ := List.isPrefixOf_iff_prefix.mp h
  have hbody : (splitFinalNewline name.toList).1 = name.toList ∨
      (splitFinalNewline name.toList).1 = name.toList.dropLast := by
    rw [splitFinalNewline]
    split_ifs
    · exact .inr rfl
    · exact .inl rfl
  have hno : "sig".toList.isPrefixOf (splitFinalNewline name.toList).1 = false := by
    rcases hbody with hbody | hbody
    · rw [hbody, ← hrest]
      rfl
    · rw [hbody, ← hrest, List.dropLast_append]
      split_ifs <;> rfl
  simp only [decodePort, hno, Bool.false_eq_true, if_false]

section Decode

variable {core : Core} {bus : List ModulePort} {name : String} {sig alt : ℕ} {kind : Kind}

theorem mem_kindPorts : name ∈ (kindPorts core kind).map ModulePort.name ↔
    ∃ sig < core.muxSignals, ∃ alt ≤ core.altSignals, name = portName sig kind alt := by
  simp only [kindPorts, Core.alternates, List.mem_map, List.mem_flatMap, List.mem_range,
    Nat.lt_succ_iff]
  constructor
  · rintro ⟨_, ⟨sig, hsig, alt, halt, rfl⟩, rfl⟩
    exact ⟨sig, hsig, alt, halt, rfl⟩
  · rintro ⟨sig, hsig, alt, halt, rfl⟩
    exact ⟨_, ⟨sig, hsig, alt, halt, rfl⟩, rfl⟩

/-- Among the ports of a core, a place is read in the name of its own port only. -/
theorem decode_corePort (hbus : ∀ port ∈ bus, startsWith port.name "s_axi" = true)
    (hname : name ∈ (corePorts core bus).map ModulePort.name)
    (hplace : decodePort name = some (sig, kind, alt)) :
    name = portName sig kind alt ∧ sig < core.muxSignals ∧ alt ≤ core.altSignals := by
  have hkind : ∀ k, name ∈ (kindPorts core k).map ModulePort.name →
      name = portName sig kind alt ∧ sig < core.muxSignals ∧ alt ≤ core.altSignals := by
    intro k hk
    obtain ⟨sig', hsig, alt', halt, rfl⟩ := mem_kindPorts.mp hk
    rw [decodePort_portName] at hplace
    cases hplace
    exact ⟨rfl, hsig, halt⟩
  simp only [corePorts, List.map_append, List.mem_append] at hname
  obtain (((hname | hname) | hname) | hname) | hname := hname
  · obtain ⟨port, hport, rfl⟩ := List.mem_map.mp hname
    rw [decodePort_of_bus (hbus port hport)] at hplace
    cases hplace
  · have hother : ∀ n ∈ ["sig_in", "sig_out", "sig_dir"], decodePort n = none := by decide
    rw [hother name hname] at hplace
    cases hplace
  · exact hkind .ctl hname
  · exact hkind .incoming hname
  · exact hkind .outgoing hname

end Decode

/-! ### Records of instances -/

/-- The element at `p` is a port of the module at `m`. -/
def IsPortOf (root : Element) (m p : Path) (port : Element) : Prop :=
  root.find p = some port ∧ port.tag = "PORT" ∧ NearestModule root p m

/-- Every port of the module at `m` is one of the list, and no two are the same. -/
structure Instantiates (ports : List ModulePort) (root : Element) (m : Path) : Prop where
  declared : ∀ p port, IsPortOf root m p port →
    port.getOrEmpty "NAME" ∈ ports.map ModulePort.name
  distinct : ∀ p p' port port', IsPortOf root m p port → IsPortOf root m p' port' →
    port.getOrEmpty "NAME" = port'.getOrEmpty "NAME" → p = p'

/-- A port of the module at `m` for the place is on net `s`. -/
def Connects (root : Element) (m : Path) (sig : ℕ) (kind : Kind) (alt : ℕ) (s : String) : Prop :=
  ∃ p port, IsPortOf root m p port ∧ port.getOrEmpty "NAME" = portName sig kind alt ∧
    port.getOrEmpty "SIGNAME" = s ∧ s ≠ ""

/-- All ports of a module are met in the traversal of the module. -/
theorem instantiates_of_nodup {ports : List ModulePort} {root : Element} {m : Path × Element}
    (hm : root.find m.1 = some m.2)
    (hnames : ∀ p ∈ m.2.iter m.1 "PORT", p.2.getOrEmpty "NAME" ∈ ports.map ModulePort.name)
    (hnodup : ((m.2.iter m.1 "PORT").map fun p => p.2.getOrEmpty "NAME").Nodup) :
    Instantiates ports root m.1 := by
  have hmem : ∀ p port, IsPortOf root m.1 p port → (p, port) ∈ m.2.iter m.1 "PORT" :=
    fun p port h => (mem_iter_at hm).mpr ⟨h.2.2.above.suffix, h.1, h.2.1⟩
  constructor
  · exact fun p port h => hnames _ (hmem p port h)
  · intro p p' port port' h h' hname
    exact congrArg Prod.fst
      (List.inj_on_of_nodup_map hnodup (hmem p port h) (hmem p' port' h') hname)

section Record

variable {core : Core} {bus : List ModulePort} {root : Element} {m : Path × Element}
  {sig alt : ℕ} {kind : Kind} {s : String}
  (hbus : ∀ port ∈ bus, startsWith port.name "s_axi" = true)
  (hinst : Instantiates (corePorts core bus) root m.1)

include hbus hinst

theorem Instantiates.portAt {p : Path} (h : PortAt root m.1 p (sig, kind, alt) s) :
    ∃ port, IsPortOf root m.1 p port ∧ port.getOrEmpty "NAME" = portName sig kind alt ∧
      port.getOrEmpty "SIGNAME" = s ∧ s ≠ "" ∧ sig < core.muxSignals ∧ alt ≤ core.altSignals := by
  obtain ⟨port, hfound, htag, hnear, hplace, hnet, hne⟩ := h
  have hport : IsPortOf root m.1 p port := ⟨hfound, htag, hnear⟩
  obtain ⟨hname, hsig, halt⟩ := decode_corePort hbus (hinst.declared p port hport) hplace
  exact ⟨port, hport, hname, hnet, hne, hsig, halt⟩

theorem Instantiates.onePortEach : OnePortEach root m.1 := by
  rintro ⟨sig, kind, alt⟩ p p' s s' h h'
  obtain ⟨port, hport, hname, -⟩ := hinst.portAt hbus h
  obtain ⟨port', hport', hname', -⟩ := hinst.portAt hbus h'
  exact hinst.distinct p p' port port' hport hport' (hname.trans hname'.symm)

/-- The places of the record that have a net are those of connected ports. -/
theorem Instantiates.lastOf_iff (hm : root.find m.1 = some m.2) :
    Grouping.lastOf (sig, kind, alt) (connections (portsOfModule root m).items) = some s ↔
      Connects root m.1 sig kind alt s := by
  rw [lastOf_connections hm (hinst.onePortEach hbus)]
  constructor
  · rintro ⟨p, h⟩
    obtain ⟨port, hport, hname, hnet, hne, -⟩ := hinst.portAt hbus h
    exact ⟨p, port, hport, hname, hnet, hne⟩
  · rintro ⟨p, port, ⟨hfound, htag, hnear⟩, hname, hnet, hne⟩
    exact ⟨p, port, hfound, htag, hnear, by rw [hname, decodePort_portName], hnet, hne⟩

theorem Instantiates.bounds (hm : root.find m.1 = some m.2) {c : (ℕ × Kind × ℕ) × String}
    (hc : c ∈ connections (portsOfModule root m).items) :
    c.1.1 < core.muxSignals ∧ c.1.2.2 ≤ core.altSignals := by
  obtain ⟨⟨sig, kind, alt⟩, s⟩ := c
  obtain ⟨p, h⟩ := portAt_of_mem hm hc
  obtain ⟨port, -, -, -, -, hsig, halt⟩ := hinst.portAt hbus h
  exact ⟨hsig, halt⟩

end Record

/-! ### Pins and slots of a record -/

section Places

variable {root : Element} {m : Path × Element} {i a : ℕ}

/-- The record has the pins of the connections. -/
theorem mem_indices : i ∈ (moduleRecord root m).pins.map Pin.index ↔
    ∃ c ∈ connections (portsOfModule root m).items, c.1.1 = i := by
  have hindices : (moduleRecord root m).pins.map Pin.index = (collectPins (signameIndex root)
      (m.2.getOrEmpty "INSTANCE") (portsOfModule root m)).sortedItems.map Prod.fst := by
    rw [moduleRecord, Mux.ofPins, List.map_map]
    rfl
  rw [hindices, ((Dict.perm_sortedItems _).map Prod.fst).mem_iff, collectPins_eq]
  exact mem_keys_foldl_modify

theorem exists_slotAt {sidx : Dict String (List Peer)} {inst : String}
    {cs : List ((ℕ × Kind × ℕ) × String)} :
    (∃ slot, slotAt (cs.foldl (connectAt sidx inst) Dict.empty) i a = some slot) ↔
      ∃ c ∈ cs, c.1.1 = i ∧ c.1.2.2 = a := by
  induction cs using List.reverseRecOn with
  | nil => simp [slotAt]
  | append_singleton cs c ih =>
    rw [List.foldl_concat, slotAt_connectAt]
    by_cases hc : i = c.1.1 ∧ a = c.1.2.2
    · rw [if_pos hc]
      exact ⟨fun _ => ⟨c, by simp, hc.1.symm, hc.2.symm⟩, fun _ => ⟨_, rfl⟩⟩
    · have hlast : ¬ (c.1.1 = i ∧ c.1.2.2 = a) := fun h => hc ⟨h.1.symm, h.2.symm⟩
      rw [if_neg hc, ih]
      simp [or_and_right, exists_or, hlast]

/-- A pin of the record has the alternates of its connections. -/
theorem mem_alts {pin : Pin} (hpin : pin ∈ (moduleRecord root m).pins) :
    a ∈ pin.alts.map Slot.alt ↔
      ∃ c ∈ connections (portsOfModule root m).items, c.1.1 = pin.index ∧ c.1.2.2 = a := by
  have hslots : (∃ slot, slotAt (collectPins (signameIndex root) (m.2.getOrEmpty "INSTANCE")
      (portsOfModule root m)) pin.index a = some slot) ↔
      ∃ c ∈ connections (portsOfModule root m).items, c.1.1 = pin.index ∧ c.1.2.2 = a := by
    rw [collectPins_eq]
    exact exists_slotAt
  rw [← hslots, List.mem_map]
  constructor
  · rintro ⟨slot, hslot, rfl⟩
    exact ⟨slot, mem_slots.mp ⟨pin, hpin, rfl, hslot⟩⟩
  · rintro ⟨slot, hslot⟩
    obtain rfl := slotAt_alt hslot
    obtain ⟨pin', hpin', hindex, hmem⟩ := mem_slots.mpr hslot
    obtain rfl := List.inj_on_of_nodup_map (moduleRecord root m).indices_nodup hpin' hpin hindex
    exact ⟨slot, hmem, rfl⟩

end Places

section Bounds

variable {core : Core} {bus : List ModulePort} {root : Element} {m : Path × Element}
  (hbus : ∀ port ∈ bus, startsWith port.name "s_axi" = true)
  (hinst : Instantiates (corePorts core bus) root m.1) (hm : root.find m.1 = some m.2)

include hbus hinst hm

theorem Instantiates.index_lt {pin : Pin} (hpin : pin ∈ (moduleRecord root m).pins) :
    pin.index < core.muxSignals := by
  obtain ⟨c, hc, hindex⟩ := mem_indices.mp (List.mem_map_of_mem hpin)
  exact hindex ▸ (hinst.bounds hbus hm hc).1

theorem Instantiates.alt_le {pin : Pin} (hpin : pin ∈ (moduleRecord root m).pins) {slot : Slot}
    (hslot : slot ∈ pin.alts) : slot.alt ≤ core.altSignals := by
  obtain ⟨c, hc, -, halt⟩ := (mem_alts hpin).mp (List.mem_map_of_mem hslot)
  exact halt ▸ (hinst.bounds hbus hm hc).2

theorem Instantiates.carries_iff {sig alt : ℕ} {kind : Kind} {s : String} :
    (moduleRecord root m).Carries (sig, kind, alt) s ↔ Connects root m.1 sig kind alt s :=
  carries_moduleRecord.trans (hinst.lastOf_iff hbus hm)

theorem Instantiates.exists_connection {sig alt : ℕ} {kind : Kind} {s : String}
    (h : Connects root m.1 sig kind alt s) :
    ∃ c ∈ connections (portsOfModule root m).items, c.1.1 = sig ∧ c.1.2.2 = alt :=
  ⟨_, Grouping.mem_of_lastOf ((hinst.lastOf_iff hbus hm).mpr h), rfl, rfl⟩

end Bounds

/-- The record of a module that instantiates a core stays within the core and has exactly the
connections of the module; if every port of the core is on a net, nothing is missing in it. -/
theorem core_record_exact (core : Core) {bus : List ModulePort}
    (hbus : ∀ port ∈ bus, startsWith port.name "s_axi" = true) {root : Element}
    {m : Path × Element} (hm : m ∈ muxModules root)
    (hinst : Instantiates (corePorts core bus) root m.1) : ∃ mux ∈ parseMuxes root,
    mux.inst = m.2.getOrEmpty "INSTANCE" ∧
    (∀ pin ∈ mux.pins, pin.index < core.muxSignals ∧
      ∀ slot ∈ pin.alts, slot.alt ≤ core.altSignals) ∧
    (∀ sig kind alt s, mux.Carries (sig, kind, alt) s ↔ Connects root m.1 sig kind alt s) ∧
    ((∀ sig < core.muxSignals, ∀ kind, ∀ alt ≤ core.altSignals,
        ∃ s, Connects root m.1 sig kind alt s) →
      mux.pins.map Pin.index = List.range core.muxSignals ∧
      ∀ pin ∈ mux.pins, pin.alts.map Slot.alt = List.range (core.altSignals + 1)) := by
  have hfind := (mem_muxModules.mp hm).1
  refine ⟨_, mem_parseMuxes.mpr ⟨m, hm, rfl⟩, rfl, fun pin hpin =>
    ⟨hinst.index_lt hbus hfind hpin, fun slot hslot => hinst.alt_le hbus hfind hpin hslot⟩,
    fun sig kind alt s => hinst.carries_iff hbus hfind, fun hall => ?_⟩
  have hplace : ∀ sig < core.muxSignals, ∀ alt ≤ core.altSignals,
      ∃ c ∈ connections (portsOfModule root m).items, c.1.1 = sig ∧ c.1.2.2 = alt := by
    intro sig hsig alt halt
    obtain ⟨s, hs⟩ := hall sig hsig .incoming alt halt
    exact hinst.exists_connection hbus hfind hs
  have hrange : ∀ n, (List.range n).Pairwise (· < ·) := fun n => List.pairwise_lt_range
  refine ⟨(moduleRecord root m).increasing.eq_of_mem_iff (hrange _) fun i => ?_, fun pin hpin =>
    pin.increasing.eq_of_mem_iff (hrange _) fun a => ?_⟩
  · rw [mem_indices, List.mem_range]
    constructor
    · rintro ⟨c, hc, rfl⟩
      exact (hinst.bounds hbus hfind hc).1
    · intro hi
      obtain ⟨c, hc, hindex, -⟩ := hplace i hi 0 (Nat.zero_le _)
      exact ⟨c, hc, hindex⟩
  · rw [mem_alts hpin, List.mem_range, Nat.lt_succ_iff]
    constructor
    · rintro ⟨c, hc, -, rfl⟩
      exact (hinst.bounds hbus hfind hc).2
    · exact fun ha => hplace pin.index (hinst.index_lt hbus hfind hpin) a ha

/-- A core of one signal with one alternate. -/
def smallestCore : Core where
  muxSignals := 1
  altSignals := 1
  altSignalSize := 1
  muxSignals_pos := by decide
  muxSignals_le := by decide
  altSignals_pos := by decide
  altSignals_le := by decide
  altSignals_lt := by decide
  altSignalSize_le := by decide

def sampleBus : List ModulePort := [⟨"s_axi_awaddr", .input, 8⟩, ⟨"s_axi_awvalid", .input, 1⟩]

/-- An instance of the smallest core with every port on a net of its own. -/
def smallestInstance : Element :=
  sampleModule "axi_mux_0" "aximux"
    ((corePorts smallestCore sampleBus).map fun port => (port.name, "net_" ++ port.name))

def smallestDesign : Element := .mk "EDKSYSTEM" [] [smallestInstance]

theorem smallest_instantiates :
    Instantiates (corePorts smallestCore sampleBus) smallestDesign [0] :=
  instantiates_of_nodup (m := ([0], smallestInstance)) rfl (by decide +kernel) (by decide +kernel)

theorem core_record_exact_sample : ∃ mux ∈ parseMuxes smallestDesign,
    mux.Carries (0, .outgoing, 1) "net_sig0outgoing1" ∧ mux.pins.map Pin.index = [0] ∧
      ∀ pin ∈ mux.pins, pin.alts.map Slot.alt = [0, 1] := by
  have hbus : ∀ port ∈ sampleBus, startsWith port.name "s_axi" = true := by decide
  have hmux : ([0], smallestInstance) ∈ muxModules smallestDesign :=
    mem_muxModules.mpr ⟨rfl, rfl, by decide +kernel⟩
  obtain ⟨mux, hmem, -, -, hcarries, hall⟩ :=
    core_record_exact smallestCore hbus hmux smallest_instantiates
  have hconnects : ∀ sig kind alt s, Grouping.lastOf (sig, kind, alt)
      (connections (portsOfModule smallestDesign ([0], smallestInstance)).items) = some s →
        Connects smallestDesign [0] sig kind alt s :=
    fun sig kind alt s => (smallest_instantiates.lastOf_iff hbus rfl).mp
  obtain ⟨hpins, halts⟩ := hall fun sig hsig kind alt halt => by
    have hlast : (Grouping.lastOf (sig, kind, alt) (connections
        (portsOfModule smallestDesign ([0], smallestInstance)).items)).isSome = true := by
      obtain rfl : sig = 0 := Nat.lt_one_iff.mp hsig
      have hcases : ∀ alt < 2, (Grouping.lastOf (0, kind, alt) (connections
          (portsOfModule smallestDesign ([0], smallestInstance)).items)).isSome = true := by
        cases kind <;> decide +kernel
      exact hcases alt (Nat.lt_succ_of_le halt)
    obtain ⟨s, hs⟩ := Option.isSome_iff_exists.mp hlast
    exact ⟨s, hconnects sig kind alt s hs⟩
  exact ⟨mux, hmem, (hcarries _ _ _ _).mpr (hconnects _ _ _ _ (by decide +kernel)), hpins, halts⟩

end AximuxSystem.Tool
