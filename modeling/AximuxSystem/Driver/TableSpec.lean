import AximuxSystem.Driver.Probe
import AximuxSystem.Foundation.Grouping

/-!
# What the tables are for a device tree

The tables are described as functions of the children of the controller node:
which children are pins and groups, what each contributes, and which rows the
function table groups by name. The table code computes this description, unless
an allocation request is declined.
-/

namespace AximuxSystem.Driver

open Fallible

/-! ### Description -/

/-- The child is counted and filled in by the two passes of `aximux_parse_pins`. -/
def isPinNode (child : OfNode) : Bool :=
  child.available && !child.findProperty "brunosmmm,pins" && (child.readU32 "reg").isOk

theorem isPinNode_eq_true {child : OfNode} :
    isPinNode child = true ↔ child.available = true ∧
      child.findProperty "brunosmmm,pins" = false ∧ ∃ reg, child.readU32 "reg" = .ok reg := by
  cases h : child.readU32 "reg" <;> simp [isPinNode, h, Except.isOk, Except.toBool]

def pinNodes (np : List OfNode) : List OfNode := np.filter isPinNode

/-- Why an available child is no pin. -/
theorem not_pin_cases {child : OfNode} (ha : child.available = true) (h : ¬ isPinNode child) :
    child.findProperty "brunosmmm,pins" = true ∨ ∃ e, child.readU32 "reg" = .error e := by
  rw [isPinNode_eq_true] at h
  by_cases hf : child.findProperty "brunosmmm,pins"
  · exact .inl hf
  · cases hreg : child.readU32 "reg" with
    | error e => exact .inr ⟨e, rfl⟩
    | ok reg => exact absurd ⟨ha, by simpa using hf, reg, hreg⟩ h

theorem countPin_of_not_pin {child : OfNode} (h : ¬ isPinNode child) (i : ℕ)
    (ha : child.available = true) : countPin i child () = pure () := by
  rcases not_pin_cases ha h with hf | ⟨e, he⟩
  · rw [countPin, if_pos hf]
  · rw [countPin, he]
    exact ite_self _

theorem fillPin_of_not_pin {child : OfNode} (h : ¬ isPinNode child) (hwPins i idx : ℕ)
    (ha : child.available = true) : fillPin hwPins i child idx = pure idx := by
  rcases not_pin_cases ha h with hf | ⟨e, he⟩
  · rw [fillPin, if_pos hf]
  · rw [fillPin, he]
    exact ite_self _

/-- The function names a pin child lists, or the error reading them ends with. -/
def nodeNames (child : OfNode) : Except Errno (List String) :=
  match namesProp child with
  | none => .ok []
  | some prop => do
    let n ← child.countStrings prop
    match child.readStringArray prop n with
    | .ok names => .ok names.toList
    | .error _ => .error .EINVAL

def pinEntry (hwPins : ℕ) (child : OfNode) : Except Errno AximuxPin := do
  let reg ← child.readU32 "reg"
  if reg ≥ hwPins then .error .EINVAL
  else do
    let names ← nodeNames child
    .ok ⟨reg, pinName reg, names.length, names⟩

/-- The pin of a controller node without pin children. -/
def defaultEntry (idx : ℕ) : AximuxPin := ⟨idx, pinName idx, 0, []⟩

def pinTable (hwPins : ℕ) (np : List OfNode) : Except Errno (List AximuxPin) :=
  if pinNodes np = [] then .ok ((List.range hwPins).map defaultEntry)
  else if (pinNodes np).length > hwPins then .error .EINVAL
  else (pinNodes np).mapM (pinEntry hwPins)

theorem pinEntry_eq_ok {hwPins : ℕ} {child : OfNode} {pin : AximuxPin} :
    pinEntry hwPins child = .ok pin ↔ ∃ reg names, child.readU32 "reg" = .ok reg ∧ reg < hwPins ∧
      nodeNames child = .ok names ∧ pin = ⟨reg, pinName reg, names.length, names⟩ := by
  unfold pinEntry
  rw [bind_eq_ok]
  refine exists_congr fun reg => ?_
  by_cases hreg : reg < hwPins
  · rw [if_neg (by omega), bind_eq_ok]
    simp only [Except.ok.injEq, hreg, true_and, exists_and_left, eq_comm]
  · rw [if_pos (by omega)]
    simp [hreg]

/-- What every entry of the pin table is like. -/
theorem pinTable_entry {hwPins : ℕ} {np : List OfNode} {pins : List AximuxPin}
    (h : pinTable hwPins np = .ok pins) {pin : AximuxPin} (hpin : pin ∈ pins) :
    pin.number < hwPins ∧ pin.name = pinName pin.number ∧ pin.nfuncs = pin.funcNames.length := by
  unfold pinTable at h
  split_ifs at h
  · cases h
    obtain ⟨idx, hidx, rfl⟩ := List.mem_map.mp hpin
    exact ⟨List.mem_range.mp hidx, rfl, rfl⟩
  · obtain ⟨child, -, hentry⟩ := exists_of_mem_mapM h hpin
    obtain ⟨reg, names, -, hreg, -, rfl⟩ := pinEntry_eq_ok.mp hentry
    exact ⟨hreg, rfl, rfl⟩

theorem pinTable_length {hwPins : ℕ} {np : List OfNode} {pins : List AximuxPin}
    (h : pinTable hwPins np = .ok pins) (hpos : 0 < hwPins) :
    0 < pins.length ∧ pins.length ≤ hwPins := by
  unfold pinTable at h
  split_ifs at h with hnone hmany
  · cases h
    simpa using hpos
  · rw [← (mapM_eq_ok.mp h).length_eq]
    exact ⟨List.length_pos_iff.mpr hnone, not_lt.mp hmany⟩

def AximuxPin.desc (pin : AximuxPin) : PinDesc := ⟨pin.number, pin.name⟩

/-- The one-pin group every pin gets. -/
def AximuxPin.group (pin : AximuxPin) : AximuxGroup := ⟨pin.name, [pin.number], 1⟩

/-- A call of `aximux_add_function`: function name, group name, source values. -/
abbrev FunctionRow := String × String × List ℕ

def AximuxPin.rows (pin : AximuxPin) : List FunctionRow :=
  pin.funcNames.zipIdx.map fun p => (p.1, pin.name, [p.2])

/-- Number of entries of `brunosmmm,pins`; zero if they cannot be counted. -/
def groupSize (child : OfNode) : ℕ :=
  match child.countStrings "brunosmmm,pins" with
  | .ok n => n
  | .error _ => 0

theorem countStrings_of_groupSize {child : OfNode} (h : groupSize child ≠ 0) :
    ∃ n, groupSize child = n + 1 ∧ child.countStrings "brunosmmm,pins" = .ok (n + 1) := by
  unfold groupSize at h ⊢
  cases hcount : child.countStrings "brunosmmm,pins" with
  | error e => simp [hcount] at h
  | ok n =>
    obtain ⟨m, rfl⟩ := Nat.exists_eq_succ_of_ne_zero (by simpa [hcount] using h)
    exact ⟨m, rfl, rfl⟩

/-- A child without countable pins is passed over. -/
theorem extraGroup_of_groupSize {child : OfNode} (h : groupSize child = 0) (i : ℕ) :
    extraGroup i child () = pure () := by
  unfold extraGroup
  unfold groupSize at h
  cases hcount : child.countStrings "brunosmmm,pins" with
  | error e => rfl
  | ok n =>
    rw [hcount] at h
    rw [show n = 0 from h]

def isGroupNode (child : OfNode) : Bool := child.available && decide (groupSize child ≠ 0)

def groupNodes (np : List OfNode) : List OfNode := np.filter isGroupNode

def findPin (pins : List AximuxPin) (name : String) : Except Errno ℕ :=
  match pins.find? (·.name == name) with
  | some pin => .ok pin.number
  | none => .error .EINVAL

def groupPins (pins : List AximuxPin) (child : OfNode) : Except Errno (List ℕ) :=
  (List.range (groupSize child)).mapM fun j => do
    let pname ← child.readStringIndex "brunosmmm,pins" j
    findPin pins pname

/-- An extra group as `aximux_parse_extra_groups` registers it. -/
structure ExtraGroup where
  name : String
  function : String
  pins : List ℕ
  vals : List ℕ
  sameLength : vals.length = pins.length

def ExtraGroup.group (grp : ExtraGroup) : AximuxGroup := ⟨grp.name, grp.pins, grp.pins.length⟩

def ExtraGroup.row (grp : ExtraGroup) : FunctionRow := (grp.function, grp.name, grp.vals)

theorem groupMux_length (child : OfNode) (n : ℕ) : (groupMux child n).length = n := by
  unfold groupMux
  cases child.readU32Array "brunosmmm,mux" n <;> simp

def extraEntry (pins : List AximuxPin) (child : OfNode) : Except Errno ExtraGroup := do
  let members ← groupPins pins child
  .ok ⟨child.name, groupFunction child, members, groupMux child members.length,
    groupMux_length child members.length⟩

def extraTable (pins : List AximuxPin) (np : List OfNode) : Except Errno (List ExtraGroup) :=
  (groupNodes np).mapM (extraEntry pins)

/-- A function with its rows side by side instead of in parallel arrays. -/
def functionOf (entry : String × List (String × List ℕ)) : AximuxFunction :=
  ⟨entry.1, entry.2.map Prod.fst, entry.2.map Prod.snd, entry.2.map fun row => row.2.length⟩

/-- The function table after a history of `aximux_add_function` calls. -/
def functionTable (rows : List FunctionRow) : List AximuxFunction :=
  (Grouping.addAll [] rows).map functionOf

def altLimit (hwAlts : ℕ) : ℕ :=
  if hwAlts = 0 ∨ hwAlts > aximuxMaxAlts then aximuxMaxAlts else hwAlts

/-- The driver structure for given pins and extra groups. -/
def assemble (nalts : ℕ) (pins : List AximuxPin) (extra : List ExtraGroup) : Aximux where
  npins := pins.length
  nalts := nalts
  pins := pins
  pindescs := pins.map AximuxPin.desc
  groups := pins.map AximuxPin.group ++ extra.map ExtraGroup.group
  functions := functionTable (pins.flatMap AximuxPin.rows ++ extra.map ExtraGroup.row)

/-- The tables of a controller node whose MUXINFO reads `info`. -/
def tables (info : BitVec 32) (np : List OfNode) : Except Errno Aximux :=
  if infoPins info = 0 ∨ infoPins info > aximuxMaxPins then .error .EINVAL
  else do
    let pins ← pinTable (infoPins info) np
    let extra ← extraTable pins np
    .ok (assemble (altLimit (infoAlts info)) pins extra)

/-- The tables of the sample tree on a core with eight pins and four alternates. -/
def sampleTables : Aximux where
  npins := 2
  nalts := 4
  pins := [⟨0, "pin0", 2, ["gpio", "spi"]⟩, ⟨2, "pin2", 2, ["gpio", "uart"]⟩]
  pindescs := [⟨0, "pin0"⟩, ⟨2, "pin2"⟩]
  groups := [⟨"pin0", [0], 1⟩, ⟨"pin2", [2], 1⟩, ⟨"serial", [2, 0], 2⟩]
  functions :=
    [⟨"gpio", ["pin0", "pin2"], [[0], [0]], [1, 1]⟩,
     ⟨"spi", ["pin0"], [[1]], [1]⟩,
     ⟨"uart", ["pin2", "serial"], [[1], [1, 0]], [1, 2]⟩]

theorem tables_sample : tables 0x408 sampleNodes = .ok sampleTables := by decide +kernel

/-! ### The table code computes the description -/

/-- A declined allocation request excuses `-ENOMEM`. -/
def Declined (served : ℕ → Bool) (e : Stop) : Prop := e = .errno .ENOMEM ∧ ∃ i, served i = false

theorem not_declined {served : ℕ → Bool} (hserved : ∀ i, served i = true) (e : Stop) :
    ¬ Declined served e := by
  rintro ⟨-, i, hi⟩
  exact Bool.false_ne_true (hi.symm.trans (hserved i))

/-- What a probe step does to the driver structure, up to declined allocations. -/
abbrev Builds {α : Type} (m : Probe α) (amx : Aximux) (r : Except Stop (α × Aximux)) : Prop :=
  Tracks Kernel.amx Kernel.served Declined m amx r

namespace Builds

variable {α : Type} {amx : Aximux}

/-- An allocation whose failure makes the code clean up with `d` and return `-ENOMEM`. -/
theorem tryAlloc {k d : Probe α} {r : Except Stop (α × Aximux)} (count : ℕ) (hk : Builds k amx r)
    (hd : ∀ s, (d s).1 = .error (.errno .ENOMEM) ∧ (d s).2.served = s.served) :
    Builds (kalloc count >>= fun ok => if ok then k else d) amx r := by
  intro s hs
  cases h : (List.range' s.allocs count).all s.served with
  | true =>
    have halloc : kalloc count s = (.ok true, { s with allocs := s.allocs + count }) := by
      rw [kalloc, h]
    rw [Comp.bind_of_ok halloc]
    exact hk _ hs
  | false =>
    have halloc : kalloc count s = (.ok false, { s with allocs := s.allocs + count }) := by
      rw [kalloc, h]
    obtain ⟨herr, hserved⟩ := hd { s with allocs := s.allocs + count }
    rw [Comp.bind_of_ok halloc]
    simp only [Bool.false_eq_true, if_false, herr]
    obtain ⟨i, -, hi⟩ := List.all_eq_false.mp h
    exact ⟨hserved, .inr ⟨rfl, i, by simpa using hi⟩⟩

theorem needAlloc {k : Probe α} {r : Except Stop (α × Aximux)} (count : ℕ) (hk : Builds k amx r) :
    Builds (needAlloc count >>= fun _ => k) amx r := by
  have hsplit : (Driver.needAlloc count >>= fun _ => k) =
      kalloc count >>= fun ok => if ok then k else Comp.throw (.errno .ENOMEM) := by
    rw [Driver.needAlloc, bind_assoc]
    congr 1
    funext ok
    cases ok <;> rfl
  rw [hsplit]
  exact tryAlloc count hk fun _ => ⟨rfl, rfl⟩

theorem getAmx : Builds getAmx amx (.ok (amx, amx)) := Tracks.get fun _ h => h

theorem updateAmx (f : Aximux → Aximux) : Builds (updateAmx f) amx (.ok ((), f amx)) :=
  Tracks.modify (fun _ => rfl) fun _ h => congrArg f h

theorem devErr (text : String) : Builds (devErr text) amx (.ok ((), amx)) :=
  Tracks.modify (fun _ => rfl) fun _ h => h

theorem ofNodeGet (i : ℕ) : Builds (ofNodeGet i) amx (.ok ((), amx)) :=
  Tracks.modify (fun _ => rfl) fun _ h => h

theorem ofNodePut (i : ℕ) : Builds (ofNodePut i) amx (.ok ((), amx)) :=
  Tracks.modify (fun _ => rfl) fun _ h => h

theorem storeAt {β : Type} (get : Aximux → List β) (set : Aximux → List β → Aximux) {i : ℕ}
    (f : β → β) (h : i < (get amx).length) :
    Builds (storeAt get set i f) amx (.ok ((), set amx ((get amx).modify i f))) := by
  refine getAmx.bind ?_
  rw [if_pos h]
  exact updateAmx _

theorem load {β : Type} {xs : List β} {i : ℕ} {x : β} (h : xs[i]? = some x) :
    Builds (load xs i) amx (.ok (x, amx)) := by
  rw [Driver.load, h]
  exact Tracks.pure x

end Builds

end AximuxSystem.Driver
