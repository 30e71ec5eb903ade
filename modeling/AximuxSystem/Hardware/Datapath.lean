import AximuxSystem.Hardware.SlaveMap

/-!
# Generated datapath

The statements `generator/mux_gen.py` adds to the module, as constraints on the
values of the wires. A multiplexer is constrained only where its select value
names one of its inputs; the ports of the slave carry the fields the register
map connects to them.
-/

namespace AximuxSystem.Hardware

open Registers

/-- Single-bit wires of the module; the bits of a vector port count on their own. -/
inductive Signal where
  | sigIn (mux : ℕ)
  | sigOut (mux : ℕ)
  | sigDir (mux : ℕ)
  | ctl (mux alt : ℕ)
  | incoming (mux alt : ℕ)
  | outgoing (mux alt : ℕ)
  | shortsel (mux : ℕ)
  | diren (mux : ℕ)
  | dirctl (mux : ℕ)
  | hwDirSig (mux : ℕ)
  | sigInBit (mux : ℕ)
  deriving DecidableEq, Repr

/-- What a multiplexer selects with and a slave port drives: a single bit, or the source select
wire of a signal. -/
inductive Select where
  | bit (sig : Signal)
  | srcsel (mux : ℕ)
  deriving DecidableEq, Repr

/-- A source select wire is declared with the same width as the source field. -/
def Select.size (core : Core) : Select → ℕ
  | bit _ => 1
  | srcsel _ => core.altSignalSize

structure Valuation (core : Core) where
  bit : Signal → Bool
  srcsel : ℕ → BitVec core.altSignalSize

def Valuation.value {core : Core} (v : Valuation core) : Select → ℕ
  | .bit sig => (v.bit sig).toNat
  | .srcsel mux => (v.srcsel mux).toNat

inductive Stmt where
  | assign (out src : Signal)
  | getMultiplexer (out : Signal) (sel : Select) (ins : List Signal)
  | incomingGen (incoming : Signal) (srcSel : Select) (shortSel sigInBit : Signal) (index : ℕ)
  | slavePort (port : Select) (reg : Register ℕ 32) (field : Field 32)

namespace Core

variable (core : Core)

def alternates : List ℕ := List.range (core.altSignals + 1)

def signalStmts (mux : ℕ) : List Stmt :=
  [.getMultiplexer (.hwDirSig mux) (.srcsel mux) (core.alternates.map (.ctl mux)),
    .getMultiplexer (.sigDir mux) (.bit (.diren mux)) [.hwDirSig mux, .dirctl mux],
    .getMultiplexer (.sigOut mux) (.srcsel mux) (core.alternates.map (.outgoing mux))] ++
  core.alternates.map fun idx =>
    .incomingGen (.incoming mux idx) (.srcsel mux) (.shortsel mux) (.sigInBit mux) idx

/-- The ports of the slave that `axi_mux` connects for one signal, with their sources. -/
def slavePorts (mux : ℕ) : List Stmt :=
  [.slavePort (.srcsel mux) (core.srcsel mux) core.src,
    .slavePort (.bit (.shortsel mux)) (core.srcsel mux) short,
    .slavePort (.bit (.diren mux)) (core.srcsel mux) dctl,
    .slavePort (.bit (.dirctl mux)) (core.srcsel mux) dir]

def axiMux : List Stmt :=
  ((List.range core.muxSignals).map fun mux => .assign (.sigInBit mux) (.sigIn mux)) ++
  (List.range core.muxSignals).flatMap core.signalStmts ++
  (List.range core.muxSignals).flatMap core.slavePorts

end Core

variable {core : Core}

/-- The wires satisfy the statement while the slave holds the register contents `s`. -/
def Stmt.Holds (s : RegFile ℕ 32) (v : Valuation core) : Stmt → Prop
  | assign out src => v.bit out = v.bit src
  | getMultiplexer out sel ins => ∀ x, ins[v.value sel]? = some x → v.bit out = v.bit x
  | incomingGen incoming srcSel shortSel sigInBit index =>
    v.bit incoming =
      if v.value srcSel = index then v.bit sigInBit
      else if v.bit shortSel then v.bit sigInBit else false
  | slavePort port reg field =>
    v.value port = (field.value (s reg.address)).toNat % 2 ^ port.size core

/-- The wires have settled: every statement of the module holds. -/
def Settled (core : Core) (s : RegFile ℕ 32) (v : Valuation core) : Prop :=
  ∀ st ∈ core.axiMux, st.Holds s v

section Wires

variable {s : RegFile ℕ 32} {v : Valuation core} {mux : ℕ}

theorem Settled.assign (h : Settled core s v) (hmux : mux < core.muxSignals) :
    v.bit (.sigInBit mux) = v.bit (.sigIn mux) :=
  h (.assign (.sigInBit mux) (.sigIn mux)) (List.mem_append_left _
    (List.mem_append_left _ (List.mem_map_of_mem (List.mem_range.mpr hmux))))

theorem Settled.signal (h : Settled core s v) (hmux : mux < core.muxSignals) (st : Stmt)
    (hst : st ∈ core.signalStmts mux) : st.Holds s v :=
  h st (List.mem_append_left _ (List.mem_append_right _
    (List.mem_flatMap.mpr ⟨mux, List.mem_range.mpr hmux, hst⟩)))

theorem Settled.port (h : Settled core s v) (hmux : mux < core.muxSignals) {port : Select}
    {f : Field 32} (hst : .slavePort port (core.srcsel mux) f ∈ core.slavePorts mux)
    (hsize : f.size = port.size core) : v.value port = (f.value (s (4 * mux))).toNat := by
  have hport := h _ (List.mem_append_right _
    (List.mem_flatMap.mpr ⟨mux, List.mem_range.mpr hmux, hst⟩))
  have hlt : (f.value (s (4 * mux))).toNat < 2 ^ port.size core :=
    lt_of_lt_of_eq (BitVec.isLt _) (congrArg (2 ^ ·) hsize)
  exact hport.trans (Nat.mod_eq_of_lt hlt)

/-- A single-bit port carries its bit of the register. -/
theorem Settled.bit (h : Settled core s v) (hmux : mux < core.muxSignals) (sig : Signal)
    (f : Field 32) (hf : f.hi = f.lo)
    (hst : .slavePort (.bit sig) (core.srcsel mux) f ∈ core.slavePorts mux) :
    v.bit sig = (s (4 * mux)).getLsbD f.lo := by
  have hsize : f.size = 1 := by rw [Field.size, hf, Nat.add_sub_cancel_left]
  have hport := h.port hmux hst hsize
  rw [Field.toNat_value_bit hf] at hport
  exact (by decide : ∀ a b : Bool, a.toNat = b.toNat → a = b) _ _ hport

theorem alternates_getElem? {k : ℕ} (hk : k ≤ core.altSignals) : core.alternates[k]? = some k := by
  rw [Core.alternates, List.getElem?_range (by omega)]

/-- A wire that selects with the source select wire follows the selected input. -/
theorem Settled.selected (h : Settled core s v) (hmux : mux < core.muxSignals) {out : Signal}
    {ins : ℕ → Signal} {sel : ℕ} (hsel : v.value (.srcsel mux) = sel) (hle : sel ≤ core.altSignals)
    (hst : .getMultiplexer out (.srcsel mux) (core.alternates.map ins) ∈ core.signalStmts mux) :
    v.bit out = v.bit (ins sel) := by
  refine h.signal hmux _ hst _ ?_
  rw [hsel, List.getElem?_map, alternates_getElem? hle, Option.map_some]

theorem Settled.sigDir (h : Settled core s v) (hmux : mux < core.muxSignals) :
    v.bit (.sigDir mux) =
      if v.bit (.diren mux) then v.bit (.dirctl mux) else v.bit (.hwDirSig mux) := by
  have hst := h.signal hmux (.getMultiplexer (.sigDir mux) (.bit (.diren mux))
    [.hwDirSig mux, .dirctl mux]) (by simp [Core.signalStmts])
  cases hsel : v.bit (.diren mux) with
  | false => exact hst (.hwDirSig mux) (by rw [Valuation.value, hsel]; rfl)
  | true => exact hst (.dirctl mux) (by rw [Valuation.value, hsel]; rfl)

theorem Settled.incoming (h : Settled core s v) (hmux : mux < core.muxSignals) {idx : ℕ}
    (hidx : idx ≤ core.altSignals) : v.bit (.incoming mux idx) =
      ((decide (idx = v.value (.srcsel mux)) || v.bit (.shortsel mux)) &&
        v.bit (.sigIn mux)) := by
  have hst := h.signal hmux (.incomingGen (.incoming mux idx) (.srcsel mux) (.shortsel mux)
    (.sigInBit mux) idx) (List.mem_append_right _ (List.mem_map_of_mem
      (List.mem_range.mpr (Nat.lt_succ_of_le hidx))))
  refine hst.trans ?_
  rw [h.assign hmux]
  by_cases hsel : v.value (.srcsel mux) = idx
  · rw [if_pos hsel, decide_eq_true hsel.symm, Bool.true_or, Bool.true_and]
  · rw [if_neg hsel, decide_eq_false (Ne.symm hsel), Bool.false_or]
    cases v.bit (.shortsel mux) <;> rfl

/-- What the settled outputs of a signal are in terms of its register and the inputs. -/
theorem Settled.outputs (h : Settled core s v) (hmux : mux < core.muxSignals) {sel : ℕ}
    (hsel : (core.src.value (s (4 * mux))).toNat = sel) (hle : sel ≤ core.altSignals) :
    v.bit (.sigOut mux) = v.bit (.outgoing mux sel) ∧
    (∀ k ≤ core.altSignals, v.bit (.incoming mux k) =
      ((decide (k = sel) || (s (4 * mux)).getLsbD 5) && v.bit (.sigIn mux))) ∧
    v.bit (.sigDir mux) =
      if (s (4 * mux)).getLsbD 6 then (s (4 * mux)).getLsbD 7 else v.bit (.ctl mux sel) := by
  have hsrc : v.value (.srcsel mux) = sel :=
    (h.port hmux (by simp [Core.slavePorts]) Core.src_size).trans hsel
  have hshort := h.bit hmux (.shortsel mux) Core.short rfl (by simp [Core.slavePorts])
  have hdiren := h.bit hmux (.diren mux) Core.dctl rfl (by simp [Core.slavePorts])
  have hdirctl := h.bit hmux (.dirctl mux) Core.dir rfl (by simp [Core.slavePorts])
  have hhw : v.bit (.hwDirSig mux) = v.bit (.ctl mux sel) :=
    h.selected hmux hsrc hle (by simp [Core.signalStmts])
  refine ⟨h.selected hmux hsrc hle (by simp [Core.signalStmts]), fun k hk => ?_, ?_⟩
  · rw [h.incoming hmux hk, hsrc, hshort]
    rfl
  · rw [h.sigDir hmux, hdiren, hdirctl, hhw]
    rfl

end Wires

/-! ### The module settles -/

/-- The values of the wires for given register contents and given values of the input ports. -/
def settle (core : Core) (s : RegFile ℕ 32) (ext : Signal → Bool) : Valuation core where
  srcsel mux := (core.src.value (s (4 * mux))).setWidth _
  bit
    | .sigInBit mux => ext (.sigIn mux)
    | .shortsel mux => (s (4 * mux)).getLsbD 5
    | .diren mux => (s (4 * mux)).getLsbD 6
    | .dirctl mux => (s (4 * mux)).getLsbD 7
    | .hwDirSig mux => ext (.ctl mux (core.src.value (s (4 * mux))).toNat)
    | .sigDir mux =>
      if (s (4 * mux)).getLsbD 6 then (s (4 * mux)).getLsbD 7
      else ext (.ctl mux (core.src.value (s (4 * mux))).toNat)
    | .sigOut mux => ext (.outgoing mux (core.src.value (s (4 * mux))).toNat)
    | .incoming mux idx =>
      if (core.src.value (s (4 * mux))).toNat = idx then ext (.sigIn mux)
      else if (s (4 * mux)).getLsbD 5 then ext (.sigIn mux) else false
    | input => ext input

section Settle

variable {core : Core} {s : RegFile ℕ 32} {ext : Signal → Bool} {mux : ℕ} {st : Stmt}

theorem settle_srcsel : (settle core s ext).value (.srcsel mux) =
    (core.src.value (s (4 * mux))).toNat := by
  have hlt : (core.src.value (s (4 * mux))).toNat < 2 ^ core.altSignalSize :=
    lt_of_lt_of_eq (BitVec.isLt _) (congrArg (2 ^ ·) Core.src_size)
  exact (BitVec.toNat_setWidth _ _).trans (Nat.mod_eq_of_lt hlt)

/-- The input a multiplexer of the alternates selects. -/
theorem settle_alternate {ins : ℕ → Signal} {x : Signal}
    (hx : (core.alternates.map ins)[(settle core s ext).value (.srcsel mux)]? = some x) :
    ins (core.src.value (s (4 * mux))).toNat = x := by
  rw [settle_srcsel, List.getElem?_map, Option.map_eq_some_iff] at hx
  obtain ⟨a, ha, rfl⟩ := hx
  obtain ⟨hlt, ha⟩ := List.getElem?_eq_some_iff.mp ha
  rw [← ha]
  exact congrArg ins (List.getElem_range hlt).symm

theorem settle_bitPort {sig : Signal} {f : Field 32} (hf : f.hi = f.lo)
    (hsig : (settle core s ext).bit sig = (s (4 * mux)).getLsbD f.lo) :
    Stmt.Holds s (settle core s ext) (.slavePort (.bit sig) (core.srcsel mux) f) := by
  have hlt := Bool.toNat_lt ((s (4 * mux)).getLsbD f.lo)
  rw [Stmt.Holds, Valuation.value, hsig]
  change _ = (f.value (s (4 * mux))).toNat % 2 ^ 1
  rw [Field.toNat_value_bit hf, Nat.pow_one, Nat.mod_eq_of_lt hlt]

theorem settle_signalStmts (hst : st ∈ core.signalStmts mux) :
    Stmt.Holds s (settle core s ext) st := by
  simp only [Core.signalStmts, List.mem_append, List.mem_cons, List.mem_map, List.not_mem_nil,
    or_false] at hst
  obtain (rfl | rfl | rfl) | ⟨idx, -, rfl⟩ := hst
  · intro x hx
    rw [← settle_alternate hx]
    rfl
  · intro x hx
    change [Signal.hwDirSig mux, .dirctl mux][((s (4 * mux)).getLsbD 6).toNat]? = _ at hx
    change (if (s (4 * mux)).getLsbD 6 then _ else _) = _
    cases hbit : (s (4 * mux)).getLsbD 6 <;> rw [hbit] at hx <;> cases hx <;> rfl
  · intro x hx
    rw [← settle_alternate hx]
    rfl
  · rw [Stmt.Holds, settle_srcsel]
    rfl

theorem settle_slavePorts (hst : st ∈ core.slavePorts mux) :
    Stmt.Holds s (settle core s ext) st := by
  simp only [Core.slavePorts, List.mem_cons, List.not_mem_nil, or_false] at hst
  obtain rfl | rfl | rfl | rfl := hst
  · exact BitVec.toNat_setWidth _ _
  · exact settle_bitPort rfl rfl
  · exact settle_bitPort rfl rfl
  · exact settle_bitPort rfl rfl

end Settle

/-- For every register contents and every input there is a settled valuation. -/
theorem settled_settle (core : Core) (s : RegFile ℕ 32) (ext : Signal → Bool) :
    Settled core s (settle core s ext) := by
  intro st hst
  simp only [Core.axiMux, List.mem_append, List.mem_map, List.mem_flatMap] at hst
  obtain (⟨mux, -, rfl⟩ | ⟨mux, -, hst⟩) | ⟨mux, -, hst⟩ := hst
  · rfl
  · exact settle_signalStmts hst
  · exact settle_slavePorts hst

end AximuxSystem.Hardware
