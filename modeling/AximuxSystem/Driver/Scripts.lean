import AximuxSystem.Driver.Operations
import AximuxSystem.Foundation.Fallible

/-!
# The callbacks as lists of masked writes

Every callback that changes registers is a sequence of read-modify-write
cycles followed by its return code. The sequence is a pure function of the
tables and the arguments: it does not depend on what the registers hold.
-/

namespace AximuxSystem.Driver

open Registers

section Loops

variable {α : Type}

theorem fetch_of_getElem? {xs : List α} {i : ℕ} {x : α} (h : xs[i]? = some x) :
    fetch xs i = .ret x := by
  simp [fetch, h]

/-- A loop that fetches the elements of an array one after the other is a loop over the array. -/
theorem forM_fetch (xs : List α) (f : α → RegProg Unit) :
    ((List.range xs.length).forM fun i => fetch xs i >>= f) = xs.forM f := by
  rw [Fallible.forM_range_eq xs (g := fun x _ => f x)]
  · exact Fallible.forM_zipIdx_fst xs 0 f
  · intro i x hi
    rw [fetch_of_getElem? hi, Prog.ret_bind]

end Loops

/-! ### Source selection -/

/-- Program source `src` into the SRC field of a pin. -/
def srcWrite (pin src : ℕ) : FieldWrite ℕ 32 :=
  ⟨aximuxReg pin, aximuxSrcMask, BitVec.ofNat 32 src⟩

theorem aximuxSetSrc_eq (pin src : ℕ) :
    aximuxSetSrc pin src = Prog.modify (srcWrite pin src) (.ret ()) := rfl

/-- The range check `aximux_set_mux` makes on one pin and its source. -/
def entryOk (nalts : ℕ) (entry : ℕ × ℕ) : Bool :=
  decide (entry.1 < aximuxMaxPins) && decide (entry.2 ≤ nalts)

/-- The writes made for a list of (pin, source) pairs: those before the first refused pair. -/
def entryWrites (nalts : ℕ) (entries : List (ℕ × ℕ)) : List (FieldWrite ℕ 32) :=
  (entries.takeWhile (entryOk nalts)).map fun e => srcWrite e.1 e.2

def entryEnd (nalts : ℕ) (entries : List (ℕ × ℕ)) : RegProg Unit :=
  if entries.all (entryOk nalts) then .ret () else .stop (.errno .EINVAL)

theorem forM_entries (nalts : ℕ) (entries : List (ℕ × ℕ)) :
    (entries.forM fun e => if e.1 ≥ aximuxMaxPins ∨ e.2 > nalts then .stop (.errno .EINVAL)
      else aximuxSetSrc e.1 e.2) =
      Prog.script (entryWrites nalts entries) (entryEnd nalts entries) := by
  induction entries with
  | nil => rfl
  | cons e entries ih =>
    by_cases h : entryOk nalts e
    · have hpin : ¬ (e.1 ≥ aximuxMaxPins ∨ e.2 > nalts) := by
        simp only [entryOk, Bool.and_eq_true, decide_eq_true_eq] at h
        omega
      have hend : entryEnd nalts (e :: entries) = entryEnd nalts entries := by
        simp only [entryEnd, List.all_cons, h, Bool.true_and]
      have hwrites : entryWrites nalts (e :: entries) =
          srcWrite e.1 e.2 :: entryWrites nalts entries := by
        simp [entryWrites, h]
      rw [Prog.forM_cons, if_neg hpin, aximuxSetSrc_eq, Prog.modify_bind, Prog.ret_bind, ih,
        hwrites, hend, Prog.script_cons]
    · have hpin : e.1 ≥ aximuxMaxPins ∨ e.2 > nalts := by
        simp only [entryOk, Bool.and_eq_true, decide_eq_true_eq] at h
        omega
      simp [Prog.forM_cons, hpin, entryWrites, entryEnd, h]

/-- Table shape the callbacks rely on without checking it. -/
structure Aximux.Consistent (amx : Aximux) : Prop where
  pins_length : amx.pins.length = amx.npins
  group_npins : ∀ grp ∈ amx.groups, grp.npins = grp.pins.length
  muxVals_length : ∀ fn ∈ amx.functions, fn.muxVals.length = fn.ngroups
  muxNpins_length : ∀ fn ∈ amx.functions, fn.muxNpins.length = fn.ngroups
  row_length : ∀ fn ∈ amx.functions, ∀ (g : ℕ) (vals : List ℕ),
    fn.muxVals[g]? = some vals → fn.muxNpins[g]? = some vals.length

/-- The row of a function that `aximux_set_mux` selects for a group, by the group's name. -/
def AximuxFunction.row (fn : AximuxFunction) (name : String) : Option (List ℕ) :=
  fn.muxVals[fn.groups.findIdx (· == name)]?

/-- The (pin, source) pairs that selecting function `f` on group `g` programs; `none` if the
selection is refused before the first pin. -/
def selectedEntries (amx : Aximux) (f g : ℕ) : Option (List (ℕ × ℕ)) := do
  let func ← amx.functions[f]?
  let grp ← amx.groups[g]?
  let row ← func.row grp.name
  if row.length = grp.pins.length then some (grp.pins.zip row) else none

/-- The loop body of `aximux_set_mux` works on the pair of the pin and its source. -/
theorem aximuxSetMuxPin_eq {amx : Aximux} {func : AximuxFunction} {grp : AximuxGroup} {k : ℕ}
    {row : List ℕ} (hrow : func.muxVals[k]? = some row) (hlen : row.length = grp.pins.length)
    (i : ℕ) : aximuxSetMuxPin amx func grp k i = fetch (grp.pins.zip row) i >>= fun e =>
      if e.1 ≥ aximuxMaxPins ∨ e.2 > amx.nalts then .stop (.errno .EINVAL)
      else aximuxSetSrc e.1 e.2 := by
  simp only [aximuxSetMuxPin, fetch_of_getElem? hrow, Prog.ret_bind]
  by_cases hi : i < grp.pins.length
  · have hi' : i < row.length := by omega
    simp [fetch, hi, hi']
  · have hz : ¬ i < (grp.pins.zip row).length := by
      rw [List.length_zip]
      omega
    simp [fetch, List.getElem?_eq_none (not_lt.mp hi), List.getElem?_eq_none (not_lt.mp hz)]

theorem aximuxSetMux_eq {amx : Aximux} (h : amx.Consistent) {f g : ℕ}
    (hf : f < amx.nfunctions) (hg : g < amx.ngroups) :
    aximuxSetMux amx f g =
      match selectedEntries amx f g with
      | none => .stop (.errno .EINVAL)
      | some entries =>
        Prog.script (entryWrites amx.nalts entries) (entryEnd amx.nalts entries) := by
  obtain ⟨func, hfunc⟩ : ∃ func, amx.functions[f]? = some func :=
    ⟨_, List.getElem?_eq_getElem hf⟩
  obtain ⟨grp, hgrp⟩ : ∃ grp, amx.groups[g]? = some grp := ⟨_, List.getElem?_eq_getElem hg⟩
  have hfmem := List.mem_of_getElem? hfunc
  have hgmem := List.mem_of_getElem? hgrp
  have hvals := h.muxVals_length func hfmem
  have hnpins := h.group_npins grp hgmem
  have hle : func.groups.findIdx (· == grp.name) ≤ func.ngroups := List.findIdx_le_length
  simp only [aximuxSetMux, fetch_of_getElem? hfunc, fetch_of_getElem? hgrp, Prog.ret_bind,
    selectedEntries, hfunc, hgrp, Option.bind_eq_bind, Option.bind_some, AximuxFunction.row]
  by_cases hk : func.groups.findIdx (· == grp.name) = func.ngroups
  · have hnone : func.muxVals[func.ngroups]? = none := by
      rw [List.getElem?_eq_none_iff, hvals]
    simp [hk, hnone]
  · obtain ⟨row, hrow⟩ : ∃ row, func.muxVals[func.groups.findIdx (· == grp.name)]? = some row :=
      ⟨_, List.getElem?_eq_getElem (by omega)⟩
    have hcount := h.row_length func hfmem _ row hrow
    rw [if_neg hk, fetch_of_getElem? hcount, hrow, Prog.ret_bind, Option.bind_some]
    by_cases hlen : row.length = grp.pins.length
    · have hzip : grp.npins = (grp.pins.zip row).length := by
        rw [List.length_zip, hnpins]
        omega
      rw [if_neg (by omega), if_pos hlen]
      change _ = Prog.script _ _
      rw [funext (aximuxSetMuxPin_eq hrow hlen), hzip, forM_fetch, forM_entries]
    · rw [if_pos (by omega), if_neg hlen]

/-! ### Pin configuration -/

/-- The register bit of a configuration parameter, if the driver supports it. -/
def cfgBit (param : BitVec 32) : Option (BitVec 32) :=
  if param = aximuxCfgShort then some aximuxShortBit
  else if param = aximuxCfgDirSw then some aximuxDirenBit
  else if param = aximuxCfgDirOut then some aximuxDirctlBit
  else none

/-- What the driver tests of a configuration word: its argument cut to 16 bits. -/
def configFlag (config : BitVec 32) : Bool :=
  decide ((pinconfToConfigArgument config).setWidth 16 ≠ 0)

/-- The write one configuration word asks for. -/
def configWrite (pin : ℕ) (config : BitVec 32) : Option (FieldWrite ℕ 32) :=
  (cfgBit (pinconfToConfigParam config)).map fun bit =>
    ⟨aximuxReg pin, bit, if configFlag config then bit else 0⟩

def configSupported (config : BitVec 32) : Bool :=
  (cfgBit (pinconfToConfigParam config)).isSome

theorem merge_set (r : ℕ) (bit old : BitVec 32) :
    (FieldWrite.mk r bit bit).merge old = old ||| bit := by
  apply BitVec.eq_of_getLsbD_eq
  intro i hi
  rw [FieldWrite.getLsbD_merge, BitVec.getLsbD_or]
  cases bit.getLsbD i <;> simp

theorem merge_clear (r : ℕ) (bit old : BitVec 32) :
    (FieldWrite.mk r bit 0).merge old = old &&& ~~~bit := by
  apply BitVec.eq_of_getLsbD_eq
  intro i hi
  rw [FieldWrite.getLsbD_merge, BitVec.getLsbD_and, BitVec.getLsbD_not]
  cases bit.getLsbD i <;> simp [hi]

/-- The access made for an unsupported parameter: the register is read, then the call fails. -/
def refuse (pin : ℕ) : RegProg Unit :=
  .read (aximuxReg pin) fun _ => .stop (.errno .ENOTSUPP)

theorem aximuxPinconfSetOne_eq (pin : ℕ) (config : BitVec 32) :
    aximuxPinconfSetOne pin config =
      match configWrite pin config with
      | some w => Prog.modify w (.ret ())
      | none => refuse pin := by
  have hmerge : ∀ bit old : BitVec 32,
      (if (pinconfToConfigArgument config).setWidth 16 ≠ 0 then old ||| bit else old &&& ~~~bit) =
        (FieldWrite.mk (aximuxReg pin) bit (if configFlag config then bit else 0)).merge old := by
    intro bit old
    by_cases h : (pinconfToConfigArgument config).setWidth 16 ≠ 0
    · rw [if_pos h, show configFlag config = true from decide_eq_true h, if_pos rfl, merge_set]
    · rw [if_neg h, show configFlag config = false from decide_eq_false h, if_neg (by simp),
        merge_clear]
  unfold aximuxPinconfSetOne configWrite cfgBit aximuxRead aximuxWrite
  simp only [Prog.read_bind, Prog.ret_bind, hmerge]
  split_ifs <;> rfl

/-- The writes of `aximux_pinconf_set`: those before the first unsupported parameter. -/
def pinconfWrites (pin : ℕ) (configs : List (BitVec 32)) : List (FieldWrite ℕ 32) :=
  (configs.takeWhile configSupported).filterMap (configWrite pin)

def pinconfEnd (pin : ℕ) (configs : List (BitVec 32)) : RegProg Unit :=
  if configs.all configSupported then .ret () else refuse pin

theorem aximuxPinconfSet_eq (pin : ℕ) (configs : List (BitVec 32)) :
    aximuxPinconfSet pin configs =
      Prog.script (pinconfWrites pin configs) (pinconfEnd pin configs) := by
  unfold aximuxPinconfSet
  induction configs with
  | nil => rfl
  | cons config configs ih =>
    rw [Prog.forM_cons, aximuxPinconfSetOne_eq, ih]
    cases hbit : cfgBit (pinconfToConfigParam config) with
    | none => simp [configWrite, hbit, pinconfWrites, pinconfEnd, configSupported, refuse]
    | some bit =>
      simp [configWrite, hbit, pinconfWrites, pinconfEnd, configSupported, Prog.modify_bind]

/-- The group call is the pin call on every member. -/
theorem aximuxPinconfGroupSet_eq {amx : Aximux} {grp : AximuxGroup} {g : ℕ}
    (hg : amx.groups[g]? = some grp) (hn : grp.npins = grp.pins.length)
    (configs : List (BitVec 32)) :
    aximuxPinconfGroupSet amx g configs =
      grp.pins.forM fun pin => aximuxPinconfSet pin configs := by
  simp only [aximuxPinconfGroupSet, aximuxGetGroupPins, fetch_of_getElem? hg, Prog.ret_bind, hn]
  exact forM_fetch grp.pins fun pin => aximuxPinconfSet pin configs

/-- The writes of `aximux_pinconf_group_set`; an unsupported parameter ends it at the first pin. -/
def groupWrites (pins : List ℕ) (configs : List (BitVec 32)) : List (FieldWrite ℕ 32) :=
  if configs.all configSupported then pins.flatMap fun pin => pinconfWrites pin configs
  else (pins.take 1).flatMap fun pin => pinconfWrites pin configs

def groupEnd (pins : List ℕ) (configs : List (BitVec 32)) : RegProg Unit :=
  match pins with
  | [] => .ret ()
  | pin :: _ => pinconfEnd pin configs

theorem forM_pinconfSet (pins : List ℕ) (configs : List (BitVec 32)) :
    (pins.forM fun pin => aximuxPinconfSet pin configs) =
      Prog.script (groupWrites pins configs) (groupEnd pins configs) := by
  by_cases h : configs.all configSupported
  · have hend : ∀ pin, pinconfEnd pin configs = .ret () := fun pin => if_pos h
    have hgroup : groupEnd pins configs = .ret () := by cases pins <;> simp [groupEnd, hend]
    rw [groupWrites, if_pos h, hgroup]
    induction pins with
    | nil => rfl
    | cons pin pins ih =>
      rw [Prog.forM_cons, aximuxPinconfSet_eq, hend, Prog.script_bind, Prog.ret_bind,
        ih (by cases pins <;> simp [groupEnd, hend]), List.flatMap_cons, Prog.script_append]
  · cases pins with
    | nil => simp [groupWrites, groupEnd]
    | cons pin pins =>
      have hend : pinconfEnd pin configs = refuse pin := if_neg h
      rw [Prog.forM_cons, aximuxPinconfSet_eq, groupWrites, if_neg h, groupEnd, hend,
        Prog.script_bind]
      simp [refuse]

end AximuxSystem.Driver
