import AximuxSystem.Driver.Pinconf

/-!
# What a configuration list leaves in a pin

The writes of a list end each parameter's bit with the last argument of the
parameter before the first unsupported word, cut to 16 bits. So a refused list
may have changed the pin, and an argument that is a multiple of `2 ^ 16` clears
the bit it should set.
-/

namespace AximuxSystem.Driver

open Registers

/-- The parameters and arguments of configuration words, in order. -/
def configArgs (configs : List (BitVec 32)) : List (BitVec 32 × BitVec 32) :=
  configs.map fun config => (pinconfToConfigParam config, pinconfToConfigArgument config)

/-- What the driver tests of an argument. -/
def argFlag (arg : BitVec 32) : Bool := decide (arg.setWidth 16 ≠ 0)

/-- The masked write for a parameter and its argument. -/
def flagWrite (pin : ℕ) (x : BitVec 32 × BitVec 32) : FieldWrite ℕ 32 :=
  ⟨aximuxReg pin, (cfgBit x.1).getD 0, if argFlag x.2 then (cfgBit x.1).getD 0 else 0⟩

variable {configs : List (BitVec 32)} {pin : ℕ} {rf : RegFile ℕ 32}

theorem pinconfWrites_eq_map (pin : ℕ) (configs : List (BitVec 32)) :
    pinconfWrites pin configs =
      (configArgs (configs.takeWhile configSupported)).map (flagWrite pin) := by
  rw [pinconfWrites, configArgs, List.map_map, ← List.filterMap_eq_map]
  refine List.filterMap_congr fun config hconfig => ?_
  have hsup : configSupported config = true :=
    List.all_eq_true.mp List.all_takeWhile config hconfig
  obtain ⟨mask, hmask⟩ := Option.isSome_iff_exists.mp hsup
  simp [configWrite, flagWrite, hmask, configFlag, argFlag]

theorem flagWrite_covers (pin : ℕ) (q : ConfigParam) (x : BitVec 32 × BitVec 32) :
    (flagWrite pin x).covers (aximuxReg pin) q.bit = decide (x.1 = q.code) := by
  rw [FieldWrite.covers, flagWrite, getLsbD_cfgBit, decide_eq_true rfl, Bool.true_and]

/-- The last argument of a parameter that the list gets to apply. -/
def lastArg (q : ConfigParam) (configs : List (BitVec 32)) : Option (BitVec 32) :=
  Grouping.lastOf q.code (configArgs (configs.takeWhile configSupported))

theorem lastBit_pinconfWrites (pin : ℕ) (configs : List (BitVec 32)) (q : ConfigParam) :
    lastBit (pinconfWrites pin configs) (aximuxReg pin) q.bit =
      (lastArg q configs).map argFlag := by
  rw [pinconfWrites_eq_map, lastBit_map fun x _ => flagWrite_covers pin q x, lastArg]
  congr 1
  funext arg
  rw [flagWrite, cfgBit_code, Option.getD_some]
  cases argFlag arg <;> simp [bit_lt]

/-! ### Refused lists -/

/-- If the program fails, every register holds the word it had before. -/
def RefusalUnchanged (p : RegProg Unit) (rf : RegFile ℕ 32) : Prop :=
  ∀ e rf', p.run rf = (.error e, rf') → rf' = rf

/-- Every word is supported, or the pin already holds the flags of the words before the first
unsupported one. -/
def ConfigHarmless (configs : List (BitVec 32)) (pin : ℕ) (rf : RegFile ℕ 32) : Prop :=
  (∀ config ∈ configs, configSupported config = true) ∨
    ∀ q arg, lastArg q configs = some arg → (rf (aximuxReg pin)).getLsbD q.bit = argFlag arg

/-- The writes are without effect exactly if each bit already holds its last flag. -/
theorem applyAll_pinconfWrites_eq_self_iff :
    applyAll (pinconfWrites pin configs) rf = rf ↔
      ∀ q arg, lastArg q configs = some arg → (rf (aximuxReg pin)).getLsbD q.bit = argFlag arg := by
  constructor
  · intro h q arg hlast
    have hbit := getLsbD_applyAll (pinconfWrites pin configs) rf (aximuxReg pin) q.bit
    rwa [h, lastBit_pinconfWrites, hlast] at hbit
  · intro h
    funext r
    apply BitVec.eq_of_getLsbD_eq
    intro i _
    by_cases hcov : ∀ w ∈ pinconfWrites pin configs, w.covers r i = false
    · exact getLsbD_applyAll_of_not_covered hcov rf
    · obtain ⟨w, hw, hcov⟩ : ∃ w ∈ pinconfWrites pin configs, w.covers r i = true := by
        simpa using hcov
      obtain ⟨q, hreg, hmask⟩ := mem_pinconfWrites hw
      rw [FieldWrite.covers_eq_true, hreg, hmask, getLsbD_paramBit, decide_eq_true_eq] at hcov
      obtain ⟨rfl, rfl⟩ := hcov
      rw [getLsbD_applyAll, lastBit_pinconfWrites]
      cases hlast : lastArg q configs with
      | none => rfl
      | some arg => exact (h q arg hlast).symm

theorem run_aximuxPinconfSet (pin : ℕ) (configs : List (BitVec 32)) (rf : RegFile ℕ 32) :
    (aximuxPinconfSet pin configs).run rf =
      (Call.configResult configs, applyAll (pinconfWrites pin configs) rf) := by
  rw [aximuxPinconfSet_eq, Prog.run_script, Call.run_pinconfEnd]

theorem getLsbD_pinconfSet (pin : ℕ) (configs : List (BitVec 32)) (rf : RegFile ℕ 32)
    (q : ConfigParam) : (((aximuxPinconfSet pin configs).run rf).2 (aximuxReg pin)).getLsbD q.bit =
      ((lastArg q configs).map argFlag).getD ((rf (aximuxReg pin)).getLsbD q.bit) := by
  rw [run_aximuxPinconfSet, getLsbD_applyAll, lastBit_pinconfWrites]

theorem pinconfSet_unchanged_iff :
    RefusalUnchanged (aximuxPinconfSet pin configs) rf ↔ ConfigHarmless configs pin rf := by
  rw [RefusalUnchanged, ConfigHarmless, run_aximuxPinconfSet,
    ← applyAll_pinconfWrites_eq_self_iff, ← List.all_eq_true, Call.configResult]
  by_cases hall : configs.all configSupported
  · simp [hall]
  · simp [hall]

variable {info : BitVec 32} {np : List OfNode} {amx : Aximux}

/-- A group call that fails is a pin call on the first member that fails. -/
theorem run_aximuxPinconfGroupSet (h : amx.Consistent) {g : ℕ} (hg : g < amx.ngroups)
    (configs : List (BitVec 32)) (rf : RegFile ℕ 32) {e : Stop} {rf' : RegFile ℕ 32} :
    (aximuxPinconfGroupSet amx g configs).run rf = (.error e, rf') ↔
      ∃ pin pins, Call.members amx g = pin :: pins ∧
        (aximuxPinconfSet pin configs).run rf = (.error e, rf') := by
  have hrun : (aximuxPinconfGroupSet amx g configs).run rf = _ :=
    Call.run_prog h (c := .pinconfGroupSet g configs) hg rf
  rw [hrun, Call.result, Call.writes, groupWrites]
  cases Call.members amx g with
  | nil => simp
  | cons pin pins =>
    simp only [List.cons.injEq, and_assoc, run_aximuxPinconfSet,
      Call.configResult]
    by_cases hall : configs.all configSupported
    · simp [hall]
    · simp [hall]

/-- A refused list leaves the registers alone exactly if it is harmless, for a group at its first
member. -/
theorem refused_config_unchanged_iff (h : Accepts info np amx) (configs : List (BitVec 32))
    (rf : RegFile ℕ 32) :
    (∀ pin, RefusalUnchanged (aximuxPinconfSet pin configs) rf ↔ ConfigHarmless configs pin rf) ∧
    ∀ g, g < amx.ngroups → (RefusalUnchanged (aximuxPinconfGroupSet amx g configs) rf ↔
      ∀ pin pins, Call.members amx g = pin :: pins → ConfigHarmless configs pin rf) := by
  refine ⟨fun pin => pinconfSet_unchanged_iff, fun g hg => ?_⟩
  have hinv := tables_invariant (accepts_iff.mp h)
  simp only [← pinconfSet_unchanged_iff, RefusalUnchanged,
    run_aximuxPinconfGroupSet hinv.consistent hg]
  constructor
  · intro hgroup pin pins hmembers e rf' hrun
    exact hgroup e rf' ⟨pin, pins, hmembers, hrun⟩
  · rintro hpin e rf' ⟨pin, pins, hmembers, hrun⟩
    exact hpin pin pins hmembers e rf' hrun

/-- SHORT of the pin is set before the second word is refused. -/
theorem refused_config_changes : ¬ ∀ info np amx, Accepts info np amx →
    ∀ (configs : List (BitVec 32)) (rf : RegFile ℕ 32),
      (∀ pin, RefusalUnchanged (aximuxPinconfSet pin configs) rf) ∧
      ∀ g, g < amx.ngroups → RefusalUnchanged (aximuxPinconfGroupSet amx g configs) rf := by
  intro h
  have hpin := (h _ _ _ sampleTables_accepted [0x180, 0x101] fun _ => 0).1 0
  exact absurd (congrFun (hpin (.errno .ENOTSUPP) _ rfl) 0) (by decide)

theorem refused_config_unchanged_iff_sample :
    ¬ ConfigHarmless [0x180, 0x101] 0 fun _ => 0 := by
  rw [← (refused_config_unchanged_iff sampleTables_accepted _ _).1]
  intro h
  exact absurd (congrFun (h (.errno .ENOTSUPP) _ rfl) 0) (by decide)

/-! ### Arguments -/

/-- After the call every parameter of the list reads back whether its last argument is non-zero. -/
def SetsByArgument (configs : List (BitVec 32)) (pin : ℕ) (rf : RegFile ℕ 32) : Prop :=
  ∀ (q : ConfigParam) (arg : BitVec 32), Grouping.lastOf q.code (configArgs configs) = some arg →
    (((aximuxPinconfSet pin configs).run rf).2 (aximuxReg pin)).getLsbD q.bit =
      decide (arg ≠ 0) ∧
    ∀ config, pinconfToConfigParam config = q.code →
      ∃ word, (aximuxPinconfGet pin config).run ((aximuxPinconfSet pin configs).run rf).2 =
          (.ok word, ((aximuxPinconfSet pin configs).run rf).2) ∧
        (pinconfToConfigArgument word = 1 ↔ arg ≠ 0)

theorem argFlag_eq_iff (arg : BitVec 32) :
    argFlag arg = decide (arg ≠ 0) ↔ (arg.toNat % 2 ^ 16 = 0 → arg = 0) := by
  have hcut : arg.setWidth 16 = 0 ↔ arg.toNat % 2 ^ 16 = 0 := by
    rw [← BitVec.toNat_inj, BitVec.toNat_setWidth]
    rfl
  rw [argFlag, decide_eq_decide, not_iff_not, hcut]
  constructor
  · exact Iff.mp
  · intro h
    refine ⟨h, ?_⟩
    rintro rfl
    rfl

/-- The arguments decide the bits exactly if no last argument is a non-zero multiple of
`2 ^ 16`. -/
theorem sets_by_argument_iff (hsup : ∀ config ∈ configs, configSupported config = true) (pin : ℕ)
    (rf : RegFile ℕ 32) : SetsByArgument configs pin rf ↔
      ∀ (q : ConfigParam) (arg : BitVec 32),
        Grouping.lastOf q.code (configArgs configs) = some arg →
          arg.toNat % 2 ^ 16 = 0 → arg = 0 := by
  have hbit : ∀ (q : ConfigParam) (arg : BitVec 32),
      Grouping.lastOf q.code (configArgs configs) = some arg →
      (((aximuxPinconfSet pin configs).run rf).2 (aximuxReg pin)).getLsbD q.bit =
        argFlag arg := by
    intro q arg hlast
    rw [getLsbD_pinconfSet, lastArg, List.takeWhile_eq_self_iff.mpr hsup, hlast]
    rfl
  constructor
  · intro h q arg hlast
    rw [← argFlag_eq_iff, ← hbit q arg hlast]
    exact (h q arg hlast).1
  · intro h q arg hlast
    have hflag := (hbit q arg hlast).trans ((argFlag_eq_iff arg).mpr (h q arg hlast))
    refine ⟨hflag, fun config hparam => ?_⟩
    obtain ⟨word, hrun, -, hword⟩ := run_aximuxPinconfGet pin q hparam
      ((aximuxPinconfSet pin configs).run rf).2
    refine ⟨word, hrun, ?_⟩
    simp only [hword, hflag, decide_eq_true_eq]
    by_cases harg : arg = 0 <;> simp [harg]

/-- The argument `2 ^ 16` of SHORT leaves the bit clear. -/
theorem arguments_cut : ¬ ∀ configs : List (BitVec 32),
    (∀ config ∈ configs, configSupported config = true) →
      ∀ (pin : ℕ) (rf : RegFile ℕ 32), SetsByArgument configs pin rf := by
  intro h
  have hset := (h [0x1000080] (List.forall_mem_singleton.mpr (by decide)) 0 (fun _ => 0) .short
    0x10000 (by decide)).1
  exact absurd hset (by decide)

theorem sets_by_argument_iff_sample : ¬ SetsByArgument [0x1000080] 0 fun _ => 0 := by
  rw [sets_by_argument_iff (List.forall_mem_singleton.mpr (by decide))]
  intro h
  exact absurd (h .short 0x10000 (by decide) (by decide)) (by decide)

end AximuxSystem.Driver
