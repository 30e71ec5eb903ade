import Mathlib.Data.List.TakeWhile
import AximuxSystem.Driver.Calls

/-!
# Configuration bits over runs

Each of the three parameters owns one bit of a pin's register. After a run of
successful calls the bit holds the truth value of the last argument applied to
the pin for the parameter, which is what a configuration read returns.
-/

namespace AximuxSystem.Driver

open Registers Fallible

/-- The configuration parameters of the driver. -/
inductive ConfigParam where
  | short | dirSw | dirOut
  deriving DecidableEq, Repr

namespace ConfigParam

def code : ConfigParam → BitVec 32
  | short => aximuxCfgShort
  | dirSw => aximuxCfgDirSw
  | dirOut => aximuxCfgDirOut

/-- Position of the parameter's bit in a pin register. -/
def bit : ConfigParam → ℕ
  | short => 5
  | dirSw => 6
  | dirOut => 7

end ConfigParam

theorem cfgBit_code (q : ConfigParam) : cfgBit q.code = some (BitVec.twoPow 32 q.bit) := by
  cases q <;> decide

theorem cfgBit_eq_some {param mask : BitVec 32} (h : cfgBit param = some mask) :
    ∃ q : ConfigParam, param = q.code ∧ mask = BitVec.twoPow 32 q.bit := by
  unfold cfgBit at h
  split_ifs at h with hshort hsw hout <;> cases h
  · exact ⟨.short, hshort, by decide⟩
  · exact ⟨.dirSw, hsw, by decide⟩
  · exact ⟨.dirOut, hout, by decide⟩

theorem bit_ge (q : ConfigParam) : 4 ≤ q.bit := by
  cases q <;> decide

theorem bit_lt (q : ConfigParam) : q.bit < 32 := by
  cases q <;> decide

theorem getLsbD_paramBit (q : ConfigParam) (i : ℕ) :
    (BitVec.twoPow 32 q.bit).getLsbD i = decide (i = q.bit) := by
  rw [BitVec.getLsbD_twoPow, decide_eq_true (bit_lt q), Bool.true_and]
  exact decide_eq_decide.mpr eq_comm

theorem code_inj {q q' : ConfigParam} (h : q.code = q'.code) : q = q' := by
  cases q <;> cases q' <;> first | rfl | exact absurd h (by decide)

theorem bit_inj {q q' : ConfigParam} (h : q.bit = q'.bit) : q = q' := by
  cases q <;> cases q' <;> first | rfl | exact absurd h (by decide)

/-- A parameter of a pin. -/
abbrev PadKey := ℕ × BitVec 32

/-- One configuration word applied to one pin, as a key and an argument. -/
def applied (pin : ℕ) (config : BitVec 32) : PadKey × BitVec 32 :=
  ((pin, pinconfToConfigParam config), pinconfToConfigArgument config)

/-- The arguments a call applies, in order: pin by pin, and the words in list order. -/
def Call.args (amx : Aximux) (c : Call) : List (PadKey × BitVec 32) :=
  (c.configPins amx).flatMap fun pin => c.configs.map (applied pin)

/-- Whether the last argument applied for a parameter of a pin is non-zero; `old` if none was. -/
def lastFlag (args : List (PadKey × BitVec 32)) (pin : ℕ) (q : ConfigParam) (old : Bool) : Bool :=
  match Grouping.lastOf (pin, q.code) args with
  | some arg => decide (arg ≠ 0)
  | none => old

/-! ### The writes of one call -/

theorem configFlag_eq {config : BitVec 32} (h : (pinconfToConfigArgument config).toNat < 2 ^ 16) :
    configFlag config = decide (pinconfToConfigArgument config ≠ 0) := by
  refine decide_eq_decide.mpr (not_congr ?_)
  rw [← BitVec.toNat_inj, ← BitVec.toNat_inj, BitVec.toNat_setWidth, Nat.mod_eq_of_lt h]
  rfl

/-- The masked write that applies an argument. -/
def argWrite (x : PadKey × BitVec 32) : FieldWrite ℕ 32 :=
  ⟨aximuxReg x.1.1, (cfgBit x.1.2).getD 0, if x.2 ≠ 0 then (cfgBit x.1.2).getD 0 else 0⟩

theorem configWrite_eq {config : BitVec 32} (hsup : configSupported config = true)
    (h : (pinconfToConfigArgument config).toNat < 2 ^ 16) (pin : ℕ) :
    configWrite pin config = some (argWrite (applied pin config)) := by
  obtain ⟨mask, hmask⟩ := Option.isSome_iff_exists.mp hsup
  rw [configWrite, hmask, Option.map_some, configFlag_eq h, argWrite, applied, hmask]
  simp

theorem pinconfWrites_eq {configs : List (BitVec 32)} (hsup : configs.all configSupported = true)
    (h : ∀ config ∈ configs, (pinconfToConfigArgument config).toNat < 2 ^ 16) (pin : ℕ) :
    pinconfWrites pin configs = (configs.map (applied pin)).map argWrite := by
  rw [List.all_eq_true] at hsup
  rw [pinconfWrites, List.takeWhile_eq_self_iff.mpr hsup, List.map_map]
  rw [← List.filterMap_eq_map]
  exact List.filterMap_congr fun config hc => configWrite_eq (hsup config hc) (h config hc) pin

theorem configResult_ok {configs : List (BitVec 32)} (h : Call.configResult configs = .ok ()) :
    configs.all configSupported = true := by
  unfold Call.configResult at h
  split_ifs at h with hall
  exact hall

/-- A successful configuration call performs exactly the writes of its arguments. -/
theorem config_writes_eq {amx : Aximux} {c : Call} (hok : c.result amx = .ok ())
    (hargs : c.ShortArgs) (hcfg : ∀ f g, c ≠ .setMux f g) :
    c.writes amx = (c.args amx).map argWrite := by
  cases c with
  | setMux f g => exact absurd rfl (hcfg f g)
  | pinconfSet pin configs =>
    rw [Call.writes, pinconfWrites_eq (configResult_ok hok) hargs, Call.args, Call.configPins,
      List.flatMap_singleton]
    rfl
  | pinconfGroupSet g configs =>
    simp only [Call.writes, Call.args, Call.configPins, Call.configs]
    rw [Call.result] at hok
    cases hpins : Call.members amx g with
    | nil => simp [groupWrites]
    | cons pin pins =>
      rw [hpins] at hok
      have hsup := configResult_ok hok
      rw [groupWrites, if_pos hsup, List.map_flatMap]
      exact List.flatMap_congr fun pin _ => pinconfWrites_eq hsup hargs pin

/-- The mask of a parameter holds the bit of exactly this parameter. -/
theorem getLsbD_cfgBit (param : BitVec 32) (q : ConfigParam) :
    ((cfgBit param).getD 0).getLsbD q.bit = decide (param = q.code) := by
  cases hbit : cfgBit param with
  | none =>
    have hne : param ≠ q.code := by
      rintro rfl
      rw [cfgBit_code] at hbit
      cases hbit
    simp [hne]
  | some mask =>
    obtain ⟨q', rfl, rfl⟩ := cfgBit_eq_some hbit
    rw [Option.getD_some, getLsbD_paramBit]
    exact decide_eq_decide.mpr ⟨fun h => by rw [bit_inj h], fun h => by rw [code_inj h]⟩

theorem argWrite_covers {pin : ℕ} (hpin : pin < 2 ^ 30) (q : ConfigParam) {x : PadKey × BitVec 32}
    (hx : x.1.1 < 2 ^ 30) :
    (argWrite x).covers (aximuxReg pin) q.bit = decide (x.1 = (pin, q.code)) := by
  obtain ⟨⟨p, param⟩, arg⟩ := x
  have hreg : decide (aximuxReg p = aximuxReg pin) = decide (p = pin) :=
    decide_eq_decide.mpr ⟨aximuxReg_inj hx hpin, fun h => h ▸ rfl⟩
  simp only [FieldWrite.covers, argWrite, hreg, getLsbD_cfgBit, Prod.mk.injEq, Bool.decide_and]

theorem lastBit_args {args : List (PadKey × BitVec 32)} (hargs : ∀ x ∈ args, x.1.1 < 2 ^ 30)
    {pin : ℕ} (hpin : pin < 2 ^ 30) (q : ConfigParam) :
    lastBit (args.map argWrite) (aximuxReg pin) q.bit =
      (Grouping.lastOf (pin, q.code) args).map fun arg => decide (arg ≠ 0) := by
  rw [lastBit_map fun x hx => argWrite_covers hpin q (hargs x hx)]
  congr 1
  funext arg
  rw [argWrite, cfgBit_code, Option.getD_some]
  by_cases h : arg = 0#32
  · simp [h]
  · simp [h, bit_lt]

variable {amx : Aximux}

theorem configPins_registered {hwPins : ℕ} (h : TableInvariant hwPins amx) {c : Call}
    (hc : c.Valid amx) {p : ℕ} (hp : p ∈ c.configPins amx) : amx.Registered p := by
  cases c with
  | setMux f g => cases hp
  | pinconfSet pin configs =>
    rw [List.mem_singleton.mp hp]
    exact hc
  | pinconfGroupSet g configs =>
    have hg : g < amx.groups.length := hc
    rw [Call.configPins, Call.members, List.getElem?_eq_getElem hg] at hp
    exact (h.member _ (List.getElem_mem hg) p hp).2

theorem registered_small {hwPins : ℕ} (h : TableInvariant hwPins amx) {p : ℕ}
    (hp : amx.Registered p) : p < 2 ^ 30 :=
  lt_of_lt_of_le (h.registered_lt hp) (by decide)

theorem args_small {hwPins : ℕ} (h : TableInvariant hwPins amx) {c : Call} (hc : c.Valid amx) :
    ∀ x ∈ c.args amx, x.1.1 < 2 ^ 30 := by
  intro x hx
  obtain ⟨p, hp, hx⟩ := List.mem_flatMap.mp hx
  obtain ⟨config, -, rfl⟩ := List.mem_map.mp hx
  exact registered_small h (configPins_registered h hc hp)

/-- A successful call leaves in a configuration bit the last argument it applies. -/
theorem lastBit_call {hwPins : ℕ} (h : TableInvariant hwPins amx) {c : Call} (hc : c.Valid amx)
    (hok : c.result amx = .ok ()) (hshort : c.ShortArgs) {pin : ℕ} (hpin : pin < 2 ^ 30)
    (q : ConfigParam) : lastBit (c.writes amx) (aximuxReg pin) q.bit =
      (Grouping.lastOf (pin, q.code) (c.args amx)).map fun arg => decide (arg ≠ 0) := by
  by_cases hmux : ∃ f g, c = .setMux f g
  · obtain ⟨f, g, rfl⟩ := hmux
    exact lastBit_srcWrites_high _ _ (bit_ge q)
  · rw [config_writes_eq hok hshort fun f g hc => hmux ⟨f, g, hc⟩]
    exact lastBit_args (args_small h hc) hpin q

theorem lastBit_calls {hwPins : ℕ} (h : TableInvariant hwPins amx) {calls : List Call}
    (hvalid : ∀ c ∈ calls, c.Valid amx) (hok : ∀ c ∈ calls, c.result amx = .ok ())
    (hshort : ∀ c ∈ calls, c.ShortArgs) {pin : ℕ} (hpin : pin < 2 ^ 30) (q : ConfigParam) :
    lastBit (calls.flatMap (Call.writes amx)) (aximuxReg pin) q.bit =
      (Grouping.lastOf (pin, q.code) (calls.flatMap (Call.args amx))).map
        fun arg => decide (arg ≠ 0) := by
  induction calls with
  | nil => rfl
  | cons c calls ih =>
    rw [List.forall_mem_cons] at hvalid hok hshort
    rw [List.flatMap_cons, List.flatMap_cons, lastBit_append, Grouping.lastOf_append,
      ih hvalid.2 hok.2 hshort.2, lastBit_call h hvalid.1 hok.1 hshort.1 hpin]
    cases Grouping.lastOf (pin, q.code) (calls.flatMap (Call.args amx)) <;> rfl

/-- After a run of successful calls each configuration bit is the last flag applied to it. -/
theorem run_config_bit {hwPins : ℕ} (h : TableInvariant hwPins amx) {calls : List Call}
    (hvalid : ∀ c ∈ calls, c.Valid amx) (hshort : ∀ c ∈ calls, c.ShortArgs) {rf : RegFile ℕ 32}
    (hok : Succeeds amx calls rf) {pin : ℕ} (hpin : pin < 2 ^ 30) (q : ConfigParam) :
    ((runCalls amx calls rf).2 (aximuxReg pin)).getLsbD q.bit =
      lastFlag (calls.flatMap (Call.args amx)) pin q ((rf (aximuxReg pin)).getLsbD q.bit) := by
  rw [succeeds_iff h.consistent hvalid] at hok
  rw [runCalls_eq h.consistent hvalid, getLsbD_applyAll, lastBit_calls h hvalid hok hshort hpin,
    lastFlag]
  cases Grouping.lastOf (pin, q.code) (calls.flatMap (Call.args amx)) <;> rfl

/-! ### Reading a parameter back -/

theorem and_twoPow_ne_zero (val : BitVec 32) (q : ConfigParam) :
    (val &&& BitVec.twoPow 32 q.bit ≠ 0) ↔ val.getLsbD q.bit = true := by
  constructor
  · intro h
    by_contra hbit
    refine h (BitVec.eq_of_getLsbD_eq fun i _ => ?_)
    rw [BitVec.getLsbD_and, getLsbD_paramBit]
    by_cases hi : i = q.bit
    · subst i
      simpa using hbit
    · simp [hi]
  · intro hbit h
    have hi := congrArg (fun w => w.getLsbD q.bit) h
    rw [BitVec.getLsbD_and, getLsbD_paramBit, hbit, decide_eq_true rfl] at hi
    simp at hi

/-- A read returns a word of the same parameter whose argument is the parameter's bit. -/
theorem run_aximuxPinconfGet (pin : ℕ) (q : ConfigParam) {config : BitVec 32}
    (h : pinconfToConfigParam config = q.code) (rf : RegFile ℕ 32) :
    ∃ word, (aximuxPinconfGet pin config).run rf = (.ok word, rf) ∧
      pinconfToConfigParam word = q.code ∧
      pinconfToConfigArgument word =
        if (rf (aximuxReg pin)).getLsbD q.bit then 1 else 0 := by
  refine ⟨pinconfToConfigPacked q.code
    ((if (rf (aximuxReg pin)).getLsbD q.bit then (1 : BitVec 16) else 0).setWidth 32), ?_, ?_, ?_⟩
  · have hflag := and_twoPow_ne_zero (rf (aximuxReg pin)) q
    have hsw : aximuxCfgDirSw ≠ aximuxCfgShort := by decide
    have hout : aximuxCfgDirOut ≠ aximuxCfgShort ∧ aximuxCfgDirOut ≠ aximuxCfgDirSw := by decide
    simp only [aximuxPinconfGet, h, aximuxRead, Prog.read_bind, Prog.ret_bind, Prog.run_read,
      ← hflag]
    cases q with
    | short => simp only [ConfigParam.code, if_true]; rfl
    | dirSw => simp only [ConfigParam.code, hsw, if_false, if_true]; rfl
    | dirOut => simp only [ConfigParam.code, hout, if_false, if_true]; rfl
  · cases q <;> split_ifs <;> decide
  · cases q <;> split_ifs <;> decide

/-! ### Fields do not disturb each other -/

theorem mem_pinconfWrites {pin : ℕ} {configs : List (BitVec 32)} {w : FieldWrite ℕ 32}
    (hw : w ∈ pinconfWrites pin configs) :
    ∃ q : ConfigParam, w.reg = aximuxReg pin ∧ w.mask = BitVec.twoPow 32 q.bit := by
  obtain ⟨config, -, hw⟩ := List.mem_filterMap.mp hw
  obtain ⟨mask, hmask, rfl⟩ := Option.map_eq_some_iff.mp hw
  obtain ⟨q, -, rfl⟩ := cfgBit_eq_some hmask
  exact ⟨q, rfl, rfl⟩

/-- A configuration call, failing or not, writes parameter bits of its own pins only. -/
theorem mem_config_writes {c : Call} (hcfg : ∀ f g, c ≠ .setMux f g) {w : FieldWrite ℕ 32}
    (hw : w ∈ c.writes amx) : ∃ pin ∈ c.configPins amx, ∃ q : ConfigParam,
      w.reg = aximuxReg pin ∧ w.mask = BitVec.twoPow 32 q.bit := by
  cases c with
  | setMux f g => exact absurd rfl (hcfg f g)
  | pinconfSet pin configs => exact ⟨pin, List.mem_singleton_self pin, mem_pinconfWrites hw⟩
  | pinconfGroupSet g configs =>
    simp only [Call.writes, groupWrites] at hw
    split_ifs at hw
    · obtain ⟨pin, hpin, hw⟩ := List.mem_flatMap.mp hw
      exact ⟨pin, hpin, mem_pinconfWrites hw⟩
    · obtain ⟨pin, hpin, hw⟩ := List.mem_flatMap.mp hw
      exact ⟨pin, List.mem_of_mem_take hpin, mem_pinconfWrites hw⟩

/-- Bit `i` of the register `r` may change in the call. -/
def Call.MayChange (amx : Aximux) (r i : ℕ) : Call → Prop
  | .setMux _ _ => i < 4
  | c => (i = 5 ∨ i = 6 ∨ i = 7) ∧ ∃ pin ∈ c.configPins amx, r = aximuxReg pin

theorem call_frame (h : amx.Consistent) {c : Call} (hc : c.Valid amx) (rf : RegFile ℕ 32)
    {r i : ℕ} (hi : ¬ c.MayChange amx r i) :
    (((c.prog amx).run rf).2 r).getLsbD i = (rf r).getLsbD i := by
  rw [Call.run_prog h hc]
  by_cases hmux : ∃ f g, c = .setMux f g
  · obtain ⟨f, g, rfl⟩ := hmux
    exact getLsbD_srcWrites_high _ rf r (not_lt.mp hi)
  · apply getLsbD_applyAll_of_not_covered
    intro w hw
    obtain ⟨pin, hpin, q, hreg, hmask⟩ := mem_config_writes (fun f g hc => hmux ⟨f, g, hc⟩) hw
    rw [FieldWrite.covers, hreg, hmask, getLsbD_paramBit, ← Bool.decide_and]
    refine decide_eq_false fun hcov => hi ?_
    have hbits : q.bit = 5 ∨ q.bit = 6 ∨ q.bit = 7 := by cases q <;> decide
    cases c with
    | setMux f g => exact absurd ⟨f, g, rfl⟩ hmux
    | pinconfSet pin' configs => exact ⟨hcov.2 ▸ hbits, pin, hpin, hcov.1.symm⟩
    | pinconfGroupSet g configs => exact ⟨hcov.2 ▸ hbits, pin, hpin, hcov.1.symm⟩

theorem run_frame (h : amx.Consistent) {calls : List Call} (hcalls : ∀ c ∈ calls, c.Valid amx)
    (rf : RegFile ℕ 32) {r i : ℕ} (hi : ∀ c ∈ calls, ¬ c.MayChange amx r i) :
    ((runCalls amx calls rf).2 r).getLsbD i = (rf r).getLsbD i := by
  induction calls generalizing rf with
  | nil => rfl
  | cons c calls ih =>
    rw [List.forall_mem_cons] at hcalls hi
    rw [← List.singleton_append, runCalls_append, runCalls_singleton, ih hcalls.2 _ hi.2,
      call_frame h hcalls.1 rf hi.1]

/-! ### Sources over runs -/

theorem sources_bounds {hwPins : ℕ} (h : TableInvariant hwPins amx) {c : Call} :
    (∀ e ∈ c.sources amx, e.1 < 2 ^ 30) ∧ ∀ e ∈ c.sources amx, e.2 ≤ amx.nalts := by
  cases c with
  | setMux f g =>
    refine ⟨(programmed_bounds h.nalts_le _).1, fun e he => ?_⟩
    have hok : entryOk amx.nalts e := List.all_eq_true.mp List.all_takeWhile e he
    rw [entryOk, Bool.and_eq_true, decide_eq_true_eq, decide_eq_true_eq] at hok
    exact hok.2
  | pinconfSet pin configs => exact ⟨List.forall_mem_nil _, List.forall_mem_nil _⟩
  | pinconfGroupSet g configs => exact ⟨List.forall_mem_nil _, List.forall_mem_nil _⟩

/-- Each bit of SRC is last written by the last source the calls give to the pin. -/
theorem lastBit_calls_src {hwPins : ℕ} (h : TableInvariant hwPins amx) (calls : List Call)
    {pin : ℕ} (hpin : pin < 2 ^ 30) {i : ℕ} (hi : i < 4) :
    lastBit (calls.flatMap (Call.writes amx)) (aximuxReg pin) i =
      (Grouping.lastOf pin (calls.flatMap (Call.sources amx))).map fun s => s.testBit i := by
  have hcall : ∀ c : Call, lastBit (c.writes amx) (aximuxReg pin) i =
      (Grouping.lastOf pin (c.sources amx)).map fun s => s.testBit i := by
    intro c
    by_cases hmux : ∃ f g, c = .setMux f g
    · obtain ⟨f, g, rfl⟩ := hmux
      exact lastBit_srcWrites (sources_bounds h).1 hpin hi
    · have hcfg : ∀ f g, c ≠ .setMux f g := fun f g hc => hmux ⟨f, g, hc⟩
      have hnone : c.sources amx = [] := by
        cases c with
        | setMux f g => exact absurd rfl (hcfg f g)
        | pinconfSet pin configs => rfl
        | pinconfGroupSet g configs => rfl
      rw [hnone, Grouping.lastOf_nil, Option.map_none, lastBit_eq_none_iff]
      intro w hw
      obtain ⟨pin, -, q, -, hmask⟩ := mem_config_writes hcfg hw
      have hne : i ≠ q.bit := fun heq => absurd (bit_ge q) (by omega)
      rw [FieldWrite.covers, hmask, getLsbD_paramBit, decide_eq_false hne, Bool.and_false]
  induction calls with
  | nil => rfl
  | cons c calls ih =>
    rw [List.flatMap_cons, List.flatMap_cons, lastBit_append, Grouping.lastOf_append, ih, hcall]
    cases Grouping.lastOf pin (calls.flatMap (Call.sources amx)) <;> rfl

/-- After a run, failing calls included, SRC of a pin is the last source given to it. -/
theorem run_srcField {hwPins : ℕ} (h : TableInvariant hwPins amx) {calls : List Call}
    (hvalid : ∀ c ∈ calls, c.Valid amx) {pin : ℕ} (hpin : pin < 2 ^ 30) (rf : RegFile ℕ 32) :
    srcField ((runCalls amx calls rf).2 (aximuxReg pin)) =
      (Grouping.lastOf pin (calls.flatMap (Call.sources amx))).getD
        (srcField (rf (aximuxReg pin))) := by
  rw [runCalls_eq h.consistent hvalid]
  refine srcField_applyAll (fun _ => lastBit_calls_src h calls hpin) (fun e he => ?_) rf
  obtain ⟨c, -, he⟩ := List.mem_flatMap.mp he
  exact lt_of_le_of_lt (((sources_bounds h).2 e he).trans h.nalts_le) (by decide)

/-- The first member of a group reads back the last argument of a group call. -/
theorem lastOf_group_args {pin : ℕ} {pins : List ℕ} (hpin : pin ∈ pins) (param : BitVec 32)
    (configs : List (BitVec 32)) :
    Grouping.lastOf (pin, param) (pins.flatMap fun p => configs.map (applied p)) =
      Grouping.lastOf (pin, param) (configs.map (applied pin)) := by
  have hother : ∀ p, p ≠ pin →
      Grouping.lastOf (pin, param) (configs.map (applied p)) = none := by
    intro p hp
    rw [Grouping.lastOf_eq_none]
    intro x hx
    obtain ⟨config, -, rfl⟩ := List.mem_map.mp hx
    exact fun heq => hp (congrArg Prod.fst heq)
  induction pins with
  | nil => cases hpin
  | cons p pins ih =>
    rw [List.flatMap_cons, Grouping.lastOf_append]
    by_cases hp : p = pin
    · subst p
      by_cases hrest : pin ∈ pins
      · rw [ih hrest, Option.or_self]
      · have hnone : Grouping.lastOf (pin, param)
            (pins.flatMap fun p => configs.map (applied p)) = none := by
          rw [Grouping.lastOf_eq_none]
          intro x hx
          obtain ⟨p, hp, hx⟩ := List.mem_flatMap.mp hx
          exact Grouping.lastOf_eq_none.mp (hother p fun he => hrest (he ▸ hp)) x hx
        rw [hnone, Option.none_or]
    · rw [ih ((List.mem_cons.mp hpin).resolve_left (Ne.symm hp)), hother p hp, Option.or_none]

/-- A group read is a read of the first member. -/
theorem aximuxPinconfGroupGet_eq (h : amx.Consistent) {g pin : ℕ} {pins : List ℕ}
    (hg : Call.members amx g = pin :: pins) (config : BitVec 32) :
    aximuxPinconfGroupGet amx g config = aximuxPinconfGet pin config := by
  unfold Call.members at hg
  cases hgrp : amx.groups[g]? with
  | none =>
    rw [hgrp] at hg
    cases hg
  | some grp =>
    rw [hgrp] at hg
    have hn := h.group_npins grp (List.mem_of_getElem? hgrp)
    rw [show grp.pins = pin :: pins from hg] at hn
    simp only [aximuxPinconfGroupGet, aximuxGetGroupPins, fetch_of_getElem? hgrp, Prog.ret_bind, hn,
      show grp.pins = pin :: pins from hg]
    rfl

/-- After a successful group call the bits of a member hold the last flags of the list. -/
theorem group_config_bit {hwPins : ℕ} (h : TableInvariant hwPins amx) {g : ℕ}
    {configs : List (BitVec 32)} (hc : Call.Valid amx (.pinconfGroupSet g configs))
    (hshort : Call.ShortArgs (.pinconfGroupSet g configs))
    (hok : Call.result amx (.pinconfGroupSet g configs) = .ok ()) {pin : ℕ}
    (hpin : pin ∈ Call.members amx g) {q : ConfigParam}
    (hq : ∃ config ∈ configs, pinconfToConfigParam config = q.code) (rf : RegFile ℕ 32) :
    (((Call.prog amx (.pinconfGroupSet g configs)).run rf).2 (aximuxReg pin)).getLsbD q.bit =
      lastFlag (configs.map (applied pin)) pin q false := by
  have hsmall := registered_small h (configPins_registered h hc hpin)
  rw [Call.run_prog h.consistent hc, getLsbD_applyAll, lastBit_call h hc hok hshort hsmall,
    lastFlag,
    Call.args, Call.configPins, Call.configs, lastOf_group_args hpin]
  cases hlast : Grouping.lastOf (pin, q.code) (configs.map (applied pin)) with
  | some arg => rfl
  | none =>
    obtain ⟨config, hconfig, hparam⟩ := hq
    have hne := Grouping.lastOf_eq_none.mp hlast _ (List.mem_map_of_mem hconfig)
    exact absurd (congrArg (Prod.mk pin) hparam) hne

/-- Field independence over whole runs. Every call of a run, failing or not, changes bits of its
own field only; after a run of successful calls every parameter of every pin reads back the last
flag applied to it; and a group reads back what a successful group call applied. -/
theorem field_independence {info : BitVec 32} {np : List OfNode} (h : Accepts info np amx)
    (rf : RegFile ℕ 32) (calls : List Call) (hvalid : ∀ c ∈ calls, c.Valid amx)
    (hshort : ∀ c ∈ calls, c.ShortArgs) :
    (∀ before c after, calls = before ++ c :: after → ∀ r i, ¬ c.MayChange amx r i →
      ((runCalls amx (before ++ [c]) rf).2 r).getLsbD i =
        ((runCalls amx before rf).2 r).getLsbD i) ∧
    (Succeeds amx calls rf → ∀ pin, amx.Registered pin → ∀ (q : ConfigParam) (config : BitVec 32),
      pinconfToConfigParam config = q.code →
      ∃ word, (aximuxPinconfGet pin config).run (runCalls amx calls rf).2 =
          (.ok word, (runCalls amx calls rf).2) ∧
        pinconfToConfigParam word = q.code ∧
        pinconfToConfigArgument word =
          if lastFlag (calls.flatMap (Call.args amx)) pin q ((rf (aximuxReg pin)).getLsbD q.bit)
          then 1 else 0) ∧
    (∀ before g configs, calls = before ++ [.pinconfGroupSet g configs] →
      ((aximuxPinconfGroupSet amx g configs).run (runCalls amx before rf).2).1 = .ok () →
      ∀ pin pins, Call.members amx g = pin :: pins → ∀ q : ConfigParam,
        (∃ config ∈ configs, pinconfToConfigParam config = q.code) →
        ∀ config, pinconfToConfigParam config = q.code →
        ∃ word, (aximuxPinconfGroupGet amx g config).run (runCalls amx calls rf).2 =
            (.ok word, (runCalls amx calls rf).2) ∧
          pinconfToConfigParam word = q.code ∧
          pinconfToConfigArgument word =
            if lastFlag (configs.map (applied pin)) pin q false then 1 else 0) := by
  have hinv := tables_invariant (accepts_iff.mp h)
  refine ⟨?_, ?_, ?_⟩
  · rintro before c after rfl r i hi
    rw [runCalls_append, runCalls_singleton]
    refine call_frame hinv.consistent (hvalid c ?_) _ hi
    exact List.mem_append_right _ List.mem_cons_self
  · intro hok pin hpin q config hparam
    obtain ⟨word, hrun, hword, harg⟩ :=
      run_aximuxPinconfGet pin q hparam (runCalls amx calls rf).2
    rw [run_config_bit hinv hvalid hshort hok (registered_small hinv hpin)] at harg
    exact ⟨word, hrun, hword, harg⟩
  · rintro before g configs rfl hok pin pins hpins q hq config hparam
    have hlast : Call.pinconfGroupSet g configs ∈ before ++ [.pinconfGroupSet g configs] :=
      List.mem_append_right _ (List.mem_singleton_self _)
    have hmember : pin ∈ Call.members amx g := hpins ▸ List.mem_cons_self
    change ((Call.prog amx (.pinconfGroupSet g configs)).run _).1 = _ at hok
    rw [Call.run_prog hinv.consistent (hvalid _ hlast)] at hok
    rw [runCalls_append, runCalls_singleton, aximuxPinconfGroupGet_eq hinv.consistent hpins]
    obtain ⟨word, hrun, hword, harg⟩ := run_aximuxPinconfGet pin q hparam
      ((Call.prog amx (.pinconfGroupSet g configs)).run (runCalls amx before rf).2).2
    rw [group_config_bit hinv (hvalid _ hlast) (hshort _ hlast) hok hmember hq] at harg
    exact ⟨word, hrun, hword, harg⟩

/-- A run on the sample tables that sets SHORT of pin 2 and clears it again through a group. -/
def sampleRun : List Call :=
  [.pinconfSet 2 [0x180], .setMux 2 2, .pinconfGroupSet 2 [0x080, 0x181]]

theorem sampleRun_valid : ∀ c ∈ sampleRun, c.Valid sampleTables := by
  have hpin : sampleTables.Registered 2 := ⟨⟨2, "pin2", 2, ["gpio", "uart"]⟩, by decide, rfl⟩
  simp only [sampleRun, List.forall_mem_cons, List.not_mem_nil, false_imp_iff, implies_true,
    and_true]
  exact ⟨hpin, ⟨by decide, by decide⟩, show 2 < sampleTables.ngroups by decide⟩

theorem sampleRun_shortArgs : ∀ c ∈ sampleRun, c.ShortArgs := by
  simp [sampleRun, Call.ShortArgs, Call.configs, pinconfToConfigArgument]

theorem sampleRun_succeeds : Succeeds sampleTables sampleRun fun _ => 0 := by
  rw [succeeds_iff (tables_invariant tables_sample).consistent sampleRun_valid]
  decide +kernel

theorem field_independence_sample : ∃ word,
    (aximuxPinconfGet 2 0x80).run (runCalls sampleTables sampleRun fun _ => 0).2 =
      (.ok word, (runCalls sampleTables sampleRun fun _ => 0).2) ∧
    pinconfToConfigParam word = 0x80 ∧ pinconfToConfigArgument word = 0 := by
  have hpin : sampleTables.Registered 2 := ⟨⟨2, "pin2", 2, ["gpio", "uart"]⟩, by decide, rfl⟩
  obtain ⟨word, hrun, hparam, harg⟩ := (field_independence sampleTables_accepted (fun _ => 0)
    sampleRun sampleRun_valid sampleRun_shortArgs).2.1 sampleRun_succeeds 2 hpin .short 0x80 rfl
  exact ⟨word, hrun, hparam, harg.trans (by decide +kernel)⟩

end AximuxSystem.Driver
