import AximuxSystem.Driver.Isolation
import AximuxSystem.Driver.PinconfEffect

/-!
# What any run leaves behind

A call that is refused midway keeps the changes it has made, and an argument is
tested after it was cut to 16 bits. The arguments a call really applies are
described here for every call, so that the registers after any run follow. A
call that succeeds wipes out whatever earlier calls on its pins and parameters
did, completed or not.
-/

namespace AximuxSystem.Driver

open Registers Fallible

/-- The arguments a call applies before it returns, in order. -/
def Call.applies (amx : Aximux) : Call → List (PadKey × BitVec 32)
  | setMux _ _ => []
  | pinconfSet pin configs => (configs.takeWhile configSupported).map (applied pin)
  | pinconfGroupSet g configs =>
    if configs.all configSupported then
      (members amx g).flatMap fun pin => configs.map (applied pin)
    else
      ((members amx g).take 1).flatMap fun pin =>
        (configs.takeWhile configSupported).map (applied pin)

/-- What the last argument applied to a parameter of a pin makes of its bit. -/
def lastEffect (args : List (PadKey × BitVec 32)) (pin : ℕ) (q : ConfigParam) (old : Bool) : Bool :=
  ((Grouping.lastOf (pin, q.code) args).map argFlag).getD old

/-- The masked write that applies an argument as the driver tests it. -/
def effectWrite (x : PadKey × BitVec 32) : FieldWrite ℕ 32 := flagWrite x.1.1 (x.1.2, x.2)

section Writes

variable {amx : Aximux} {hwPins : ℕ}

theorem pinconfWrites_eq_applied (pin : ℕ) (configs : List (BitVec 32)) :
    pinconfWrites pin configs =
      ((configs.takeWhile configSupported).map (applied pin)).map effectWrite := by
  rw [pinconfWrites_eq_map, configArgs, List.map_map, List.map_map]
  rfl

/-- A configuration call performs exactly the writes of the arguments it applies. -/
theorem writes_eq_applies {c : Call} (hcfg : ∀ f g, c ≠ .setMux f g) :
    c.writes amx = (c.applies amx).map effectWrite := by
  cases c with
  | setMux f g => exact absurd rfl (hcfg f g)
  | pinconfSet pin configs => exact pinconfWrites_eq_applied pin configs
  | pinconfGroupSet g configs =>
    rw [Call.writes, Call.applies, groupWrites]
    split_ifs with hall
    · rw [List.map_flatMap]
      refine List.flatMap_congr fun pin _ => ?_
      rw [pinconfWrites_eq_applied, List.takeWhile_eq_self_iff.mpr (List.all_eq_true.mp hall)]
    · rw [List.map_flatMap]
      exact List.flatMap_congr fun pin _ => pinconfWrites_eq_applied pin configs

/-- A call applies arguments to its own pins, from its own configuration words. -/
theorem mem_applies {c : Call} {x : PadKey × BitVec 32} (hx : x ∈ c.applies amx) :
    ∃ pin ∈ c.configPins amx, ∃ config ∈ c.configs, configSupported config = true ∧
      x = applied pin config := by
  have hmem : ∀ pin (configs : List (BitVec 32)),
      x ∈ (configs.takeWhile configSupported).map (applied pin) →
        ∃ config ∈ configs, configSupported config = true ∧ x = applied pin config := by
    intro pin configs hx
    obtain ⟨config, hconfig, rfl⟩ := List.mem_map.mp hx
    exact ⟨config, List.takeWhile_subset _ hconfig,
      List.all_eq_true.mp List.all_takeWhile config hconfig, rfl⟩
  cases c with
  | setMux f g => cases hx
  | pinconfSet pin configs => exact ⟨pin, List.mem_singleton_self pin, hmem pin configs hx⟩
  | pinconfGroupSet g configs =>
    rw [Call.applies] at hx
    split_ifs at hx with hall
    · obtain ⟨pin, hpin, hx⟩ := List.mem_flatMap.mp hx
      rw [← List.takeWhile_eq_self_iff.mpr (List.all_eq_true.mp hall)] at hx
      exact ⟨pin, hpin, hmem pin configs hx⟩
    · obtain ⟨pin, hpin, hx⟩ := List.mem_flatMap.mp hx
      exact ⟨pin, List.mem_of_mem_take hpin, hmem pin configs hx⟩

/-- A call that returns 0 applies every word to every pin. -/
theorem applies_of_ok {c : Call} (hok : c.result amx = .ok ()) : c.applies amx = c.args amx := by
  cases c with
  | setMux f g => rfl
  | pinconfSet pin configs =>
    have hall := List.all_eq_true.mp (configResult_ok hok)
    rw [Call.applies, List.takeWhile_eq_self_iff.mpr hall, Call.args, Call.configPins,
      List.flatMap_singleton]
    rfl
  | pinconfGroupSet g configs =>
    simp only [Call.applies, Call.args, Call.configPins, Call.configs]
    rw [Call.result] at hok
    cases hpins : Call.members amx g with
    | nil => simp
    | cons pin pins =>
      rw [hpins] at hok
      rw [if_pos (configResult_ok hok)]

theorem effectWrite_covers {pin : ℕ} (hpin : pin < 2 ^ 30) (q : ConfigParam)
    {x : PadKey × BitVec 32} (hx : x.1.1 < 2 ^ 30) :
    (effectWrite x).covers (aximuxReg pin) q.bit = decide (x.1 = (pin, q.code)) := by
  have hcov : (effectWrite x).covers (aximuxReg pin) q.bit =
      (argWrite x).covers (aximuxReg pin) q.bit := rfl
  rw [hcov, argWrite_covers hpin q hx]

theorem applies_small (h : TableInvariant hwPins amx) {c : Call} (hc : c.Valid amx) :
    ∀ x ∈ c.applies amx, x.1.1 < 2 ^ 30 := by
  intro x hx
  obtain ⟨pin, hpin, config, -, -, rfl⟩ := mem_applies hx
  exact registered_small h (configPins_registered h hc hpin)

/-- A call, failing or not, leaves in a configuration bit the last argument it applies. -/
theorem lastBit_applies (h : TableInvariant hwPins amx) {c : Call} (hc : c.Valid amx) {pin : ℕ}
    (hpin : pin < 2 ^ 30) (q : ConfigParam) :
    lastBit (c.writes amx) (aximuxReg pin) q.bit =
      (Grouping.lastOf (pin, q.code) (c.applies amx)).map argFlag := by
  by_cases hmux : ∃ f g, c = .setMux f g
  · obtain ⟨f, g, rfl⟩ := hmux
    exact lastBit_srcWrites_high _ _ (bit_ge q)
  · rw [writes_eq_applies fun f g hc => hmux ⟨f, g, hc⟩,
      lastBit_map fun x hx => effectWrite_covers hpin q (applies_small h hc x hx)]
    congr 1
    funext arg
    rw [effectWrite, flagWrite, cfgBit_code, Option.getD_some]
    cases argFlag arg <;> simp [bit_lt]

theorem lastBit_run_applies (h : TableInvariant hwPins amx) {calls : List Call}
    (hvalid : ∀ c ∈ calls, c.Valid amx) {pin : ℕ} (hpin : pin < 2 ^ 30) (q : ConfigParam) :
    lastBit (calls.flatMap (Call.writes amx)) (aximuxReg pin) q.bit =
      (Grouping.lastOf (pin, q.code) (calls.flatMap (Call.applies amx))).map argFlag := by
  induction calls with
  | nil => rfl
  | cons c calls ih =>
    rw [List.forall_mem_cons] at hvalid
    rw [List.flatMap_cons, List.flatMap_cons, lastBit_append, Grouping.lastOf_append,
      ih hvalid.2, lastBit_applies h hvalid.1 hpin]
    cases Grouping.lastOf (pin, q.code) (calls.flatMap (Call.applies amx)) <;> rfl

/-- After any run each configuration bit is what the last argument applied to it made of it. -/
theorem run_effect_bit (h : TableInvariant hwPins amx) {calls : List Call}
    (hvalid : ∀ c ∈ calls, c.Valid amx) (rf : RegFile ℕ 32) {pin : ℕ} (hpin : pin < 2 ^ 30)
    (q : ConfigParam) : ((runCalls amx calls rf).2 (aximuxReg pin)).getLsbD q.bit =
      lastEffect (calls.flatMap (Call.applies amx)) pin q ((rf (aximuxReg pin)).getLsbD q.bit) := by
  rw [runCalls_eq h.consistent hvalid, getLsbD_applyAll, lastBit_run_applies h hvalid hpin]
  rfl

end Writes

/-! ### Calls that wipe out earlier ones -/

/-- Whatever the second call touches, the first one sets: a selection covers the members of an
earlier one, a configuration the pins and supported parameters of an earlier one. -/
inductive Call.Supersedes (amx : Aximux) : Call → Call → Prop
  | mux {f g f' g' : ℕ} (h : members amx g ⊆ members amx g') :
      Supersedes amx (.setMux f' g') (.setMux f g)
  | config {c c' : Call} (hcfg : ∀ f g, c ≠ .setMux f g) (hcfg' : ∀ f g, c' ≠ .setMux f g)
      (hpins : c.configPins amx ⊆ c'.configPins amx)
      (hparams : ∀ config ∈ c.configs, configSupported config = true →
        ∃ config' ∈ c'.configs, pinconfToConfigParam config' = pinconfToConfigParam config) :
      Supersedes amx c' c

section Supersedes

variable {amx : Aximux} {hwPins : ℕ} {c c' : Call}

/-- A bit of SRC that a selection writes is written by a successful selection of more pins. -/
theorem mux_overwrites {f g f' g' : ℕ} (hok : Call.result amx (.setMux f' g') = .ok ())
    (hsub : Call.members amx g ⊆ Call.members amx g') {r i : ℕ}
    (hnone : lastBit (Call.writes amx (.setMux f' g')) r i = none) :
    lastBit (Call.writes amx (.setMux f g)) r i = none := by
  rw [lastBit_eq_none_iff] at hnone ⊢
  intro w hw
  obtain ⟨e, he, rfl⟩ := List.mem_map.mp hw
  have hmem := hsub (sources_members he)
  rw [← sources_pins hok] at hmem
  obtain ⟨e', he', heq⟩ := List.mem_map.mp hmem
  have hcov := hnone _ (List.mem_map_of_mem he')
  rw [FieldWrite.covers, srcWrite, heq] at hcov
  exact hcov

/-- A configuration bit that a call writes is written by a successful call for the same pins and
parameters. -/
theorem config_overwrites (hcfg : ∀ f g, c ≠ .setMux f g) (hcfg' : ∀ f g, c' ≠ .setMux f g)
    (hok : c'.result amx = .ok ()) (hpins : c.configPins amx ⊆ c'.configPins amx)
    (hparams : ∀ config ∈ c.configs, configSupported config = true →
      ∃ config' ∈ c'.configs, pinconfToConfigParam config' = pinconfToConfigParam config)
    {r i : ℕ} (hnone : lastBit (c'.writes amx) r i = none) :
    lastBit (c.writes amx) r i = none := by
  rw [lastBit_eq_none_iff, writes_eq_applies hcfg', applies_of_ok hok] at hnone
  rw [lastBit_eq_none_iff, writes_eq_applies hcfg]
  intro w hw
  obtain ⟨x, hx, rfl⟩ := List.mem_map.mp hw
  obtain ⟨pin, hpin, config, hconfig, hsup, rfl⟩ := mem_applies hx
  obtain ⟨config', hconfig', hparam⟩ := hparams config hconfig hsup
  have hargs : applied pin config' ∈ c'.args amx :=
    List.mem_flatMap.mpr ⟨pin, hpins hpin, List.mem_map_of_mem hconfig'⟩
  have hcov := hnone _ (List.mem_map_of_mem hargs)
  rw [FieldWrite.covers, effectWrite, flagWrite, applied, hparam] at hcov
  exact hcov

/-- Every bit a call writes, a successful call that supersedes it writes as well. -/
theorem overwrites_of_supersedes (hok : c'.result amx = .ok ()) (h : c'.Supersedes amx c)
    {r i : ℕ} (hnone : lastBit (c'.writes amx) r i = none) : lastBit (c.writes amx) r i = none := by
  cases h with
  | mux hsub => exact mux_overwrites hok hsub hnone
  | config hcfg hcfg' hpins hparams => exact config_overwrites hcfg hcfg' hok hpins hparams hnone

end Supersedes

/-- A call that returns 0 leaves nothing of the calls it supersedes: the registers are as if these
calls, however many and however they ended, had never been made. -/
theorem superseded_calls_leave_nothing {info : BitVec 32} {np : List OfNode} {amx : Aximux}
    (h : Accepts info np amx) (calls : List Call) (c : Call) (hvalid : ∀ d ∈ calls, d.Valid amx)
    (hc : c.Valid amx) (hsup : ∀ d ∈ calls, c.Supersedes amx d) (rf : RegFile ℕ 32)
    (hok : ((c.prog amx).run rf).1 = .ok ()) :
    (runCalls amx (calls ++ [c]) rf).2 = (runCalls amx [c] rf).2 := by
  have hcons := (tables_invariant (accepts_iff.mp h)).consistent
  have hall : ∀ d ∈ calls ++ [c], d.Valid amx := List.forall_mem_append.mpr
    ⟨hvalid, List.forall_mem_singleton.mpr hc⟩
  rw [Call.run_prog hcons hc] at hok
  rw [runCalls_eq hcons hall, runCalls_eq hcons (List.forall_mem_singleton.mpr hc),
    List.flatMap_append, List.flatMap_singleton]
  refine applyAll_absorb (fun r i hnone => ?_) rf
  rw [lastBit_eq_none_iff]
  intro w hw
  obtain ⟨d, hd, hw⟩ := List.mem_flatMap.mp hw
  exact lastBit_eq_none_iff.mp (overwrites_of_supersedes hok (hsup d hd) hnone) w hw

/-- A list is refused at its second word, after SHORT was set; the retry leaves it out. -/
theorem superseded_calls_leave_nothing_sample :
    (runCalls sampleTables
        [.pinconfGroupSet 2 [0x180, 0x101], .pinconfGroupSet 2 [0x080, 0x181]] fun _ => 0).2 =
      (runCalls sampleTables [.pinconfGroupSet 2 [0x080, 0x181]] fun _ => 0).2 := by
  have hgroup : ∀ configs, Call.Valid sampleTables (.pinconfGroupSet 2 configs) :=
    fun _ => show 2 < sampleTables.ngroups by decide
  have hsup : Call.Supersedes sampleTables (.pinconfGroupSet 2 [0x080, 0x181])
      (.pinconfGroupSet 2 [0x180, 0x101]) := by
    refine .config (fun _ _ hc => by cases hc) (fun _ _ hc => by cases hc) (List.Subset.refl _) ?_
    refine List.forall_mem_cons.mpr ⟨fun _ => ⟨0x080, List.mem_cons_self, by decide⟩, ?_⟩
    exact List.forall_mem_singleton.mpr fun h => absurd h (by decide)
  exact superseded_calls_leave_nothing sampleTables_accepted [.pinconfGroupSet 2 [0x180, 0x101]]
    (.pinconfGroupSet 2 [0x080, 0x181]) (List.forall_mem_singleton.mpr (hgroup _)) (hgroup _)
    (List.forall_mem_singleton.mpr hsup) _ rfl

end AximuxSystem.Driver
