import AximuxSystem.Driver.TableInvariant

/-!
# The callbacks stay inside the tables and the pin registers

Over tables that satisfy the invariant no callback indexes outside an array,
and every register it accesses is the SRCSEL register of a registered pin. The
lemmas carry a contract on register contents along, which the callbacks keep
if the single field writes do.
-/

namespace AximuxSystem.Driver

open Registers Fallible

/-- The write keeps the contract of its register. -/
def Keeps (P : ℕ → BitVec 32 → Prop) (w : FieldWrite ℕ 32) : Prop :=
  ∀ old, P w.reg old → P w.reg (w.merge old)

/-- The program accesses pin registers only, keeps their contract and indexes inside the tables. -/
abbrev Contained {α : Type} (amx : Aximux) (P : ℕ → BitVec 32 → Prop) (p : RegProg α) : Prop :=
  p.Safe amx.PinRegister P (· ≠ .fault)

section Callbacks

variable {hwPins : ℕ} {amx : Aximux} {P : ℕ → BitVec 32 → Prop}

theorem selectedEntries_mem {f g : ℕ} {entries : List (ℕ × ℕ)}
    (h : selectedEntries amx f g = some entries) {e : ℕ × ℕ} (he : e ∈ entries) :
    ∃ grp ∈ amx.groups, e.1 ∈ grp.pins := by
  simp only [selectedEntries, Option.bind_eq_bind, Option.bind_eq_some_iff] at h
  obtain ⟨func, -, grp, hgrp, row, -, h⟩ := h
  split_ifs at h
  cases h
  exact ⟨grp, List.mem_of_getElem? hgrp, (List.of_mem_zip he).1⟩

theorem aximuxSetMux_contained (h : TableInvariant hwPins amx) {f g : ℕ}
    (hf : f < amx.nfunctions) (hg : g < amx.ngroups)
    (hP : ∀ pin src, amx.Registered pin → src ≤ amx.nalts → Keeps P (srcWrite pin src)) :
    Contained amx P (aximuxSetMux amx f g) := by
  rw [aximuxSetMux_eq h.consistent hf hg]
  cases hsel : selectedEntries amx f g with
  | none => exact nofun
  | some entries =>
    have hentry : ∀ w ∈ entryWrites amx.nalts entries, ∃ pin src,
        amx.Registered pin ∧ src ≤ amx.nalts ∧ w = srcWrite pin src := by
      intro w hw
      obtain ⟨e, he, rfl⟩ := List.mem_map.mp hw
      obtain ⟨grp, hgrp, hp⟩ := selectedEntries_mem hsel (List.takeWhile_subset _ he)
      have hok : entryOk amx.nalts e := List.all_eq_true.mp List.all_takeWhile e he
      rw [entryOk, Bool.and_eq_true, decide_eq_true_eq, decide_eq_true_eq] at hok
      exact ⟨e.1, e.2, (h.member grp hgrp e.1 hp).2, hok.2, rfl⟩
    refine Prog.Safe.script ?_ ?_ ?_
    · intro w hw
      obtain ⟨pin, src, hpin, -, rfl⟩ := hentry w hw
      exact ⟨pin, hpin, rfl⟩
    · intro w hw
      obtain ⟨pin, src, hpin, hsrc, rfl⟩ := hentry w hw
      exact hP pin src hpin hsrc
    · unfold entryEnd
      split_ifs
      · trivial
      · exact nofun

theorem aximuxPinconfGet_contained {pin : ℕ} (hpin : amx.Registered pin) (config : BitVec 32) :
    Contained amx P (aximuxPinconfGet pin config) := by
  refine ⟨⟨pin, hpin, rfl⟩, fun v _ => ?_⟩
  change Contained amx P (_ >>= _)
  split_ifs
  · trivial
  · trivial
  · trivial
  · exact nofun

theorem configWrite_reg {pin : ℕ} {config : BitVec 32} {w : FieldWrite ℕ 32}
    (h : configWrite pin config = some w) : w.reg = aximuxReg pin := by
  obtain ⟨bit, -, rfl⟩ := Option.map_eq_some_iff.mp h
  rfl

theorem refuse_contained {pin : ℕ} (hpin : amx.Registered pin) : Contained amx P (refuse pin) :=
  ⟨⟨pin, hpin, rfl⟩, fun _ _ => nofun⟩

theorem aximuxPinconfSet_contained {pin : ℕ} (hpin : amx.Registered pin)
    (hP : ∀ config w, configWrite pin config = some w → Keeps P w) (configs : List (BitVec 32)) :
    Contained amx P (aximuxPinconfSet pin configs) := by
  refine Prog.Safe.forM fun config _ => ?_
  rw [aximuxPinconfSetOne_eq]
  cases hw : configWrite pin config with
  | none => exact refuse_contained hpin
  | some w =>
    exact Prog.Safe.modify ⟨pin, hpin, configWrite_reg hw⟩ (hP config w hw) trivial

theorem aximuxPinconfGroupGet_contained (h : TableInvariant hwPins amx) {g : ℕ}
    (hg : g < amx.ngroups) (config : BitVec 32) :
    Contained amx P (aximuxPinconfGroupGet amx g config) := by
  obtain ⟨grp, hgrp⟩ : ∃ grp, amx.groups[g]? = some grp := ⟨_, List.getElem?_eq_getElem hg⟩
  have hmem := List.mem_of_getElem? hgrp
  have hn := h.group_npins grp hmem
  simp only [aximuxPinconfGroupGet, aximuxGetGroupPins, fetch_of_getElem? hgrp, Prog.ret_bind, hn]
  cases hpins : grp.pins with
  | nil =>
    intro hfault
    cases hfault
  | cons pin pins =>
    have hpin : pin ∈ grp.pins := hpins ▸ List.mem_cons_self
    exact aximuxPinconfGet_contained (h.member grp hmem pin hpin).2 config

theorem aximuxPinconfGroupSet_contained (h : TableInvariant hwPins amx) {g : ℕ}
    (hg : g < amx.ngroups)
    (hP : ∀ pin config w, amx.Registered pin → configWrite pin config = some w → Keeps P w)
    (configs : List (BitVec 32)) : Contained amx P (aximuxPinconfGroupSet amx g configs) := by
  obtain ⟨grp, hgrp⟩ : ∃ grp, amx.groups[g]? = some grp := ⟨_, List.getElem?_eq_getElem hg⟩
  have hmem := List.mem_of_getElem? hgrp
  rw [aximuxPinconfGroupSet_eq hgrp (h.group_npins grp hmem)]
  refine Prog.Safe.forM fun pin hpin => ?_
  have hreg := (h.member grp hmem pin hpin).2
  exact aximuxPinconfSet_contained hreg (fun config w => hP pin config w hreg) configs

theorem srcselShow_contained (h : TableInvariant hwPins amx) :
    Contained amx P (srcselShow amx) := by
  refine Prog.Safe.foldlM fun buf i hi => ?_
  have hlt : i < amx.pins.length := by
    rw [h.pins_length]
    exact List.mem_range.mp hi
  rw [srcselShowPin, fetch_of_getElem? (List.getElem?_eq_getElem hlt), Prog.ret_bind]
  exact ⟨⟨_, ⟨_, List.getElem_mem hlt, rfl⟩, rfl⟩, fun v _ => trivial⟩

end Callbacks

/-! ### From the table code to the callbacks -/

/-- The table code never indexes outside an array, whatever the tree and the allocator do. -/
theorem probe_no_fault (info : BitVec 32) (np : List OfNode) (served : ℕ → Bool) :
    (aximuxProbeTables info np (Kernel.initial served)).1 ≠ .error .fault := by
  obtain ⟨-, h⟩ := Builds.probeTables info np (Kernel.initial served) rfl
  intro hf
  rw [hf] at h
  rcases h with h | ⟨h, -⟩
  · cases ht : tables info np <;> rw [ht] at h <;> cases h
  · cases h

/-- The second pass fills exactly the entries the first pass counted. -/
theorem parsePins_fills {info : BitVec 32} {np : List OfNode} {served : ℕ → Bool} {k : Kernel}
    (h : aximuxProbeTables info np (Kernel.initial served) = (.ok (), k)) :
    ∃ k', aximuxParsePins info np (Kernel.initial served) = (.ok k'.amx.npins, k') ∧
      k'.amx.npins = k.amx.npins ∧ k'.amx.pins = k.amx.pins ∧
      k'.amx.pindescs = k.amx.pindescs := by
  have hk := tables_of_probe h
  obtain ⟨hpos, hle, pins, extra, hpins, -, hamx⟩ := tables_eq_ok.mp hk
  obtain ⟨idx, k', hrun⟩ : ∃ idx k', aximuxParsePins info np (Kernel.initial served) =
      (.ok idx, k') := by
    cases hrun : aximuxParsePins info np (Kernel.initial served) with
    | mk q k' =>
      cases q with
      | ok idx => exact ⟨idx, k', rfl⟩
      | error e =>
        rw [aximuxProbeTables, Comp.bind_of_error hrun] at h
        cases h
  have hparse := (Builds.parsePins info np).of_ok hrun
  rw [if_neg (by omega), hpins] at hparse
  have hidx : pins.length = idx ∧ (⟨pins.length, altLimit (infoAlts info), pins,
      pins.map AximuxPin.desc, [], []⟩ : Aximux) = k'.amx := by
    simpa using hparse
  obtain ⟨rfl, hk'⟩ := hidx
  refine ⟨k', ?_, ?_⟩
  · rw [hrun, ← hk']
  · rw [hamx, ← hk']
    exact ⟨rfl, rfl, rfl⟩

/-- Table invariant and register range safety: whatever tree was accepted, the tables have the
shape the callbacks rely on, and the callbacks stay inside the tables and the registers of the
registered pins, whatever the registers hold. -/
theorem accepted_tables_safe {info : BitVec 32} {np : List OfNode} {served : ℕ → Bool} {k : Kernel}
    (h : aximuxProbeTables info np (Kernel.initial served) = (.ok (), k)) :
    (∃ k', aximuxParsePins info np (Kernel.initial served) = (.ok k'.amx.npins, k') ∧
      k'.amx.npins = k.amx.npins ∧ k'.amx.pins = k.amx.pins ∧ k'.amx.pindescs = k.amx.pindescs) ∧
    TableInvariant (infoPins info) k.amx ∧
    (∀ r, k.amx.PinRegister r → ∃ p, k.amx.Registered p ∧ r = 4 * p ∧ r < aximuxRegMuxinfo) ∧
    (∀ f g, f < k.amx.nfunctions → g < k.amx.ngroups →
      Contained k.amx (fun _ _ => True) (aximuxSetMux k.amx f g)) ∧
    (∀ pin config, k.amx.Registered pin →
      Contained k.amx (fun _ _ => True) (aximuxPinconfGet pin config)) ∧
    (∀ pin configs, k.amx.Registered pin →
      Contained k.amx (fun _ _ => True) (aximuxPinconfSet pin configs)) ∧
    (∀ g config, g < k.amx.ngroups →
      Contained k.amx (fun _ _ => True) (aximuxPinconfGroupGet k.amx g config)) ∧
    (∀ g configs, g < k.amx.ngroups →
      Contained k.amx (fun _ _ => True) (aximuxPinconfGroupSet k.amx g configs)) ∧
    Contained k.amx (fun _ _ => True) (srcselShow k.amx) := by
  have hinv := tables_invariant (tables_of_probe h)
  refine ⟨parsePins_fills h, hinv, fun r => hinv.pinRegister_lt, ?_, ?_, ?_, ?_, ?_, ?_⟩
  · exact fun f g hf hg => aximuxSetMux_contained hinv hf hg fun _ _ _ _ _ _ => trivial
  · exact fun pin config hpin => aximuxPinconfGet_contained hpin config
  · exact fun pin configs hpin => aximuxPinconfSet_contained hpin (fun _ _ _ _ _ => trivial) configs
  · exact fun g config hg => aximuxPinconfGroupGet_contained hinv hg config
  · exact fun g configs hg =>
      aximuxPinconfGroupSet_contained hinv hg (fun _ _ _ _ _ _ _ => trivial) configs
  · exact srcselShow_contained hinv

theorem accepted_tables_safe_sample : ∃ k : Kernel, k.amx = sampleTables ∧
    TableInvariant (infoPins 0x408) k.amx ∧
    Contained k.amx (fun _ _ => True) (srcselShow k.amx) := by
  obtain ⟨k, hrun, hamx⟩ := probe_of_tables (fun _ => true) (fun _ => rfl) tables_sample
  obtain ⟨-, hinv, -, -, -, -, -, -, hshow⟩ := accepted_tables_safe hrun
  exact ⟨k, hamx, hinv, hshow⟩

end AximuxSystem.Driver
