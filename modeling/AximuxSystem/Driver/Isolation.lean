import AximuxSystem.Driver.Requests
import AximuxSystem.Driver.Pinconf
import AximuxSystem.Foundation.Interleaving
import AximuxSystem.Foundation.Schedule

/-!
# Consumers with pins of their own

Several consumers use the driver at the same time, each making requests one
after the other. The driver takes no lock; what keeps consumers apart is that
every request stays within the registers of its own pins. Consumers of
different pins get the replies and leave the registers they would without each
other, in whatever order their register accesses come.
-/

namespace AximuxSystem.Driver

open Registers Fallible

/-- The pins a request is about. -/
def Request.pins (amx : Aximux) : Request → List ℕ
  | call (.setMux _ g) => Call.members amx g
  | call c => c.configPins amx
  | pinconfGet pin _ => [pin]
  | pinconfGroupGet g _ => Call.members amx g
  | srcselShow => amx.pins.map AximuxPin.number

/-- `r` is the register of one of the pins. -/
def RegisterOf (pins : List ℕ) (r : ℕ) : Prop := ∃ p ∈ pins, r = aximuxReg p

section Footprints

variable {hwPins : ℕ} {amx : Aximux}

/-- The pairs a selection programs are about members of its group. -/
theorem sources_members {f g : ℕ} {e : ℕ × ℕ} (he : e ∈ (Call.setMux f g).sources amx) :
    e.1 ∈ Call.members amx g := by
  rw [Call.sources] at he
  have he := List.takeWhile_subset _ he
  cases hsel : selectedEntries amx f g with
  | none =>
    rw [hsel] at he
    cases he
  | some entries =>
    rw [hsel, Option.getD_some] at he
    simp only [selectedEntries, Option.bind_eq_bind, Option.bind_eq_some_iff] at hsel
    obtain ⟨func, -, grp, hgrp, row, -, hsel⟩ := hsel
    split_ifs at hsel
    cases hsel
    rw [Call.members, hgrp]
    exact (List.of_mem_zip he).1

/-- A successful selection gives a source to exactly the members of its group, in order. -/
theorem sources_pins {f g : ℕ} (hok : Call.result amx (.setMux f g) = .ok ()) :
    ((Call.setMux f g).sources amx).map Prod.fst = Call.members amx g := by
  rw [Call.result] at hok
  rw [Call.sources, Call.members]
  cases hsel : selectedEntries amx f g with
  | none =>
    rw [hsel] at hok
    cases hok
  | some entries =>
    simp only [hsel] at hok
    split_ifs at hok with hall
    simp only [selectedEntries, Option.bind_eq_bind, Option.bind_eq_some_iff] at hsel
    obtain ⟨func, -, grp, hgrp, row, -, hsel⟩ := hsel
    split_ifs at hsel with hlen
    cases hsel
    rw [Option.getD_some, programmed, List.takeWhile_eq_self_iff.mpr (List.all_eq_true.mp hall),
      hgrp]
    exact List.map_fst_zip hlen.symm.le

theorem writes_pins {c : Call} {w : FieldWrite ℕ 32} (hw : w ∈ c.writes amx) :
    RegisterOf ((Request.call c).pins amx) w.reg := by
  cases c with
  | setMux f g =>
    obtain ⟨e, he, rfl⟩ := List.mem_map.mp hw
    exact ⟨e.1, sources_members he, rfl⟩
  | pinconfSet pin configs =>
    obtain ⟨p, hp, -, hreg, -⟩ := mem_config_writes (fun _ _ hc => by cases hc) hw
    exact ⟨p, hp, hreg⟩
  | pinconfGroupSet g configs =>
    obtain ⟨p, hp, -, hreg, -⟩ := mem_config_writes (fun _ _ hc => by cases hc) hw
    exact ⟨p, hp, hreg⟩

theorem pinconfEnd_within {S : ℕ → Prop} {pin : ℕ} (h : S (aximuxReg pin))
    (configs : List (BitVec 32)) : (pinconfEnd pin configs).Within S := by
  unfold pinconfEnd
  split_ifs
  · trivial
  · exact ⟨h, fun _ _ => trivial⟩

theorem tail_within (c : Call) :
    (c.tail amx).Within (RegisterOf ((Request.call c).pins amx)) := by
  cases c with
  | setMux f g =>
    rw [Call.tail]
    cases selectedEntries amx f g with
    | none => trivial
    | some entries =>
      simp only [entryEnd]
      split_ifs <;> trivial
  | pinconfSet pin configs =>
    exact pinconfEnd_within ⟨pin, List.mem_singleton_self pin, rfl⟩ configs
  | pinconfGroupSet g configs =>
    have hpins : (Request.call (.pinconfGroupSet g configs)).pins amx = Call.members amx g := rfl
    rw [Call.tail, hpins]
    cases Call.members amx g with
    | nil => trivial
    | cons pin pins => exact pinconfEnd_within ⟨pin, List.mem_cons_self, rfl⟩ configs

theorem pinconfGet_within {S : ℕ → Prop} {pin : ℕ} (h : S (aximuxReg pin)) (config : BitVec 32) :
    (aximuxPinconfGet pin config).Within S := by
  refine ⟨h, fun v _ => ?_⟩
  change Prog.Within S (_ >>= _)
  split_ifs <;> trivial

theorem pinconfGroupGet_within (h : amx.Consistent) {g : ℕ} (hg : g < amx.ngroups)
    (config : BitVec 32) : (aximuxPinconfGroupGet amx g config).Within
      (RegisterOf (Call.members amx g)) := by
  cases hpins : Call.members amx g with
  | nil =>
    obtain ⟨grp, hgrp⟩ : ∃ grp, amx.groups[g]? = some grp := ⟨_, List.getElem?_eq_getElem hg⟩
    rw [Call.members, hgrp] at hpins
    have hnone : grp.pins = [] := hpins
    have hzero : grp.npins = 0 := by
      rw [h.group_npins grp (List.mem_of_getElem? hgrp), hnone, List.length_nil]
    simp only [aximuxPinconfGroupGet, aximuxGetGroupPins, fetch_of_getElem? hgrp, Prog.ret_bind,
      hzero, if_true]
    trivial
  | cons pin pins =>
    rw [aximuxPinconfGroupGet_eq h hpins]
    exact pinconfGet_within ⟨pin, List.mem_cons_self, rfl⟩ config

theorem srcselShow_within (h : amx.Consistent) :
    (srcselShow amx).Within (RegisterOf (amx.pins.map AximuxPin.number)) := by
  refine Prog.Safe.foldlM fun buf i hi => ?_
  have hlt : i < amx.pins.length := by
    rw [h.pins_length]
    exact List.mem_range.mp hi
  rw [srcselShowPin, fetch_of_getElem? (List.getElem?_eq_getElem hlt), Prog.ret_bind]
  exact ⟨⟨_, List.mem_map_of_mem (List.getElem_mem hlt), rfl⟩, fun _ _ => trivial⟩

/-- A request keeps to the registers of its pins. -/
theorem Request.within (h : amx.Consistent) {req : Request} (hreq : req.Valid amx) :
    (req.prog amx).Within (RegisterOf (req.pins amx)) := by
  cases req with
  | call c =>
    refine Prog.Safe.bind ?_ fun _ => trivial
    rw [Call.prog_eq_script h hreq]
    exact Prog.Safe.script (fun w hw => writes_pins hw) (fun _ _ _ _ => trivial) (tail_within c)
  | pinconfGet pin config =>
    exact (pinconfGet_within ⟨pin, List.mem_singleton_self pin, rfl⟩ config).bind fun _ => trivial
  | pinconfGroupGet g config => exact (pinconfGroupGet_within h hreq config).bind fun _ => trivial
  | srcselShow => exact (srcselShow_within h).bind fun _ => trivial

/-- The pins of a valid request are registered. -/
theorem Request.pins_registered (h : TableInvariant hwPins amx) {req : Request}
    (hreq : req.Valid amx) {p : ℕ} (hp : p ∈ req.pins amx) : amx.Registered p := by
  have hgroup : ∀ g, g < amx.ngroups → p ∈ Call.members amx g → amx.Registered p :=
    fun g hg hmem => configPins_registered h (c := .pinconfGroupSet g []) hg hmem
  cases req with
  | call c =>
    cases c with
    | setMux f g => exact hgroup g hreq.2 hp
    | pinconfSet pin configs =>
      exact configPins_registered h (c := .pinconfSet pin configs) hreq hp
    | pinconfGroupSet g configs => exact hgroup g hreq hp
  | pinconfGet pin config =>
    rw [List.mem_singleton.mp hp]
    exact hreq
  | pinconfGroupGet g config => exact hgroup g hreq hp
  | srcselShow => exact List.mem_map.mp hp

end Footprints

/-! ### Consumers -/

/-- A consumer makes its requests one after the other and collects the replies. -/
def consumer (amx : Aximux) (reqs : List Request) : RegProg (List (Except Stop Reply)) :=
  Prog.sequence (reqs.map (Request.prog amx))

/-- The pins of a list of requests. -/
def requestPins (amx : Aximux) (reqs : List Request) : List ℕ := reqs.flatMap (Request.pins amx)

/-- What a consumer gets and leaves when it has the controller for itself. -/
def alone (amx : Aximux) (reqs : List Request) (rf : RegFile ℕ 32) :
    List (Except Stop Reply) × RegFile ℕ 32 :=
  Prog.runAll (reqs.map (Request.prog amx)) rf

theorem run_consumer (amx : Aximux) (reqs : List Request) (rf : RegFile ℕ 32) :
    (consumer amx reqs).run rf = (.ok (alone amx reqs rf).1, (alone amx reqs rf).2) :=
  Prog.run_sequence _ rf

variable {info : BitVec 32} {np : List OfNode} {amx : Aximux} {ι : Type}

theorem separated_consumers (h : TableInvariant (infoPins info) amx) {reqs : ι → List Request}
    (hvalid : ∀ s, ∀ req ∈ reqs s, req.Valid amx)
    (hdis : ∀ s s', s ≠ s' → (requestPins amx (reqs s)).Disjoint (requestPins amx (reqs s'))) :
    Separated (fun s => RegisterOf (requestPins amx (reqs s))) fun s => consumer amx (reqs s) := by
  have hsmall : ∀ s, ∀ p ∈ requestPins amx (reqs s), p < 2 ^ 30 := by
    intro s p hp
    obtain ⟨req, hreq, hp⟩ := List.mem_flatMap.mp hp
    exact registered_small h (Request.pins_registered h (hvalid s req hreq) hp)
  constructor
  · intro s
    refine Prog.Within.sequence fun p hp => ?_
    obtain ⟨req, hreq, rfl⟩ := List.mem_map.mp hp
    refine (Request.within h.consistent (hvalid s req hreq)).mono ?_ fun _ _ => trivial
    rintro r ⟨p, hp, rfl⟩
    exact ⟨p, List.mem_flatMap.mpr ⟨req, hreq, hp⟩, rfl⟩
  · rintro s s' r hne ⟨p, hp, rfl⟩ ⟨p', hp', heq⟩
    have hpp := aximuxReg_inj (hsmall s p hp) (hsmall s' p' hp') heq
    exact hdis s s' hne hp (hpp ▸ hp')

/-- Consumers of different pins do not disturb each other, however many there are and in whatever
order their register accesses come: whoever has finished got the replies and left its pins'
registers as if alone, registers of nobody's pins never change, and whoever gets enough turns
finishes. -/
theorem consumers_isolated [DecidableEq ι] (h : Accepts info np amx) (reqs : ι → List Request)
    (hvalid : ∀ s, ∀ req ∈ reqs s, req.Valid amx)
    (hdis : ∀ s s', s ≠ s' → (requestPins amx (reqs s)).Disjoint (requestPins amx (reqs s')))
    (rf : RegFile ℕ 32) :
    (∀ sched s q, ((turns sched (fun s => consumer amx (reqs s)) rf).1 s).outcome? = some q →
      q = .ok (alone amx (reqs s) rf).1 ∧ ∀ p ∈ requestPins amx (reqs s),
        (turns sched (fun s => consumer amx (reqs s)) rf).2 (aximuxReg p) =
          (alone amx (reqs s) rf).2 (aximuxReg p)) ∧
    (∀ sched r, (∀ s, ∀ p ∈ requestPins amx (reqs s), r ≠ aximuxReg p) →
      (turns sched (fun s => consumer amx (reqs s)) rf).2 r = rf r) ∧
    ∀ s, ∃ k, ∀ sched : List ι, k ≤ sched.count s →
      ∃ q, ((turns sched (fun s => consumer amx (reqs s)) rf).1 s).outcome? = some q := by
  have hsep := separated_consumers (tables_invariant (accepts_iff.mp h)) hvalid hdis
  refine ⟨fun sched s q hq => ?_, fun sched r hr => ?_, fun s => ?_⟩
  · obtain ⟨hres, hregs⟩ := hsep.outcome hq
    rw [run_consumer] at hres hregs
    exact ⟨hres, fun p hp => hregs _ ⟨p, hp, rfl⟩⟩
  · refine hsep.turns_frame (fun s => ?_) sched rf
    rintro ⟨p, hp, heq⟩
    exact hr s p hp heq
  · obtain ⟨k, hk⟩ := Prog.exists_endsWithin (consumer amx (reqs s))
    exact ⟨k, fun sched hcount => turns_ends hk hcount⟩

/-- One consumer selects `spi` on pin 0, the other sets SHORT of pin 2 and reads it back. -/
def samplePair : Party → List Request
  | .first => [.call (.setMux 1 0)]
  | .second => [.call (.pinconfSet 2 [0x180]), .pinconfGet 2 0x80]

theorem samplePair_valid (s : Party) : ∀ req ∈ samplePair s, req.Valid sampleTables := by
  have hpin : sampleTables.Registered 2 := ⟨⟨2, "pin2", 2, ["gpio", "uart"]⟩, by decide, rfl⟩
  cases s with
  | first => exact List.forall_mem_singleton.mpr ⟨by decide, by decide⟩
  | second => exact List.forall_mem_cons.mpr ⟨hpin, List.forall_mem_singleton.mpr hpin⟩

theorem samplePair_disjoint (s s' : Party) (h : s ≠ s') :
    (requestPins sampleTables (samplePair s)).Disjoint
      (requestPins sampleTables (samplePair s')) := by
  have hpins : requestPins sampleTables (samplePair .first) = [0] ∧
      requestPins sampleTables (samplePair .second) = [2, 2] := by decide
  cases s with
  | first =>
    cases s' with
    | first => exact absurd rfl h
    | second =>
      rw [hpins.1, hpins.2]
      simp
  | second =>
    cases s' with
    | first =>
      rw [hpins.1, hpins.2]
      simp
    | second => exact absurd rfl h

/-- The accesses of the two consumers in turn. -/
def sampleTurns : List Party := [.first, .second, .second, .first, .second]

theorem consumers_isolated_sample :
    ((turns sampleTurns (fun s => consumer sampleTables (samplePair s)) fun _ => 0).1
        .second).outcome? = some (.ok (alone sampleTables (samplePair .second) fun _ => 0).1) ∧
    (turns sampleTurns (fun s => consumer sampleTables (samplePair s)) fun _ => 0).2 0 = 1 := by
  obtain ⟨hends, -⟩ := consumers_isolated sampleTables_accepted samplePair samplePair_valid
    samplePair_disjoint fun _ => 0
  obtain ⟨-, hfirst⟩ := hends sampleTurns .first _ rfl
  have hsecond : ((turns sampleTurns (fun s => consumer sampleTables (samplePair s))
      fun _ => 0).1 .second).outcome? = some _ := rfl
  obtain ⟨hres, -⟩ := hends sampleTurns .second _ hsecond
  rw [← hres]
  exact ⟨hsecond, hfirst 0 (by decide)⟩

end AximuxSystem.Driver
