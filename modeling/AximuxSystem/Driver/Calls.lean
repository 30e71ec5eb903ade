import AximuxSystem.Driver.Selection

/-!
# Runs of calls

A call that changes registers is described by two pure functions: the masked
writes it performs and the code it returns. Both depend on the tables and the
arguments only, so a run is described by the concatenation of the writes of its
calls, failing calls included.
-/

namespace AximuxSystem.Driver

open Registers Fallible

/-- A call of one of the callbacks that change registers. -/
inductive Call where
  | setMux (funcSelector groupSelector : ℕ)
  | pinconfSet (pin : ℕ) (configs : List (BitVec 32))
  | pinconfGroupSet (group : ℕ) (configs : List (BitVec 32))
  deriving DecidableEq, Repr

namespace Call

variable (amx : Aximux)

def prog : Call → RegProg Unit
  | setMux f g => aximuxSetMux amx f g
  | pinconfSet pin configs => aximuxPinconfSet pin configs
  | pinconfGroupSet g configs => aximuxPinconfGroupSet amx g configs

/-- Selectors are in range and pins are registered. -/
def Valid : Call → Prop
  | setMux f g => f < amx.nfunctions ∧ g < amx.ngroups
  | pinconfSet pin _ => amx.Registered pin
  | pinconfGroupSet g _ => g < amx.ngroups

/-- The configuration words a call passes. -/
def configs : Call → List (BitVec 32)
  | setMux _ _ => []
  | pinconfSet _ configs => configs
  | pinconfGroupSet _ configs => configs

/-- Every configuration argument is below `2 ^ 16`. -/
def ShortArgs (c : Call) : Prop :=
  ∀ config ∈ c.configs, (pinconfToConfigArgument config).toNat < 2 ^ 16

/-- The members of a group, by selector. -/
def members (g : ℕ) : List ℕ :=
  match amx.groups[g]? with
  | some grp => grp.pins
  | none => []

/-- The pins a configuration call is made for. -/
def configPins : Call → List ℕ
  | setMux _ _ => []
  | pinconfSet pin _ => [pin]
  | pinconfGroupSet g _ => members amx g

/-- The (pin, source) pairs a selection programs, up to the first refused one. -/
def sources : Call → List (ℕ × ℕ)
  | setMux f g => programmed amx.nalts ((selectedEntries amx f g).getD [])
  | _ => []

/-- The masked writes a call performs. -/
def writes : Call → List (FieldWrite ℕ 32)
  | setMux f g => srcWrites (sources amx (setMux f g))
  | pinconfSet pin configs => pinconfWrites pin configs
  | pinconfGroupSet g configs => groupWrites (members amx g) configs

def configResult (configs : List (BitVec 32)) : Except Stop Unit :=
  if configs.all configSupported then .ok () else .error (.errno .ENOTSUPP)

/-- What a call returns. -/
def result : Call → Except Stop Unit
  | setMux f g =>
    match selectedEntries amx f g with
    | none => .error (.errno .EINVAL)
    | some entries =>
      if entries.all (entryOk amx.nalts) then .ok () else .error (.errno .EINVAL)
  | pinconfSet _ configs => configResult configs
  | pinconfGroupSet g configs =>
    match members amx g with
    | [] => .ok ()
    | _ :: _ => configResult configs

variable {amx}

theorem run_pinconfEnd (pin : ℕ) (configs : List (BitVec 32)) (rf : RegFile ℕ 32) :
    (pinconfEnd pin configs).run rf = (configResult configs, rf) := by
  unfold pinconfEnd configResult
  split_ifs <;> rfl

/-- What a call does after its writes. -/
def tail (amx : Aximux) : Call → RegProg Unit
  | setMux f g =>
    match selectedEntries amx f g with
    | none => .stop (.errno .EINVAL)
    | some entries => entryEnd amx.nalts entries
  | pinconfSet pin configs => pinconfEnd pin configs
  | pinconfGroupSet g configs => groupEnd (members amx g) configs

theorem prog_eq_script (h : amx.Consistent) {c : Call} (hc : c.Valid amx) :
    c.prog amx = Prog.script (c.writes amx) (c.tail amx) := by
  cases c with
  | setMux f g =>
    rw [prog, aximuxSetMux_eq h hc.1 hc.2, writes, sources, tail]
    cases selectedEntries amx f g <;> rfl
  | pinconfSet pin configs => exact aximuxPinconfSet_eq pin configs
  | pinconfGroupSet g configs =>
    have hg : g < amx.groups.length := hc
    have hgrp := List.getElem?_eq_getElem hg
    have hmembers : members amx g = amx.groups[g].pins := by rw [members, hgrp]
    rw [prog, aximuxPinconfGroupSet_eq hgrp (h.group_npins _ (List.getElem_mem hg)),
      forM_pinconfSet, writes, tail, hmembers]

theorem run_tail (amx : Aximux) (c : Call) (rf : RegFile ℕ 32) :
    (c.tail amx).run rf = (c.result amx, rf) := by
  cases c with
  | setMux f g =>
    rw [tail, result]
    cases selectedEntries amx f g with
    | none => rfl
    | some entries =>
      simp only [entryEnd]
      split_ifs <;> rfl
  | pinconfSet pin configs => exact run_pinconfEnd pin configs rf
  | pinconfGroupSet g configs =>
    rw [tail, result]
    cases members amx g with
    | nil => rfl
    | cons pin pins => exact run_pinconfEnd pin configs rf

theorem run_prog (h : amx.Consistent) {c : Call} (hc : c.Valid amx) (rf : RegFile ℕ 32) :
    (c.prog amx).run rf = (c.result amx, applyAll (c.writes amx) rf) := by
  rw [prog_eq_script h hc, Prog.run_script, run_tail]

theorem pinconfEnd_of_ok {configs : List (BitVec 32)} (h : configResult configs = .ok ())
    (pin : ℕ) : pinconfEnd pin configs = .ret () := by
  unfold configResult at h
  unfold pinconfEnd
  split_ifs at h ⊢
  rfl

/-- A successful call is its writes and nothing more. -/
theorem prog_of_ok (h : amx.Consistent) {c : Call} (hc : c.Valid amx)
    (hok : c.result amx = .ok ()) : c.prog amx = Prog.script (c.writes amx) (.ret ()) := by
  suffices htail : c.tail amx = .ret () by rw [prog_eq_script h hc, htail]
  cases c with
  | setMux f g =>
    rw [result] at hok
    rw [tail]
    cases hsel : selectedEntries amx f g with
    | none =>
      rw [hsel] at hok
      cases hok
    | some entries =>
      simp only [hsel, entryEnd] at hok ⊢
      split_ifs at hok ⊢
      rfl
  | pinconfSet pin configs => exact pinconfEnd_of_ok hok pin
  | pinconfGroupSet g configs =>
    rw [result] at hok
    rw [tail]
    cases hpins : members amx g with
    | nil => rfl
    | cons pin pins =>
      rw [hpins] at hok
      exact pinconfEnd_of_ok hok pin

end Call

/-! ### Runs -/

/-- Make the calls one after the other, whatever they return. -/
def runCalls (amx : Aximux) (calls : List Call) (rf : RegFile ℕ 32) :
    List (Except Stop Unit) × RegFile ℕ 32 :=
  Prog.runAll (calls.map (Call.prog amx)) rf

theorem runCalls_append (amx : Aximux) (before after : List Call) (rf : RegFile ℕ 32) :
    (runCalls amx (before ++ after) rf).2 = (runCalls amx after (runCalls amx before rf).2).2 := by
  rw [runCalls, List.map_append, Prog.runAll_append]
  rfl

theorem runCalls_singleton (amx : Aximux) (c : Call) (rf : RegFile ℕ 32) :
    (runCalls amx [c] rf).2 = ((c.prog amx).run rf).2 := rfl

theorem runCalls_eq {amx : Aximux} (h : amx.Consistent) {calls : List Call}
    (hcalls : ∀ c ∈ calls, c.Valid amx) (rf : RegFile ℕ 32) :
    runCalls amx calls rf =
      (calls.map (Call.result amx), applyAll (calls.flatMap (Call.writes amx)) rf) := by
  induction calls generalizing rf with
  | nil => rfl
  | cons c calls ih =>
    rw [List.forall_mem_cons] at hcalls
    have hrest := ih hcalls.2 (applyAll (c.writes amx) rf)
    rw [runCalls] at hrest
    rw [runCalls, List.map_cons, Prog.runAll_cons, Call.run_prog h hcalls.1, hrest, List.map_cons,
      List.flatMap_cons, applyAll_append]

/-- Every call of the run returns 0. -/
def Succeeds (amx : Aximux) (calls : List Call) (rf : RegFile ℕ 32) : Prop :=
  ∀ r ∈ (runCalls amx calls rf).1, r = .ok ()

theorem succeeds_iff {amx : Aximux} (h : amx.Consistent) {calls : List Call}
    (hcalls : ∀ c ∈ calls, c.Valid amx) (rf : RegFile ℕ 32) :
    Succeeds amx calls rf ↔ ∀ c ∈ calls, c.result amx = .ok () := by
  rw [Succeeds, runCalls_eq h hcalls, List.forall_mem_map]

end AximuxSystem.Driver
