import AximuxSystem.Driver.Dump
import AximuxSystem.Driver.Isolation

/-!
# Dumps taken while calls are made

The dump reads one register after the other, and calls may change registers in
between. Such a dump is no snapshot: its entries may be of different moments.
But each entry is of a moment there was, between two field writes of the calls,
and the moments never go back, from line to line and from dump to dump.
-/

namespace AximuxSystem.Driver

open Registers

section Performs

variable {amx : Aximux}

theorem pinconfEnd_performs (pin : ℕ) (configs : List (BitVec 32)) :
    Prog.Performs [] (pinconfEnd pin configs) := by
  unfold pinconfEnd
  split_ifs
  · exact .ret ()
  · exact .read fun _ => .stop _

theorem Call.tail_performs (c : Call) : Prog.Performs [] (c.tail amx) := by
  cases c with
  | setMux f g =>
    rw [tail]
    cases selectedEntries amx f g with
    | none => exact .stop _
    | some entries =>
      simp only [entryEnd]
      split_ifs
      · exact .ret ()
      · exact .stop _
  | pinconfSet pin configs => exact pinconfEnd_performs pin configs
  | pinconfGroupSet g configs =>
    rw [tail]
    cases members amx g with
    | nil => exact .ret ()
    | cons pin pins => exact pinconfEnd_performs pin configs

/-- A call performs its field writes and nothing more, also if it fails. -/
theorem Call.request_performs (h : amx.Consistent) {c : Call} (hc : c.Valid amx) :
    Prog.Performs (c.writes amx) ((Request.call c).prog amx) := by
  have htail : Prog.Performs [] (c.tail amx) := tail_performs c
  have hprog := htail.script (c.writes amx)
  rw [List.append_nil, ← prog_eq_script h hc] at hprog
  exact hprog.map fun _ => Reply.done

end Performs

section ReadOnly

variable {amx : Aximux}

theorem readOnly_aximuxPinconfGet (pin : ℕ) (config : BitVec 32) :
    (aximuxPinconfGet pin config).ReadOnly := by
  intro v
  split_ifs <;> trivial

/-- A request that is no call only reads. -/
theorem Request.readOnly {req : Request} (h : req.call? = none) : (req.prog amx).ReadOnly := by
  cases req with
  | call c => cases h
  | pinconfGet pin config => exact (readOnly_aximuxPinconfGet pin config).bind fun _ => trivial
  | pinconfGroupGet g config =>
    have hgroup : (aximuxGetGroupPins amx g).ReadOnly :=
      (readOnly_fetch amx.groups g).bind fun _ => trivial
    refine (hgroup.bind fun grp => ?_).bind fun _ => trivial
    dsimp only
    split_ifs
    · trivial
    · exact (readOnly_fetch grp.1 0).bind fun pin => readOnly_aximuxPinconfGet pin config
  | srcselShow => exact readOnly_srcselShow.bind fun _ => trivial

end ReadOnly

variable {info : BitVec 32} {np : List OfNode} {amx : Aximux}

/-- Dumps one after the other, each starting at the read where the last one ended. -/
theorem answered_dumps (h : Accepts info np amx) (o : ℕ → RegFile ℕ 32) (n k : ℕ) :
    (consumer amx (List.replicate n .srcselShow)).answered o k =
      (.ok ((List.range n).map fun j => .ok (.dump (Report.hexReport 2
        (dumpEntries o amx.pins (k + j * amx.pins.length))))), k + n * amx.pins.length) := by
  induction n generalizing k with
  | zero => simp [consumer, Prog.sequence, Prog.answered]
  | succ n ih =>
    have hdump : ((Request.srcselShow).prog amx).attempt.answered o k =
        (.ok (.ok (.dump (Report.hexReport 2 (dumpEntries o amx.pins k)))),
          k + amx.pins.length) := by
      rw [Prog.answered_attempt, Request.prog,
        Prog.answered_bind_of_ok (answered_srcselShow h o k)]
      rfl
    have hrest : (Prog.sequence ((List.replicate n .srcselShow).map (Request.prog amx))).answered o
        (k + amx.pins.length) = _ := ih (k + amx.pins.length)
    rw [consumer, List.replicate_succ, List.map_cons, Prog.sequence,
      Prog.answered_bind_of_ok hdump, Prog.answered_bind_of_ok hrest, List.range_succ_eq_map,
      List.map_cons, List.map_map, Nat.zero_mul, Nat.add_zero]
    simp only [Prog.answered, Function.comp_def, Nat.succ_mul, Nat.add_assoc,
      Nat.add_comm amx.pins.length]

/-- Party `w` makes calls, every other party takes dumps. -/
def besides {ι : Type} [DecidableEq ι] (amx : Aximux) (w : ι) (calls : List Call) (dumps : ι → ℕ)
    (s : ι) : RegProg (List (Except Stop Reply)) :=
  consumer amx (if s = w then calls.map .call else List.replicate (dumps s) .srcselShow)

section Besides

variable {ι : Type} [DecidableEq ι] {w : ι} {calls : List Call} {dumps : ι → ℕ}

theorem observed_besides : Observed w (besides amx w calls dumps) := by
  intro s hs
  rw [besides, if_neg hs]
  refine Prog.ReadOnly.sequence fun p hp => ?_
  obtain ⟨req, hreq, rfl⟩ := List.mem_map.mp hp
  rw [List.eq_of_mem_replicate hreq]
  exact Request.readOnly rfl

theorem besides_performs (h : amx.Consistent) (hcalls : ∀ c ∈ calls, c.Valid amx) :
    Prog.Performs (calls.flatMap (Call.writes amx)) (besides amx w calls dumps w) := by
  rw [besides, if_pos rfl, consumer, List.map_map]
  exact Prog.Performs.sequence fun c hc => Call.request_performs h (hcalls c hc)

end Besides

/-- Whatever the order of the register accesses, dumps taken while calls are made do not disturb
the calls, and each dump shows every pin as the first so many field writes of the calls left it,
a number that never goes down along a dump and from one dump of a party to its next. -/
theorem dumps_show_moments {ι : Type} [DecidableEq ι] (h : Accepts info np amx) (w : ι)
    (calls : List Call) (hcalls : ∀ c ∈ calls, c.Valid amx) (dumps : ι → ℕ) (rf : RegFile ℕ 32)
    (sched : List ι) : ∃ done : ℕ,
    (turns sched (besides amx w calls dumps) rf).2 =
      applyAll ((calls.flatMap (Call.writes amx)).take done) rf ∧
    (∀ q, ((turns sched (besides amx w calls dumps) rf).1 w).outcome? = some q →
      (q, (turns sched (besides amx w calls dumps) rf).2) = (besides amx w calls dumps w).run rf) ∧
    ∀ s, s ≠ w → ∀ q, ((turns sched (besides amx w calls dumps) rf).1 s).outcome? = some q →
      ∃ (moment : ℕ → ℕ) (texts : List String), Monotone moment ∧ (∀ k, moment k ≤ done) ∧
        q = .ok (texts.map fun text => .ok (.dump text)) ∧ texts.length = dumps s ∧
        ∀ (j : ℕ) (text : String), texts[j]? = some text →
          Report.readHexReport text = some (dumpEntries
            (fun k => applyAll ((calls.flatMap (Call.writes amx)).take (moment k)) rf)
            amx.pins (j * amx.pins.length)) := by
  have hcons := (tables_invariant (accepts_iff.mp h)).consistent
  have hobs : Observed w (besides amx w calls dumps) := observed_besides
  have hwrites : Prog.Performs (calls.flatMap (Call.writes amx)) (besides amx w calls dumps w) :=
    besides_performs hcons hcalls
  obtain ⟨done, hmono, hdone⟩ := hwrites.steps rf
  have hwriter := hobs.turns_writer sched rf
  obtain ⟨hprog, hregs⟩ := Prod.mk.inj hwriter
  refine ⟨done (sched.count w), hregs.trans (hdone _), fun q hq => ?_, fun s hs q hq => ?_⟩
  · rw [hprog] at hq
    rw [hregs, ← Prog.run_of_outcome hq, Prog.run_steps]
  · obtain ⟨time, htime, hle, hres⟩ := hobs.outcome hs hq
    have hfun : (fun k => (Prog.steps (time k) (besides amx w calls dumps w) rf).2) =
        fun k => applyAll ((calls.flatMap (Call.writes amx)).take (done (time k))) rf :=
      funext fun k => hdone (time k)
    rw [hfun, besides, if_neg hs, answered_dumps h] at hres
    refine ⟨fun k => done (time k), (List.range (dumps s)).map fun j => Report.hexReport 2
      (dumpEntries (fun k => applyAll ((calls.flatMap (Call.writes amx)).take (done (time k))) rf)
        amx.pins (0 + j * amx.pins.length)), hmono.comp htime, fun k => hmono (hle k), ?_,
      by simp, fun j text htext => ?_⟩
    · rw [hres, List.map_map]
      rfl
    · rw [List.getElem?_map, Option.map_eq_some_iff] at htext
      obtain ⟨i, hi, rfl⟩ := htext
      obtain ⟨hlt, rfl⟩ := List.getElem?_eq_some_iff.mp hi
      rw [readHexReport_dump h, List.getElem_range, Nat.zero_add]

/-- The calls select `uart` on pin 2 and `spi` on pin 0; a dump of two registers starts before the
first call and ends after the second. -/
def crossingTurns : List Party :=
  [.second, .first, .first, .first, .first, .second]

def crossingCalls : List Call := [.setMux 1 0, .setMux 2 1]

theorem crossingCalls_valid : ∀ c ∈ crossingCalls, c.Valid sampleTables :=
  List.forall_mem_cons.mpr ⟨⟨by decide, by decide⟩,
    List.forall_mem_singleton.mpr ⟨by decide, by decide⟩⟩

theorem dumps_show_moments_sample : ∃ (moment : ℕ → ℕ) (text : String), Monotone moment ∧
    ((turns crossingTurns (besides sampleTables .first crossingCalls fun _ => 1) fun _ => 0).1
      .second).outcome? = some (.ok [.ok (.dump text)]) ∧
    Report.readHexReport text = some (dumpEntries
      (fun k => applyAll ((crossingCalls.flatMap (Call.writes sampleTables)).take (moment k))
        fun _ => 0) sampleTables.pins 0) := by
  obtain ⟨done, -, -, hdumps⟩ := dumps_show_moments sampleTables_accepted Party.first crossingCalls
    crossingCalls_valid (fun _ => 1) (fun _ => 0) crossingTurns
  have hends : ((turns crossingTurns (besides sampleTables .first crossingCalls fun _ => 1)
      fun _ => 0).1 .second).outcome? = some _ := rfl
  obtain ⟨moment, texts, hmono, -, hq, hlen, htexts⟩ := hdumps .second (by decide) _ hends
  obtain ⟨text, rfl⟩ := List.length_eq_one_iff.mp hlen
  exact ⟨moment, text, hmono, hends.trans (congrArg some hq), htexts 0 text rfl⟩

/-- The dump shows pin 0 before the calls and pin 2 after them, a state that never was. -/
example : ((turns crossingTurns (besides sampleTables .first crossingCalls fun _ => 1) fun _ => 0).1
    .second).outcome? = some (.ok [.ok (.dump "pin0:0x00\npin2:0x01\n")]) := by decide +kernel

end AximuxSystem.Driver
