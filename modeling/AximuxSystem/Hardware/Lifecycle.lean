import AximuxSystem.Driver.Moments
import AximuxSystem.Driver.PlatformProbe
import AximuxSystem.Hardware.AnyRun

/-!
# Binding and unbinding the driver

A driver can be unbound from the core and bound again, and a bind can fail.
Neither touches a register: a probe reads MUXINFO only, which no request writes,
and builds the tables it built before. So a run with any number of rebinds
leaves the core as one driver would that served the same requests without a
break.
-/

namespace AximuxSystem.Hardware

open Registers Driver

/-- What can happen to the device: a bind with some behaviour of the allocator, an unbind, and a
request, which reaches the driver only while one is bound. -/
inductive Event where
  | bind (served : ℕ → Bool)
  | unbind
  | request (req : Request)

/-- The registers of the core, the driver bound to it, and the replies given so far. -/
structure System where
  hw : RegFile ℕ 32
  driver : Option Binding
  replies : List (Except Stop Reply)

namespace System

def initial (core : Core) : System := ⟨core.reset, none, []⟩

/-- The kernel does not bind a second driver, and what a failed probe has registered is released
with its other managed resources. -/
def step (core : Core) (plat : Platform) (sys : System) : Event → System
  | .bind served =>
    match sys.driver with
    | some _ => sys
    | none =>
      match aximuxProbe plat (core.slave.read sys.hw aximuxRegMuxinfo)
        (Machine.initial served) with
      | (.ok (), m) => { sys with driver := some m.binding }
      | (.error _, _) => sys
  | .unbind => { sys with driver := none }
  | .request req =>
    match sys.driver with
    | some b =>
      { sys with
        hw := ((req.prog b.amx).exec core.slave sys.hw).2
        replies := sys.replies ++ [((req.prog b.amx).exec core.slave sys.hw).1] }
    | none => sys

def run (core : Core) (plat : Platform) (sys : System) (events : List Event) : System :=
  events.foldl (step core plat) sys

end System

/-- A probe call ends well. -/
def binds (plat : Platform) (info : BitVec 32) (served : ℕ → Bool) : Bool :=
  (aximuxProbe plat info (Machine.initial served)).1.isOk

/-- The requests that reach a bound driver, for given outcomes of the binds. -/
def taken (binds : (ℕ → Bool) → Bool) : Bool → List Event → List Request
  | _, [] => []
  | bound, .bind served :: events => taken binds (bound || binds served) events
  | _, .unbind :: events => taken binds false events
  | bound, .request req :: events =>
    if bound then req :: taken binds bound events else taken binds bound events

variable {core : Core} {plat : Platform} {amx : Aximux}

theorem accepts_of_bindTables (h : bindTables plat core.info = .ok amx) :
    Accepts core.info plat.np amx :=
  accepts_iff.mpr (bindTables_eq_ok.mp h).2.1

/-- Writes to SRCSEL leave MUXINFO as it is. -/
theorem info_of_write {s : RegFile ℕ 32} {r : ℕ} (hr : core.SrcselAddress r) (v : BitVec 32)
    (hs : core.slave.read s aximuxRegMuxinfo = core.info) :
    core.slave.read (core.slave.write s r v) aximuxRegMuxinfo = core.info := by
  obtain ⟨p, hp, rfl⟩ := hr
  have hne : aximuxRegMuxinfo ≠ 4 * p := by
    have hle := core.muxSignals_le
    unfold aximuxRegMuxinfo
    omega
  have hread : ∀ s, core.slave.read s aximuxRegMuxinfo = s aximuxRegMuxinfo :=
    Core.slave_read_muxinfo
  rw [hread] at hs ⊢
  rw [Core.slave_write_srcsel s hp, FieldWrite.apply, Function.update_of_ne hne, hs]

/-- No request changes MUXINFO or indexes outside a table. -/
theorem exec_request (h : Accepts core.info plat.np amx) {req : Request} (hreq : req.Valid amx)
    {s : RegFile ℕ 32} (hs : core.slave.read s aximuxRegMuxinfo = core.info) :
    core.slave.read ((req.prog amx).exec core.slave s).2 aximuxRegMuxinfo = core.info ∧
      ((req.prog amx).exec core.slave s).1 ≠ .error .fault := by
  have hcontained : Contained amx (fun _ _ => True) (req.prog amx) :=
    Request.contained (accepted_invariant h) (fun _ _ _ _ _ _ => trivial)
      (fun _ _ _ _ _ _ _ => trivial) hreq
  have hsafe := hcontained.mono (fun _ => srcselAddress_of_registered h) fun _ he => he
  obtain ⟨hinfo, hfault⟩ := hsafe.exec
    (I := fun s => core.slave.read s aximuxRegMuxinfo = core.info) (fun _ _ _ _ => trivial)
    (fun s r v hs hr _ => info_of_write hr v hs) hs
  exact ⟨hinfo, fun hf => hfault _ hf rfl⟩

/-! ### Runs with rebinds -/

/-- A probe over the core binds the described tables or nothing. -/
theorem step_bind (h : bindTables plat core.info = .ok amx) {sys : System}
    (hinfo : core.slave.read sys.hw aximuxRegMuxinfo = core.info)
    (hdriver : ∀ b, sys.driver = some b → b = .bound plat amx) (served : ℕ → Bool) :
    sys.step core plat (.bind served) =
      ⟨sys.hw, if sys.driver.isSome || (binds plat core.info served) then
        some (.bound plat amx) else none, sys.replies⟩ := by
  obtain ⟨hw, driver, replies⟩ := sys
  cases driver with
  | some b =>
    rw [hdriver b rfl]
    rfl
  | none =>
    have hread : core.slave.read hw aximuxRegMuxinfo = core.info := hinfo
    simp only [System.step, hread, binds, Option.isSome_none, Bool.false_or]
    cases hprobe : aximuxProbe plat core.info (Machine.initial served) with
    | mk q m =>
      cases q with
      | ok u =>
        obtain ⟨amx', htables, hbinding⟩ := binding_of_ok hprobe
        rw [h] at htables
        cases htables
        simp only [hbinding]
        rfl
      | error e => rfl

/-- What a run leaves is what an unbroken driver leaves that serves the requests taken. -/
theorem run_eq (h : bindTables plat core.info = .ok amx) (events : List Event)
    (hvalid : ∀ req, .request req ∈ events → req.Valid amx) {sys : System}
    (hinfo : core.slave.read sys.hw aximuxRegMuxinfo = core.info)
    (hdriver : ∀ b, sys.driver = some b → b = .bound plat amx)
    (hreplies : ∀ r ∈ sys.replies, r ≠ .error .fault) :
    (∀ b, (sys.run core plat events).driver = some b → b = .bound plat amx) ∧
    (∀ r ∈ (sys.run core plat events).replies, r ≠ .error .fault) ∧
    (sys.run core plat events).hw = (Prog.execAll core.slave ((taken (binds plat core.info)
      sys.driver.isSome events).map (Request.prog amx)) sys.hw).2 ∧
    (sys.run core plat events).replies = sys.replies ++ (Prog.execAll core.slave
      ((taken (binds plat core.info) sys.driver.isSome events).map (Request.prog amx))
      sys.hw).1 := by
  induction events generalizing sys with
  | nil => exact ⟨hdriver, hreplies, rfl, (List.append_nil _).symm⟩
  | cons event events ih =>
    have hrest : ∀ req, .request req ∈ events → req.Valid amx :=
      fun req hreq => hvalid req (List.mem_cons_of_mem _ hreq)
    cases event with
    | bind served =>
      rw [System.run, List.foldl_cons, step_bind h hinfo hdriver served, taken]
      cases hbound : sys.driver.isSome || (binds plat core.info served) with
      | true => exact ih hrest hinfo (fun b hb => (Option.some.inj hb).symm) hreplies
      | false => exact ih hrest hinfo (fun b hb => by cases hb) hreplies
    | unbind =>
      have hnone : ∀ b, { sys with driver := none }.driver = some b → b = .bound plat amx := by simp
      exact ih hrest hinfo hnone hreplies
    | request req =>
      obtain ⟨hw, driver, replies⟩ := sys
      cases driver with
      | none => exact ih hrest hinfo hdriver hreplies
      | some b =>
        obtain rfl := hdriver b rfl
        obtain ⟨hkeep, hfault⟩ := exec_request (accepts_of_bindTables h)
          (hvalid req List.mem_cons_self) hinfo
        have hlast : ∀ r ∈ replies ++ [((req.prog amx).exec core.slave hw).1],
            r ≠ .error .fault := by
          intro r hr
          rcases List.mem_append.mp hr with hr | hr
          · exact hreplies r hr
          · rw [List.mem_singleton.mp hr]
            exact hfault
        obtain ⟨hdriver', hreplies', hhw, happend⟩ :=
          @ih hrest ⟨_, some (.bound plat amx), _⟩ hkeep hdriver hlast
        refine ⟨hdriver', hreplies', hhw, happend.trans ?_⟩
        rw [List.append_assoc]
        rfl

/-! ### The calls of a run -/

theorem mem_taken {binds : (ℕ → Bool) → Bool} {bound : Bool} {events : List Event} {req : Request}
    (h : req ∈ taken binds bound events) : .request req ∈ events := by
  induction events generalizing bound with
  | nil => cases h
  | cons event events ih =>
    cases event with
    | bind served => exact List.mem_cons_of_mem _ (ih h)
    | unbind => exact List.mem_cons_of_mem _ (ih h)
    | request req' =>
      rw [taken] at h
      split_ifs at h
      · rcases List.mem_cons.mp h with rfl | h
        · exact List.mem_cons_self
        · exact List.mem_cons_of_mem _ (ih h)
      · exact List.mem_cons_of_mem _ (ih h)

theorem exec_call {req : Request} {c : Call} (h : req.call? = some c) (s : RegFile ℕ 32) :
    ((req.prog amx).exec core.slave s).2 = ((c.prog amx).exec core.slave s).2 := by
  cases req with
  | call c' =>
    cases h
    exact Prog.exec_bind_ret _ _ _ _
  | pinconfGet pin config => cases h
  | pinconfGroupGet g config => cases h
  | srcselShow => cases h

/-- Requests that only read leave no trace in the registers. -/
theorem execAll_calls (core : Core) (amx : Aximux) (reqs : List Request) (s : RegFile ℕ 32) :
    (Prog.execAll core.slave (reqs.map (Request.prog amx)) s).2 =
      (Prog.execAll core.slave ((reqs.filterMap Request.call?).map (Call.prog amx)) s).2 := by
  induction reqs generalizing s with
  | nil => rfl
  | cons req reqs ih =>
    cases hcall : req.call? with
    | none =>
      rw [List.filterMap_cons_none hcall, ← ih]
      have hreq : (req.prog amx).ReadOnly := Request.readOnly hcall
      have hread := hreq.exec core.slave s
      change (Prog.execAll core.slave _ ((req.prog amx).exec core.slave s).2).2 = _
      rw [hread]
    | some c =>
      rw [List.filterMap_cons_some hcall, List.map_cons, List.map_cons]
      change (Prog.execAll core.slave _ ((req.prog amx).exec core.slave s).2).2 =
        (Prog.execAll core.slave _ ((c.prog amx).exec core.slave s).2).2
      rw [ih, exec_call hcall]

/-- Rebinding the driver cannot be told from an unbroken run. Whatever binds, failed binds and
unbinds come between the requests, a bound driver has the same tables, no access leaves an array,
the replies and the registers are those of one driver that serves the requests taken, and the
wires of every signal are as the calls among them left it. -/
theorem rebinding_transparent (core : Core) (plat : Platform) {amx : Aximux}
    (h : bindTables plat core.info = .ok amx) (events : List Event)
    (hvalid : ∀ req, .request req ∈ events → req.Valid amx) :
    (∀ b, ((System.initial core).run core plat events).driver = some b → b = .bound plat amx) ∧
    (∀ r ∈ ((System.initial core).run core plat events).replies, r ≠ .error .fault) ∧
    (((System.initial core).run core plat events).replies,
        ((System.initial core).run core plat events).hw) =
      Prog.execAll core.slave
        ((taken (binds plat core.info) false events).map (Request.prog amx)) core.reset ∧
    ∀ v : Valuation core, Settled core ((System.initial core).run core plat events).hw v →
      ∀ p < core.muxSignals, DrivenBy v p
        (lastSource amx ((taken (binds plat core.info) false events).filterMap Request.call?) p)
        (effectiveFlag amx
          ((taken (binds plat core.info) false events).filterMap Request.call?) p) := by
  have hdriver₀ : ∀ b, (System.initial core).driver = some b → b = .bound plat amx := by
    simp [System.initial]
  have hreplies₀ : ∀ r ∈ (System.initial core).replies, r ≠ .error .fault := by
    simp [System.initial]
  obtain ⟨hdriver, hreplies, hhw, happend⟩ := run_eq h events hvalid rfl hdriver₀ hreplies₀
  refine ⟨hdriver, hreplies, Prod.ext happend hhw, fun v hv p hp => ?_⟩
  refine drivenBy_coreRun (accepts_of_bindTables h) (fun c hc => ?_) ?_ hp
  · obtain ⟨req, hreq, hcall⟩ := List.mem_filterMap.mp hc
    have hok := hvalid req (mem_taken hreq)
    cases req with
    | call c' =>
      cases hcall
      exact hok
    | pinconfGet pin config => cases hcall
    | pinconfGroupGet g config => cases hcall
    | srcselShow => cases hcall
  · rw [hhw] at hv
    rw [coreRun, ← execAll_calls]
    exact hv

/-- `uart` is selected on pin 2 before the driver is rebound; a selection in between is lost. -/
def rebindEvents : List Event :=
  [.bind fun _ => true, .request (.call (.setMux 2 1)), .unbind, .request (.call (.setMux 1 0)),
    .bind fun _ => false, .bind fun _ => true, .request .srcselShow]

theorem taken_rebindEvents : taken (binds samplePlatform sampleCore.info) false rebindEvents =
    [.call (.setMux 2 1), .srcselShow] := by
  have hok : binds samplePlatform sampleCore.info (fun _ => true) = true := by
    rw [sampleCore_info]
    decide +kernel
  have hfail : binds samplePlatform sampleCore.info (fun _ => false) = false := by
    rw [sampleCore_info]
    decide +kernel
  simp [rebindEvents, taken, hok, hfail]

theorem rebinding_transparent_sample :
    ((System.initial sampleCore).run sampleCore samplePlatform rebindEvents).replies =
      [.ok .done, .ok (.dump "pin0:0x00\npin2:0x01\n")] := by
  have hvalid : ∀ req, .request req ∈ rebindEvents → req.Valid sampleTables := by
    intro req hreq
    simp only [rebindEvents, List.mem_cons, reduceCtorEq, Event.request.injEq, false_or, or_false,
      List.not_mem_nil] at hreq
    obtain rfl | rfl | rfl := hreq
    · exact ⟨by decide, by decide⟩
    · exact ⟨by decide, by decide⟩
    · trivial
  obtain ⟨-, -, hrun, -⟩ := rebinding_transparent sampleCore samplePlatform
    (sampleCore_info ▸ bindTables_sample) rebindEvents hvalid
  rw [taken_rebindEvents] at hrun
  rw [(Prod.mk.inj hrun).1]
  decide +kernel

end AximuxSystem.Hardware
