import AximuxSystem.Driver.TableInvariant

/-!
# The whole of `aximux_probe`

The tables are built between two allocations of its own, and then handed to the
pinctrl core. Mapping the registers and the core's registration are kernel code:
each is a result the platform decides, and a registration that succeeds has met
no pin number twice.
-/

namespace AximuxSystem.Driver

open Fallible

/-- `struct pinctrl_desc`, as far as the driver fills it. -/
structure PinctrlDesc where
  name : String
  pins : List PinDesc
  npins : ℕ
  customParams : List (String × BitVec 32 × ℕ)
  deriving DecidableEq, Repr

def aximuxCfgParams : List (String × BitVec 32 × ℕ) :=
  [("brunosmmm,short", aximuxCfgShort, 0), ("brunosmmm,dir-sw", aximuxCfgDirSw, 0),
    ("brunosmmm,dir-out", aximuxCfgDirOut, 0)]

/-- The device `aximux_probe` is called for. -/
structure Platform where
  /-- `dev_name` -/
  devName : String
  /-- Children of the device's node. -/
  np : List OfNode
  /-- `devm_ioremap_resource` -/
  ioremap : Except ℤ Unit
  /-- `devm_pinctrl_register_and_init` -/
  register : PinctrlDesc → Except ℤ Unit
  /-- `pinctrl_enable` -/
  enable : PinctrlDesc → Except ℤ Unit
  register_distinct : ∀ desc, register desc = .ok () →
    ((desc.pins.take desc.npins).map PinDesc.number).Nodup

/-- Why `aximux_probe` fails: its own code, or the kernel's. -/
inductive ProbeStop where
  | driver (s : Stop)
  | kernel (ret : ℤ)
  deriving DecidableEq, Repr

/-- The state `aximux_probe` works on. -/
structure Machine where
  kernel : Kernel
  registered : Option PinctrlDesc
  enabled : Bool
  /-- What `dev_info` printed. -/
  info : List String

/-- A step of the table code. -/
def inKernel {α : Type} (m : Probe α) : Comp Machine ProbeStop α := fun s =>
  ((m s.kernel).1.mapError .driver, { s with kernel := (m s.kernel).2 })

/-- A call of kernel code whose error is passed on. -/
def kernelCall (r : Except ℤ Unit) : Comp Machine ProbeStop Unit := fun s =>
  (r.mapError .kernel, s)

def Aximux.desc (amx : Aximux) (devName : String) : PinctrlDesc :=
  ⟨devName, amx.pindescs, amx.npins, aximuxCfgParams⟩

def readyText (amx : Aximux) : String :=
  "AXIMUX pinctrl ready: " ++ toString amx.npins ++ " pins, " ++ toString amx.ngroups ++
    " groups, " ++ toString amx.nfunctions ++ " functions\n"

/-- Register the tables with the pinctrl core and enable the controller. -/
def handOver (plat : Platform) (amx : Aximux) : Comp Machine ProbeStop Unit :=
  match plat.register (amx.desc plat.devName) with
  | .error ret => do
    inKernel (devErr ("failed to register pinctrl: " ++ toString ret ++ "\n"))
    Comp.throw (.kernel ret)
  | .ok () => do
    Comp.modify fun s => { s with registered := some (amx.desc plat.devName) }
    kernelCall (plat.enable (amx.desc plat.devName))
    Comp.modify fun s => { s with enabled := true, info := s.info ++ [readyText amx] }

/-- `info` is the word MUXINFO reads as. -/
def aximuxProbe (plat : Platform) (info : BitVec 32) : Comp Machine ProbeStop Unit := do
  inKernel (needAlloc 1)
  kernelCall plat.ioremap
  inKernel (aximuxProbeTables info plat.np)
  inKernel (needAlloc 1)
  let amx ← inKernel getAmx
  handOver plat amx

def Machine.initial (served : ℕ → Bool) : Machine :=
  ⟨⟨Aximux.zeroed, served, 0, fun _ => 0, []⟩, none, false, []⟩

/-! ### What the call comes to -/

/-- The tables a probe call binds, or the error it returns, with every allocation served. -/
def bindTables (plat : Platform) (info : BitVec 32) : Except ProbeStop Aximux := do
  plat.ioremap.mapError .kernel
  let amx ← (tables info plat.np).mapError fun e => .driver (.errno e)
  (plat.register (amx.desc plat.devName)).mapError .kernel
  (plat.enable (amx.desc plat.devName)).mapError .kernel
  .ok amx

/-- What a probe call leaves besides the state of the allocator and the log of errors. -/
structure Binding where
  amx : Aximux
  registered : Option PinctrlDesc
  enabled : Bool
  info : List String
  deriving DecidableEq, Repr

def Machine.binding (m : Machine) : Binding := ⟨m.kernel.amx, m.registered, m.enabled, m.info⟩

/-- A driver bound with the tables `amx`. -/
def Binding.bound (plat : Platform) (amx : Aximux) : Binding :=
  ⟨amx, some (amx.desc plat.devName), true, [readyText amx]⟩

/-- A declined allocation request excuses `-ENOMEM`. -/
def ProbeDeclined (served : ℕ → Bool) (e : ProbeStop) : Prop :=
  e = .driver (.errno .ENOMEM) ∧ ∃ i, served i = false

/-- What a step of the call does to the binding, up to declined allocations. -/
abbrev Binds {α : Type} (m : Comp Machine ProbeStop α) (b : Binding)
    (r : Except ProbeStop (α × Binding)) : Prop :=
  Tracks Machine.binding (fun s => s.kernel.served) ProbeDeclined m b r

namespace Binds

variable {α : Type} {b : Binding}

/-- The outcome of a step of the table code on a binding. -/
def lifted (b : Binding) (r : Except Stop (α × Aximux)) : Except ProbeStop (α × Binding) :=
  (r.map fun x => (x.1, { b with amx := x.2 })).mapError .driver

theorem inKernel {m : Probe α} {r : Except Stop (α × Aximux)} (h : Builds m b.amx r) :
    Binds (inKernel m) b (lifted b r) := by
  rintro s rfl
  obtain ⟨hserved, hrun⟩ := h s.kernel rfl
  refine ⟨hserved, ?_⟩
  cases hm : m s.kernel with
  | mk q k =>
    rw [hm] at hrun
    simp only [Driver.inKernel, hm]
    cases q with
    | ok a =>
      have hrun : r = .ok (a, k.amx) := hrun
      rw [hrun]
      rfl
    | error e =>
      rcases hrun with rfl | ⟨rfl, hdecl⟩
      · exact .inl rfl
      · exact .inr ⟨rfl, hdecl⟩

theorem kernelCall (r : Except ℤ Unit) :
    Binds (kernelCall r) b ((r.map fun _ => ((), b)).mapError .kernel) := by
  rintro s rfl
  cases r with
  | ok u => exact ⟨rfl, rfl⟩
  | error e => exact ⟨rfl, .inl rfl⟩

theorem needAlloc (count : ℕ) : Binds (Driver.inKernel (needAlloc count)) b (.ok ((), b)) := by
  have hstep : Builds (Driver.needAlloc count >>= pure) b.amx (.ok ((), b.amx)) :=
    Builds.needAlloc count (Tracks.pure ())
  rw [bind_pure] at hstep
  exact inKernel hstep

/-- The steps behind the tables. -/
theorem handOver (plat : Platform) (amx : Aximux) :
    Binds (handOver plat amx) ⟨amx, none, false, []⟩
      (((do
        (plat.register (amx.desc plat.devName)).mapError .kernel
        (plat.enable (amx.desc plat.devName)).mapError .kernel
        .ok amx) : Except ProbeStop Aximux).map fun amx => ((), .bound plat amx)) := by
  unfold Driver.handOver
  cases hreg : plat.register (amx.desc plat.devName) with
  | error ret => exact (inKernel (Builds.devErr _)).bind (Tracks.throw _)
  | ok u =>
    have hstore : Binds (Comp.modify fun s =>
        { s with registered := some (amx.desc plat.devName) }) ⟨amx, none, false, []⟩
        (.ok ((), ⟨amx, some (amx.desc plat.devName), false, []⟩)) := by
      refine Tracks.modify (fun _ => rfl) fun s hs => ?_
      simp only [Machine.binding, Binding.mk.injEq] at hs ⊢
      exact ⟨hs.1, trivial, hs.2.2⟩
    refine hstore.bind ?_
    have henable : Binds (Driver.kernelCall (plat.enable (amx.desc plat.devName)))
        ⟨amx, some (amx.desc plat.devName), false, []⟩ _ := kernelCall _
    cases hen : plat.enable (amx.desc plat.devName) with
    | error ret =>
      rw [hen] at henable
      exact henable.bind_error
    | ok u =>
      rw [hen] at henable
      refine henable.bind (Tracks.modify (fun _ => rfl) fun s hs => ?_)
      simp only [Machine.binding, Binding.bound, Binding.mk.injEq] at hs ⊢
      exact ⟨hs.1, hs.2.1, trivial, by rw [hs.2.2.2]; rfl⟩

/-- The call ends as `bindTables` says, and leaves a bound driver if it ends well. -/
theorem aximuxProbe (plat : Platform) (info : BitVec 32) :
    Binds (aximuxProbe plat info) ⟨Aximux.zeroed, none, false, []⟩
      ((bindTables plat info).map fun amx => ((), .bound plat amx)) := by
  unfold Driver.aximuxProbe bindTables
  refine (needAlloc 1).bind ?_
  have hremap : Binds (Driver.kernelCall plat.ioremap) ⟨Aximux.zeroed, none, false, []⟩ _ :=
    kernelCall plat.ioremap
  cases hmap : plat.ioremap with
  | error ret =>
    rw [hmap] at hremap
    exact hremap.bind_error
  | ok u =>
    rw [hmap] at hremap
    refine hremap.bind ?_
    have htables := inKernel (b := ⟨Aximux.zeroed, none, false, []⟩)
      (Builds.probeTables info plat.np)
    cases htab : tables info plat.np with
    | error e =>
      rw [htab] at htables
      exact htables.bind_error
    | ok amx =>
      rw [htab] at htables
      refine htables.bind ((needAlloc 1).bind ((inKernel Builds.getAmx).bind ?_))
      exact handOver plat amx

end Binds

/-! ### Bound drivers -/

theorem mapError_eq_ok {ε ε' α : Type} {r : Except ε α} {f : ε → ε'} {a : α} :
    r.mapError f = .ok a ↔ r = .ok a := by
  cases r <;> simp [Except.mapError]

theorem mapError_eq_error {ε ε' α : Type} {r : Except ε α} {f : ε → ε'} {e' : ε'} :
    r.mapError f = .error e' ↔ ∃ e, r = .error e ∧ f e = e' := by
  cases r <;> simp [Except.mapError]

theorem bindTables_eq_ok {plat : Platform} {info : BitVec 32} {amx : Aximux} :
    bindTables plat info = .ok amx ↔ plat.ioremap = .ok () ∧ tables info plat.np = .ok amx ∧
      plat.register (amx.desc plat.devName) = .ok () ∧
      plat.enable (amx.desc plat.devName) = .ok () := by
  simp only [bindTables, bind_eq_ok, mapError_eq_ok]
  constructor
  · rintro ⟨⟨⟩, hmap, amx', htables, ⟨⟩, hreg, ⟨⟩, hen, heq⟩
    cases heq
    exact ⟨hmap, htables, hreg, hen⟩
  · rintro ⟨hmap, htables, hreg, hen⟩
    exact ⟨(), hmap, amx, htables, (), hreg, (), hen, rfl⟩

/-- No described error is an access outside an array. -/
theorem bindTables_ne_fault {plat : Platform} {info : BitVec 32} {e : ProbeStop}
    (h : bindTables plat info = .error e) : e ≠ .driver .fault := by
  rintro rfl
  simp [bindTables, bind_eq_error, mapError_eq_error] at h

/-- The pins of a bound driver have different numbers, although the driver does not check it. -/
theorem bound_distinct {plat : Platform} {info : BitVec 32} {amx : Aximux}
    (h : bindTables plat info = .ok amx) : (amx.pins.map AximuxPin.number).Nodup := by
  obtain ⟨-, htables, hreg, -⟩ := bindTables_eq_ok.mp h
  have hnodup := plat.register_distinct _ hreg
  obtain ⟨-, -, pins, extra, -, -, rfl⟩ := tables_eq_ok.mp htables
  change (((pins.map AximuxPin.desc).take pins.length).map PinDesc.number).Nodup at hnodup
  rw [List.take_of_length_le (List.length_map _).le, List.map_map] at hnodup
  exact hnodup

theorem binding_of_ok {plat : Platform} {info : BitVec 32} {served : ℕ → Bool} {m : Machine}
    (h : aximuxProbe plat info (Machine.initial served) = (.ok (), m)) :
    ∃ amx, bindTables plat info = .ok amx ∧ m.binding = .bound plat amx := by
  have hres := Tracks.of_ok (s := Machine.initial served) (Binds.aximuxProbe plat info) h
  cases hb : bindTables plat info with
  | error e =>
    rw [hb] at hres
    cases hres
  | ok amx =>
    rw [hb] at hres
    exact ⟨amx, rfl, (Prod.mk.inj (Except.ok.inj hres)).2.symm⟩

/-- A probe call that ends well leaves a driver bound with the described tables, its pins numbered
apart. One that fails never does so by leaving an array, and returns the error described or the
one of a declined allocation. With every allocation served it ends well exactly if the registers
can be mapped, the tree describes tables, and the pinctrl core takes them. -/
theorem probe_binds (plat : Platform) (info : BitVec 32) (served : ℕ → Bool) :
    (∀ m, aximuxProbe plat info (Machine.initial served) = (.ok (), m) →
      ∃ amx, bindTables plat info = .ok amx ∧ m.binding = .bound plat amx ∧
        (amx.pins.map AximuxPin.number).Nodup) ∧
    (∀ e m, aximuxProbe plat info (Machine.initial served) = (.error e, m) →
      e ≠ .driver .fault ∧ (bindTables plat info = .error e ∨ ProbeDeclined served e)) ∧
    ((∀ i, served i = true) →
      ((∃ m, aximuxProbe plat info (Machine.initial served) = (.ok (), m)) ↔
        plat.ioremap = .ok () ∧ ∃ amx, tables info plat.np = .ok amx ∧
          plat.register (amx.desc plat.devName) = .ok () ∧
          plat.enable (amx.desc plat.devName) = .ok ())) := by
  have hbinds := Binds.aximuxProbe plat info
  refine ⟨fun m hm => ?_, fun e m hm => ?_, fun hserved => ⟨?_, ?_⟩⟩
  · obtain ⟨amx, hb, hbinding⟩ := binding_of_ok hm
    exact ⟨amx, hb, hbinding, bound_distinct hb⟩
  · have hres := (hbinds (Machine.initial served) rfl).2
    rw [hm] at hres
    rcases hres with hres | hdecl
    · cases hb : bindTables plat info with
      | error e' =>
        rw [hb] at hres
        cases hres
        exact ⟨bindTables_ne_fault hb, .inl rfl⟩
      | ok amx =>
        rw [hb] at hres
        cases hres
    · exact ⟨by rw [hdecl.1]; simp, .inr hdecl⟩
  · rintro ⟨m, hm⟩
    obtain ⟨amx, hb, -⟩ := binding_of_ok hm
    obtain ⟨hmap, hrest⟩ := bindTables_eq_ok.mp hb
    exact ⟨hmap, amx, hrest⟩
  · rintro ⟨hmap, amx, hrest⟩
    rw [bindTables_eq_ok.mpr ⟨hmap, hrest⟩] at hbinds
    obtain ⟨m, hm, -⟩ := Tracks.ok_of_eq (s := Machine.initial served) hbinds
      fun e he => he.2.elim fun i hi => Bool.false_ne_true (hi.symm.trans (hserved i))
    exact ⟨m, hm⟩

/-- A pinctrl core that refuses a pin number it has met before. -/
def samplePlatform : Platform where
  devName := "43c00000.pinctrl"
  np := sampleNodes
  ioremap := .ok ()
  register desc :=
    if ((desc.pins.take desc.npins).map PinDesc.number).Nodup then .ok () else .error (-22)
  enable _ := .ok ()
  register_distinct desc h := by
    by_contra hnot
    rw [if_neg hnot] at h
    cases h

theorem bindTables_sample : bindTables samplePlatform 0x408 = .ok sampleTables :=
  bindTables_eq_ok.mpr ⟨rfl, tables_sample, by decide +kernel, rfl⟩

theorem probe_binds_sample : ∃ m,
    aximuxProbe samplePlatform 0x408 (Machine.initial fun _ => true) = (.ok (), m) ∧
      m.binding.info = ["AXIMUX pinctrl ready: 2 pins, 3 groups, 3 functions\n"] ∧
      (m.binding.amx.pins.map AximuxPin.number).Nodup := by
  obtain ⟨hok, -, hiff⟩ := probe_binds samplePlatform 0x408 fun _ => true
  obtain ⟨hmap, hrest⟩ := bindTables_eq_ok.mp bindTables_sample
  obtain ⟨m, hm⟩ := (hiff fun _ => rfl).mpr ⟨hmap, sampleTables, hrest⟩
  obtain ⟨amx, hb, hbinding, hnodup⟩ := hok m hm
  rw [bindTables_sample] at hb
  cases hb
  exact ⟨m, hm, by rw [hbinding]; decide +kernel, by rw [hbinding]; exact hnodup⟩

/-- Two children with one number pass the table code, and the pinctrl core refuses them. -/
example : (aximuxProbe { samplePlatform with np := sampleNodes.take 1 ++ sampleNodes.take 1 } 0x408
    (Machine.initial fun _ => true)).1 = .error (.kernel (-22)) := by decide +kernel

end AximuxSystem.Driver
