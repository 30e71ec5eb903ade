import AximuxSystem.Driver.TableInvariant

/-!
# Source values behind pointers

`aximux_add_function` is passed the address of a caller's buffer and stores the
address of a copy. Here the function table holds addresses, and between the
calls the callers change their buffers as they like. The code over addresses
does what the code over values does, so the table groups the calls by function
name, each with the values the buffer held when the call was made.
-/

namespace AximuxSystem.Driver

open Fallible

/-- Where an array of source values lies. -/
inductive Address where
  /-- a buffer of a caller -/
  | caller (buf : ℕ)
  /-- a block obtained from the allocator -/
  | block (i : ℕ)
  deriving DecidableEq, Repr

structure Memory where
  callers : ℕ → List ℕ
  blocks : List (List ℕ)

def Memory.read (mem : Memory) : Address → List ℕ
  | .caller buf => mem.callers buf
  | .block i => mem.blocks.getD i []

/-- The address is one of a block. -/
def Address.Owned (mem : Memory) (a : Address) : Prop := ∃ i < mem.blocks.length, a = .block i

/-- `struct aximux_function` with `mux_vals` as the pointers it holds. -/
structure FunctionCell where
  name : String
  groups : List String
  muxVals : List Address
  muxNpins : List ℕ
  deriving DecidableEq, Repr

namespace FunctionCell

def push (fn : FunctionCell) (group : String) (vals : Address) (npins : ℕ) : FunctionCell :=
  { fn with groups := fn.groups ++ [group], muxVals := fn.muxVals ++ [vals],
            muxNpins := fn.muxNpins ++ [npins] }

/-- The function with the values its pointers lead to. -/
def resolve (mem : Memory) (fn : FunctionCell) : AximuxFunction :=
  ⟨fn.name, fn.groups, fn.muxVals.map mem.read, fn.muxNpins⟩

theorem resolve_push (mem : Memory) (fn : FunctionCell) (group : String) (vals : Address)
    (npins : ℕ) :
    (fn.push group vals npins).resolve mem = (fn.resolve mem).push group (mem.read vals) npins := by
  simp [resolve, push, AximuxFunction.push]

end FunctionCell

/-- What `aximux_add_function` works on. -/
structure Heap where
  functions : List FunctionCell
  mem : Memory
  /-- Whether the `k`-th allocation request is served. -/
  served : ℕ → Bool
  /-- Allocation requests made so far. -/
  allocs : ℕ

namespace Heap

/-- The function table as `set_mux` reads it. -/
def table (heap : Heap) : List AximuxFunction := heap.functions.map (·.resolve heap.mem)

/-- The callers' buffers hold something else. -/
def withCallers (heap : Heap) (callers : ℕ → List ℕ) : Heap :=
  { heap with mem := { heap.mem with callers := callers } }

def kalloc (count : ℕ) : Comp Heap Stop Bool := fun heap =>
  (.ok ((List.range' heap.allocs count).all heap.served),
    { heap with allocs := heap.allocs + count })

def needAlloc (count : ℕ) : Comp Heap Stop Unit := do
  let ok ← kalloc count
  if ok then pure () else Comp.throw (.errno .ENOMEM)

/-- `memcpy` of `n` values to a new block. -/
def copy (src : Address) (n : ℕ) : Comp Heap Stop Address := fun heap =>
  if n ≤ (heap.mem.read src).length then
    (.ok (.block heap.mem.blocks.length),
      { heap with mem :=
        { heap.mem with blocks := heap.mem.blocks ++ [(heap.mem.read src).take n] } })
  else
    (.error .fault, heap)

def kmemdup (src : Address) (n : ℕ) : Comp Heap Stop Address := do
  needAlloc 1
  copy src n

/-- `aximux_add_function` with `mux_vals` as the pointer it is. -/
def aximuxAddFunction (name group : String) (npins : ℕ) (muxVals : Address) :
    Comp Heap Stop Unit := do
  let vals ← kmemdup muxVals npins
  let functions ← Heap.functions <$> Comp.get
  let f := functions.findIdx (·.name == name)
  if f = functions.length then do
    needAlloc 1
    Comp.modify fun heap => { heap with functions := heap.functions ++ [⟨name, [], [], []⟩] }
  else
    pure ()
  needAlloc 3
  Comp.modify fun heap =>
    { heap with functions := heap.functions.modify f fun fn => fn.push group vals npins }

/-- What happens to the table and to the callers' buffers. -/
inductive Event where
  /-- a call with the address of buffer `buf` and its length -/
  | call (name group : String) (buf : ℕ)
  /-- a caller changes its buffer `buf` -/
  | store (buf : ℕ) (vals : List ℕ)
  deriving DecidableEq, Repr

def runEvent : Event → Comp Heap Stop Unit
  | .call name group buf => do
    let callers ← (fun heap : Heap => heap.mem.callers) <$> Comp.get
    aximuxAddFunction name group (callers buf).length (.caller buf)
  | .store buf vals =>
    Comp.modify fun heap => heap.withCallers (Function.update heap.mem.callers buf vals)

def runEvents : List Event → Comp Heap Stop Unit
  | [] => pure ()
  | event :: events => do
    runEvent event
    runEvents events

/-- No function is known yet; one request was made for the driver structure. -/
def initial (served : ℕ → Bool) (callers : ℕ → List ℕ) : Heap := ⟨[], ⟨callers, []⟩, served, 1⟩

/-- The calls with the values the buffers hold at the time. -/
def calls : (ℕ → List ℕ) → List Event → List FunctionRow
  | _, [] => []
  | callers, .call name group buf :: events => (name, group, callers buf) :: calls callers events
  | callers, .store buf vals :: events => calls (Function.update callers buf vals) events

/-- Any calls can be made through one buffer that is used over and over, as the loop over the
functions of a pin does with its local variable. -/
theorem calls_reused (callers : ℕ → List ℕ) (buf : ℕ) (rows : List FunctionRow) :
    calls callers (rows.flatMap fun row => [.store buf row.2.2, .call row.1 row.2.1 buf]) =
      rows := by
  induction rows generalizing callers with
  | nil => rfl
  | cons row rows ih =>
    rw [List.flatMap_cons, List.cons_append, List.cons_append, List.nil_append, calls, calls, ih,
      Function.update_self]

end Heap

/-! ### The code over addresses does what the code over values does -/

theorem Address.Owned.append {mem : Memory} {a : Address} (h : a.Owned mem)
    (blocks : List (List ℕ)) : a.Owned { mem with blocks := mem.blocks ++ blocks } := by
  obtain ⟨i, hi, rfl⟩ := h
  exact ⟨i, by simp only [List.length_append]; omega, rfl⟩

/-- A block keeps its values when other memory changes. -/
theorem Memory.read_of_owned {mem mem' : Memory} {a : Address} (h : a.Owned mem)
    (hblocks : mem.blocks <+: mem'.blocks) : mem'.read a = mem.read a := by
  obtain ⟨i, hi, rfl⟩ := h
  obtain ⟨more, hmore⟩ := hblocks
  rw [Memory.read, Memory.read, ← hmore, List.getD_eq_getElem?_getD, List.getElem?_append_left hi,
    List.getD_eq_getElem?_getD]

/-- The state of the code over values that shows what the addresses lead to. No pointer of the
table leads to a buffer of a caller, nor does one the running call holds; `held` lists the latter
with their values. -/
structure Shows (callers : ℕ → List ℕ) (held : List (Address × List ℕ)) (heap : Heap)
    (k : Kernel) : Prop where
  callers_eq : heap.mem.callers = callers
  served_eq : heap.served = k.served
  allocs_eq : heap.allocs = k.allocs
  table_eq : heap.table = k.amx.functions
  owned : ∀ fn ∈ heap.functions, ∀ a ∈ fn.muxVals, a.Owned heap.mem
  held_owned : ∀ p ∈ held, p.1.Owned heap.mem
  held_eq : ∀ p ∈ held, heap.mem.read p.1 = p.2

theorem Heap.table_of_owned {heap : Heap} {mem : Memory}
    (howned : ∀ fn ∈ heap.functions, ∀ a ∈ fn.muxVals, a.Owned heap.mem)
    (hblocks : heap.mem.blocks <+: mem.blocks) :
    ({ heap with mem := mem } : Heap).table = heap.table := by
  refine List.map_congr_left fun fn hfn => ?_
  simp only [FunctionCell.resolve, AximuxFunction.mk.injEq, true_and, and_true]
  exact List.map_congr_left fun a ha => Memory.read_of_owned (howned fn hfn a ha) hblocks

theorem Heap.table_withCallers {heap : Heap}
    (howned : ∀ fn ∈ heap.functions, ∀ a ∈ fn.muxVals, a.Owned heap.mem)
    (callers : ℕ → List ℕ) : (heap.withCallers callers).table = heap.table :=
  table_of_owned howned (List.prefix_refl _)

namespace Shows

variable {callers : ℕ → List ℕ} {held : List (Address × List ℕ)} {heap : Heap} {k : Kernel}

theorem alloc (h : Shows callers held heap k) (count : ℕ) :
    Shows callers held { heap with allocs := heap.allocs + count }
      { k with allocs := k.allocs + count } :=
  { h with allocs_eq := congrArg (· + count) h.allocs_eq }

theorem withCallers (h : Shows callers held heap k) (callers' : ℕ → List ℕ) :
    Shows callers' held (heap.withCallers callers') k where
  callers_eq := rfl
  served_eq := h.served_eq
  allocs_eq := h.allocs_eq
  table_eq := (Heap.table_withCallers h.owned callers').trans h.table_eq
  owned := h.owned
  held_owned := h.held_owned
  held_eq p hp := by
    rw [← h.held_eq p hp]
    exact Memory.read_of_owned (h.held_owned p hp) (List.prefix_refl _)

/-- The call takes a new block, filled with `vals`. -/
theorem newBlock (h : Shows callers [] heap k) (vals : List ℕ) :
    Shows callers [(.block heap.mem.blocks.length, vals)]
      { heap with mem := { heap.mem with blocks := heap.mem.blocks ++ [vals] } } k where
  callers_eq := h.callers_eq
  served_eq := h.served_eq
  allocs_eq := h.allocs_eq
  table_eq := (Heap.table_of_owned h.owned (List.prefix_append _ _)).trans h.table_eq
  owned fn hfn a ha := (h.owned fn hfn a ha).append _
  held_owned := List.forall_mem_singleton.mpr ⟨_, by simp, rfl⟩
  held_eq := List.forall_mem_singleton.mpr (by simp [Memory.read])

theorem openEntry (h : Shows callers held heap k) (name : String) :
    Shows callers held { heap with functions := heap.functions ++ [⟨name, [], [], []⟩] }
      { k with amx.functions := k.amx.functions ++ [⟨name, [], [], []⟩] } where
  callers_eq := h.callers_eq
  served_eq := h.served_eq
  allocs_eq := h.allocs_eq
  table_eq := by
    rw [← h.table_eq]
    exact List.map_append
  owned := by
    intro fn hfn a ha
    rcases List.mem_append.mp hfn with hfn | hfn
    · exact h.owned fn hfn a ha
    · rw [List.mem_singleton.mp hfn] at ha
      exact absurd ha List.not_mem_nil
  held_owned := h.held_owned
  held_eq := h.held_eq

/-- The held block becomes the last one of function `f`. -/
theorem pushRow {a : Address} {vals : List ℕ} (h : Shows callers [(a, vals)] heap k) (f : ℕ)
    (group : String) (npins : ℕ) :
    Shows callers []
      { heap with functions := heap.functions.modify f fun fn => fn.push group a npins }
      { k with amx.functions := k.amx.functions.modify f fun fn => fn.push group vals npins } where
  callers_eq := h.callers_eq
  served_eq := h.served_eq
  allocs_eq := h.allocs_eq
  table_eq := by
    have hread : heap.mem.read a = vals := h.held_eq _ List.mem_cons_self
    rw [← h.table_eq, Heap.table, ← hread]
    exact map_modify (fun fn => fn.resolve_push heap.mem group a npins) heap.functions f
  owned := by
    refine forall_mem_modify h.owned (fun fn hfn b hb => ?_) f
    rcases List.mem_append.mp hb with hb | hb
    · exact hfn b hb
    · rw [List.mem_singleton.mp hb]
      exact h.held_owned _ List.mem_cons_self
  held_owned := List.forall_mem_nil _
  held_eq := List.forall_mem_nil _

end Shows

namespace Simulation

variable {callers : ℕ → List ℕ} {held : List (Address × List ℕ)}

theorem needAlloc (count : ℕ) :
    Comp.Simulates (Shows callers held) (Heap.needAlloc count) (Driver.needAlloc count)
      fun _ _ => Shows callers held := by
  refine Comp.Simulates.bind (Q := fun ok ok' heap k => ok = ok' ∧ Shows callers held heap k) ?_ ?_
  · intro heap k h
    refine .inl ⟨_, _, _, _, rfl, rfl, ?_, h.alloc count⟩
    rw [h.served_eq, h.allocs_eq]
  · rintro ok ok' heap k ⟨rfl, h⟩
    cases ok with
    | true => exact .inl ⟨(), (), heap, k, rfl, rfl, h⟩
    | false => exact .inr ⟨_, heap, k, rfl, rfl⟩

theorem kmemdup (buf n : ℕ) :
    Comp.Simulates (Shows callers []) (Heap.kmemdup (.caller buf) n)
      (Driver.kmemdup (callers buf) n) fun a vals => Shows callers [(a, vals)] := by
  refine (needAlloc 1).bind fun _ _ heap k h => ?_
  have hread : heap.mem.read (.caller buf) = callers buf := congrFun h.callers_eq buf
  unfold Heap.copy
  rw [hread]
  by_cases hn : n ≤ (callers buf).length
  · rw [if_pos hn, if_pos hn]
    exact .inl ⟨_, _, _, _, rfl, rfl, h.newBlock _⟩
  · rw [if_neg hn, if_neg hn]
    exact .inr ⟨_, _, _, rfl, rfl⟩

/-- Both sides find the function in the same place. -/
theorem findIdx_table (heap : Heap) (name : String) :
    heap.table.findIdx (·.name == name) = heap.functions.findIdx (·.name == name) := by
  rw [Heap.table, List.findIdx_map]
  rfl

theorem addFunction (name group : String) (buf n : ℕ) :
    Comp.Simulates (Shows callers []) (Heap.aximuxAddFunction name group n (.caller buf))
      (Driver.aximuxAddFunction name group n (callers buf)) fun _ _ => Shows callers [] := by
  refine (kmemdup buf n).bind fun a vals => Comp.Simulates.get_bind fun heap k h => ?_
  have hlen : heap.table.length = heap.functions.length := List.length_map _
  have hpush (f : ℕ) : Comp.Simulates (Shows callers [(a, vals)])
      (Heap.needAlloc 3 >>= fun _ => Comp.modify fun heap =>
        { heap with functions := heap.functions.modify f fun fn => fn.push group a n })
      (Driver.needAlloc 3 >>= fun _ => updateAmx fun amx =>
        { amx with functions := amx.functions.modify f fun fn => fn.push group vals n })
      fun _ _ => Shows callers [] :=
    (needAlloc 3).bind fun _ _ => Comp.Simulates.modify fun _ _ h => h.pushRow f group n
  simp only [Aximux.nfunctions, ← h.table_eq, findIdx_table, hlen]
  by_cases hnew : heap.functions.findIdx (·.name == name) = heap.functions.length
  · simp only [hnew, if_true]
    refine (needAlloc 1).bind fun _ _ => ?_
    exact (Comp.Simulates.modify fun _ _ h => h.openEntry name).bind fun _ _ => hpush _
  · simp only [hnew, if_false]
    exact hpush _

theorem call (name group : String) (buf : ℕ) :
    Comp.Simulates (Shows callers []) (Heap.runEvent (.call name group buf))
      (Driver.aximuxAddFunction name group (callers buf).length (callers buf))
      fun _ _ => Shows callers [] :=
  Comp.Simulates.read_bind fun heap k h => by
    rw [h.callers_eq]
    exact addFunction name group buf (callers buf).length

/-- A run of events is the sequence of its calls with the values at the time. -/
theorem runEvents (events : List Heap.Event) :
    Comp.Simulates (Shows callers []) (Heap.runEvents events)
      ((Heap.calls callers events).forM fun row =>
        Driver.aximuxAddFunction row.1 row.2.1 row.2.2.length row.2.2)
      fun _ _ heap k => ∃ callers', Shows callers' [] heap k := by
  induction events generalizing callers with
  | nil => exact Comp.Simulates.pure fun heap k h => ⟨callers, h⟩
  | cons event events ih =>
    cases event with
    | call name group buf => exact (call name group buf).bind fun _ _ => ih
    | store buf vals =>
      refine Comp.Simulates.modify_bind (fun heap k h => ?_) ih
      have hstore := h.withCallers (Function.update heap.mem.callers buf vals)
      rwa [h.callers_eq] at hstore ⊢

end Simulation

/-! ### The table is the grouping of the calls -/

/-- The table lists the calls by function name, each name once and in order of first
appearance. -/
structure ListsCalls (functions : List AximuxFunction) (rows : List FunctionRow) : Prop where
  names : functions.map AximuxFunction.name = (rows.map Prod.fst).eraseDups
  once : (functions.map AximuxFunction.name).Nodup
  groups : ∀ fn ∈ functions, fn.groups = (Grouping.valuesOf fn.name rows).map Prod.fst
  muxVals : ∀ fn ∈ functions, fn.muxVals = (Grouping.valuesOf fn.name rows).map Prod.snd
  muxNpins : ∀ fn ∈ functions,
    fn.muxNpins = (Grouping.valuesOf fn.name rows).map fun row => row.2.length
  total : (functions.map AximuxFunction.ngroups).sum = rows.length

theorem listsCalls_functionTable (rows : List FunctionRow) :
    ListsCalls (functionTable rows) rows := by
  have hname : (functionTable rows).map AximuxFunction.name =
      (Grouping.addAll [] rows).map Prod.fst := List.map_map
  have hentry : ∀ fn ∈ functionTable rows,
      fn = functionOf (fn.name, Grouping.valuesOf fn.name rows) := by
    intro fn hfn
    obtain ⟨name, -, rfl⟩ := mem_functionTable.mp hfn
    rfl
  refine ⟨?_, functionTable_nodup rows, ?_, ?_, ?_, ?_⟩
  · rw [hname, Grouping.map_fst_addAll]
  · exact fun fn hfn => congrArg AximuxFunction.groups (hentry fn hfn)
  · exact fun fn hfn => congrArg AximuxFunction.muxVals (hentry fn hfn)
  · exact fun fn hfn => congrArg AximuxFunction.muxNpins (hentry fn hfn)
  · have hrows : (functionTable rows).map AximuxFunction.ngroups =
        (Grouping.addAll [] rows).map fun e => e.2.length := by
      simp [functionTable, functionOf, AximuxFunction.ngroups]
    rw [hrows, Grouping.sum_length_addAll]
    exact Nat.zero_add _

theorem shows_initial (served : ℕ → Bool) (callers : ℕ → List ℕ) :
    Shows callers [] (Heap.initial served callers) (Kernel.initial served) :=
  ⟨rfl, rfl, rfl, rfl, List.forall_mem_nil _, List.forall_mem_nil _, List.forall_mem_nil _⟩

theorem builds_calls (rows : List FunctionRow) :
    Builds (rows.forM fun row => aximuxAddFunction row.1 row.2.1 row.2.2.length row.2.2)
      Aximux.zeroed (.ok (⟨⟩, { Aximux.zeroed with functions := functionTable rows })) :=
  Builds.addRows rows [] Aximux.zeroed rfl

/-- What a run that ends well leaves in the table. -/
theorem shows_of_run {served : ℕ → Bool} {callers : ℕ → List ℕ} {events : List Heap.Event}
    {heap : Heap} (h : Heap.runEvents events (Heap.initial served callers) = (.ok (), heap)) :
    ∃ callers' k, Shows callers' [] heap k ∧
      k.amx.functions = functionTable (Heap.calls callers events) := by
  rcases Simulation.runEvents events _ _ (shows_initial served callers) with
    ⟨_, _, heap', k, hheap, hk, callers', hshows⟩ | ⟨e, heap', k, hheap, -⟩
  · rw [h] at hheap
    cases hheap
    have hbuilt := (builds_calls (Heap.calls callers events)).of_ok hk
    have hamx : { Aximux.zeroed with functions := functionTable (Heap.calls callers events) } =
      k.amx := (Prod.mk.inj (Except.ok.inj hbuilt)).2
    exact ⟨callers', k, hshows, by rw [← hamx]⟩
  · rw [h] at hheap
    cases hheap

/-- With every request served, a run ends well. -/
theorem run_of_served {served : ℕ → Bool} (hserved : ∀ i, served i = true)
    (callers : ℕ → List ℕ) (events : List Heap.Event) :
    ∃ heap, Heap.runEvents events (Heap.initial served callers) = (.ok (), heap) := by
  obtain ⟨k, hk, -⟩ := Tracks.ok_of_eq (s := Kernel.initial served)
    (builds_calls (Heap.calls callers events)) (not_declined hserved)
  rcases Simulation.runEvents events _ _ (shows_initial served callers) with
    ⟨_, _, heap, k', hheap, -, -⟩ | ⟨e, heap, k', -, hk'⟩
  · exact ⟨heap, hheap⟩
  · rw [hk] at hk'
    cases hk'

/-- A run that ends well leaves the calls grouped by function name, whatever the callers then do
with their buffers; with every allocation served, every run ends well. -/
theorem runEvents_listsCalls (served : ℕ → Bool) (callers : ℕ → List ℕ)
    (events : List Heap.Event) :
    (∀ heap, Heap.runEvents events (Heap.initial served callers) = (.ok (), heap) →
      ListsCalls heap.table (Heap.calls callers events) ∧
        ∀ callers', (heap.withCallers callers').table = heap.table) ∧
    ((∀ i, served i = true) →
      ∃ heap, Heap.runEvents events (Heap.initial served callers) = (.ok (), heap)) := by
  refine ⟨fun heap h => ?_, fun hserved => run_of_served hserved callers events⟩
  obtain ⟨_, k, hshows, htable⟩ := shows_of_run h
  refine ⟨?_, Heap.table_withCallers hshows.owned⟩
  rw [hshows.table_eq, htable]
  exact listsCalls_functionTable _

end AximuxSystem.Driver
