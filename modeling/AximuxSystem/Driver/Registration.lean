import AximuxSystem.Driver.TableBuild

/-!
# The rows extra groups register

Every available child with pins appends one row to the function it names. The
row holds the declared source values of the child if there are enough of them,
and zeros otherwise, also where some are declared.
-/

namespace AximuxSystem.Driver

open Fallible

/-- The three arrays of every function run in parallel. -/
def ParallelRows (amx : Aximux) : Prop :=
  ∀ fn ∈ amx.functions, fn.muxVals.length = fn.ngroups ∧ fn.muxNpins = fn.muxVals.map List.length

/-- The rows of the function found by name, as group names with source values. -/
def Aximux.rowsOf (amx : Aximux) (name : String) : List (String × List ℕ) :=
  match amx.functions.find? (·.name == name) with
  | some fn => fn.groups.zip fn.muxVals
  | none => []

variable {amx : Aximux} {g : List (String × List (String × List ℕ))}

theorem ParallelRows.exists_rows (h : ParallelRows amx) :
    ∃ g : List (String × List (String × List ℕ)), amx.functions = g.map functionOf := by
  refine ⟨amx.functions.map fun fn => (fn.name, fn.groups.zip fn.muxVals), ?_⟩
  rw [List.map_map]
  refine ((List.map_congr_left fun fn hfn => ?_).trans (List.map_id _)).symm
  obtain ⟨hvals, hnpins⟩ := h fn hfn
  have hle : fn.groups.length ≤ fn.muxVals.length := hvals.ge
  have hge : fn.muxVals.length ≤ fn.groups.length := hvals.le
  have hsizes : ((fn.groups.zip fn.muxVals).map fun row => row.2.length) =
      fn.muxVals.map List.length := by
    rw [← List.map_snd_zip hge, List.map_map, List.map_snd_zip hge]
    rfl
  simp only [Function.comp, functionOf, List.map_fst_zip hle, List.map_snd_zip hge, hsizes,
    ← hnpins]
  rfl

theorem parallelRows_of_rows (h : amx.functions = g.map functionOf) : ParallelRows amx := by
  intro fn hfn
  rw [h] at hfn
  obtain ⟨e, -, rfl⟩ := List.mem_map.mp hfn
  simp [functionOf, AximuxFunction.ngroups]

theorem rowsOf_eq (h : amx.functions = g.map functionOf) (name : String) :
    amx.rowsOf name = (g.lookup name).getD [] := by
  rw [Aximux.rowsOf, h]
  clear h
  induction g with
  | nil => rfl
  | cons e g ih =>
    rw [List.map_cons, List.find?_cons, Collections.lookup_cons_eq]
    by_cases he : e.1 = name
    · have hfound : ((functionOf e).name == name) = true := beq_iff_eq.mpr he
      rw [hfound, if_pos he.symm, Option.getD_some]
      exact List.zip_map'.trans (List.map_id _)
    · have hnot : ((functionOf e).name == name) = false := beq_eq_false_iff_ne.mpr he
      rw [hnot, if_neg (Ne.symm he)]
      exact ih

/-- What a child registers besides its pins. -/
theorem extraEntry_row {pins : List AximuxPin} {child : OfNode} {grp : ExtraGroup}
    (h : extraEntry pins child = .ok grp) :
    grp.row = (groupFunction child, child.name, groupMux child (groupSize child)) := by
  obtain ⟨members, hmembers, heq⟩ := bind_eq_ok.mp h
  have hlen : members.length = groupSize child := by
    simpa using (mapM_eq_ok.mp hmembers).length_eq.symm
  cases heq
  simp only [ExtraGroup.row, hlen]

/-- A loop over children that ends well adds their rows to the functions. -/
theorem extraGroups_functions {np : List OfNode} {i : ℕ} {k k' : Kernel}
    (hk : k.amx.functions = g.map functionOf)
    (hrun : forEachAvailableChild extraGroup i np () k = (.ok (), k')) :
    ∃ extra, extraTable k.amx.pins np = .ok extra ∧ k'.amx.functions =
      (Grouping.addAll g (extra.map ExtraGroup.row)).map functionOf := by
  obtain ⟨extra, htable, heq⟩ :=
    described_eq_ok.mp ((Builds.extraGroups np i k.amx g hk).of_ok hrun)
  obtain ⟨-, hamx⟩ := Prod.mk.inj heq
  exact ⟨extra, htable, hamx ▸ rfl⟩

/-- The probe code calls `aximux_parse_extra_groups` with parallel arrays. -/
theorem parallelRows_of_probe {info : BitVec 32} {np : List OfNode} {served : ℕ → Bool}
    {k₀ k : Kernel} {n : ℕ} (hparse : aximuxParsePins info np (Kernel.initial served) = (.ok n, k₀))
    (hgroups : aximuxBuildDefaultGroups k₀ = (.ok (), k)) : ParallelRows k.amx := by
  have hpins := (Builds.parsePins info np).of_ok hparse
  split_ifs at hpins
  obtain ⟨pins, htable, heq⟩ := described_eq_ok.mp hpins
  obtain ⟨-, hamx⟩ := Prod.mk.inj heq
  have hbuilds := (Builds.buildDefaultGroups k₀.amx (hamx ▸ rfl)
    (hamx ▸ fun _ hpin => (pinTable_entry htable hpin).2.2) (hamx ▸ rfl)).of_ok hgroups
  obtain ⟨-, hamx'⟩ := Prod.mk.inj (Except.ok.inj hbuilds)
  rw [← hamx']
  exact parallelRows_of_rows rfl

/-- `row` stands in the final tables behind the rows the function of `child` has when the loop
reaches the child. -/
def RegisteredRow (before : List OfNode) (child : OfNode) (k k' : Kernel) (row : List ℕ) : Prop :=
  ∃ k₁ later, forEachAvailableChild extraGroup 0 before () k = (.ok (), k₁) ∧
    k'.amx.rowsOf (groupFunction child) =
      k₁.amx.rowsOf (groupFunction child) ++ (child.name, row) :: later

theorem registeredRow_groupMux {before after : List OfNode} {child : OfNode} {k k' : Kernel}
    (hk : ParallelRows k.amx) (hchild : isGroupNode child = true)
    (hrun : aximuxParseExtraGroups (before ++ child :: after) k = (.ok (), k')) :
    RegisteredRow before child k k' (groupMux child (groupSize child)) := by
  obtain ⟨g, hg⟩ := hk.exists_rows
  rw [aximuxParseExtraGroups, forEachAvailableChild_append] at hrun
  obtain ⟨⟨⟩, k₁, hbefore, hrest⟩ := Comp.bind_eq_ok.mp hrun
  obtain ⟨extra, -, hg₁⟩ := extraGroups_functions hg hbefore
  obtain ⟨extra', htable, hg'⟩ := extraGroups_functions hg₁ hrest
  have hnodes : groupNodes (child :: after) = child :: groupNodes after :=
    List.filter_cons_of_pos hchild
  rw [extraTable, hnodes, List.mapM_cons] at htable
  obtain ⟨grp, hgrp, htable⟩ := bind_eq_ok.mp htable
  obtain ⟨grps, -, htable⟩ := bind_eq_ok.mp htable
  cases htable
  refine ⟨k₁, Grouping.valuesOf (groupFunction child) (grps.map ExtraGroup.row), hbefore, ?_⟩
  rw [rowsOf_eq hg', rowsOf_eq hg₁, Grouping.lookup_addAll, List.map_cons, Grouping.valuesOf_cons,
    extraEntry_row hgrp, if_pos rfl]

/-! ### Declared values -/

/-- Every value the row holds for a pin with a declared value is that value. -/
def DeclaredKept (declared row : List ℕ) : Prop :=
  ∀ (i x v : ℕ), declared[i]? = some x → row[i]? = some v → v = x

theorem declaredKept_take (declared : List ℕ) (n : ℕ) :
    DeclaredKept declared (declared.take n) := by
  intro i x v hx hv
  have hlt : i < n := by
    by_contra hge
    rw [List.getElem?_take, if_neg hge] at hv
    cases hv
  rw [List.getElem?_take, if_pos hlt, hx] at hv
  exact (Option.some.inj hv).symm

/-- Zeros for more pins than there are values keep the values only if these are zero. -/
theorem declaredKept_replicate {declared : List ℕ} {n : ℕ} (h : declared.length < n) :
    DeclaredKept declared (List.replicate n 0) ↔ ∀ x ∈ declared, x = 0 := by
  constructor
  · intro hkept x hx
    obtain ⟨i, hi⟩ := List.mem_iff_getElem?.mp hx
    have hlt : i < declared.length := (List.getElem?_eq_some_iff.mp hi).1
    exact (hkept i x 0 hi (by simp [hlt.trans h])).symm
  · intro hzero i x v hx hv
    rw [hzero x (List.mem_of_getElem? hx), List.eq_of_mem_replicate (List.mem_of_getElem? hv)]

/-- The values a child with `n` pins registers. -/
theorem declaredKept_groupMux_iff {child : OfNode} {declared : List ℕ}
    (h : child.prop "brunosmmm,mux" = some (.cells declared)) (n : ℕ) :
    DeclaredKept declared (groupMux child n) ↔
      n ≤ declared.length ∨ ∀ x ∈ declared, x = 0 := by
  by_cases hn : n ≤ declared.length
  · obtain ⟨v, hv, hlist⟩ := child.readU32Array_cells _ _ _ h hn
    have hrow : groupMux child n = declared.take n := by
      rw [groupMux, hv]
      exact hlist
    rw [hrow]
    exact iff_of_true (declaredKept_take declared n) (.inl hn)
  · obtain ⟨e, he⟩ := child.readU32Array_short _ _ _ h (not_le.mp hn)
    have hrow : groupMux child n = List.replicate n 0 := by rw [groupMux, he]
    rw [hrow]
    exact (declaredKept_replicate (not_le.mp hn)).trans (or_iff_right hn).symm

/-- An accepted child registers a row of its own size, and the row keeps the declared values
exactly if there is one for each pin or they are zero. -/
theorem declared_values_iff {before after : List OfNode} {child : OfNode} {k k' : Kernel} {n : ℕ}
    {declared : List ℕ} (hk : ParallelRows k.amx) (hchild : child.available = true)
    (hcount : child.countStrings "brunosmmm,pins" = .ok n) (hpos : 0 < n)
    (hmux : child.prop "brunosmmm,mux" = some (.cells declared))
    (hrun : aximuxParseExtraGroups (before ++ child :: after) k = (.ok (), k')) :
    ∃ row, RegisteredRow before child k k' row ∧ row.length = n ∧
      (DeclaredKept declared row ↔ n ≤ declared.length ∨ ∀ x ∈ declared, x = 0) := by
  have hsize : groupSize child = n := by rw [groupSize, hcount]
  have hgroup : isGroupNode child = true := by
    rw [isGroupNode, hchild, hsize, Bool.true_and, decide_eq_true_eq]
    omega
  have hrow := registeredRow_groupMux hk hgroup hrun
  rw [hsize] at hrow
  exact ⟨_, hrow, groupMux_length child n, declaredKept_groupMux_iff hmux n⟩

/-- A group of two pins with one declared value. -/
def shortGroup : OfNode :=
  .ofProps "lcd" true [("brunosmmm,pins", .strings ["pin0", "pin1"]), ("brunosmmm,mux", .cells [1])]

/-- The driver with two registered pins. -/
def twoPinKernel : Kernel :=
  ⟨⟨2, 4, [⟨0, "pin0", 0, []⟩, ⟨1, "pin1", 0, []⟩], [⟨0, "pin0"⟩, ⟨1, "pin1"⟩],
    [⟨"pin0", [0], 1⟩, ⟨"pin1", [1], 1⟩], []⟩, fun _ => true, 8, fun _ => 0, []⟩

theorem twoPinKernel_parallel : ParallelRows twoPinKernel.amx :=
  fun _ hfn => absurd hfn List.not_mem_nil

theorem shortGroup_accepted : aximuxParseExtraGroups [shortGroup] twoPinKernel =
    (.ok (), (aximuxParseExtraGroups [shortGroup] twoPinKernel).2) :=
  Prod.ext rfl rfl

theorem shortGroup_registers :
    RegisteredRow [] shortGroup twoPinKernel
      (aximuxParseExtraGroups [shortGroup] twoPinKernel).2 [0, 0] :=
  ⟨twoPinKernel, [], rfl, by decide +kernel⟩

/-- The declared value 1 of the first pin is replaced by 0. -/
theorem declared_values_replaced : ¬ ∀ (before after : List OfNode) (child : OfNode) (k k' : Kernel)
    (n : ℕ) (declared row : List ℕ), ParallelRows k.amx → child.available = true →
      child.countStrings "brunosmmm,pins" = .ok n → 0 < n →
      child.prop "brunosmmm,mux" = some (.cells declared) →
      aximuxParseExtraGroups (before ++ child :: after) k = (.ok (), k') →
      RegisteredRow before child k k' row → DeclaredKept declared row := by
  intro h
  have hkept := h [] [] shortGroup twoPinKernel _ 2 [1] [0, 0] twoPinKernel_parallel rfl rfl
    (by decide) rfl shortGroup_accepted shortGroup_registers
  exact absurd (hkept 0 1 0 rfl rfl) (by decide)

theorem declared_values_iff_sample : ∃ row,
    RegisteredRow [] shortGroup twoPinKernel
      (aximuxParseExtraGroups [shortGroup] twoPinKernel).2 row ∧ row.length = 2 ∧
      ¬ DeclaredKept [1] row := by
  have hrun : aximuxParseExtraGroups ([] ++ shortGroup :: []) twoPinKernel = _ :=
    shortGroup_accepted
  obtain ⟨row, hrow, hlen, hkept⟩ := declared_values_iff (n := 2) twoPinKernel_parallel rfl rfl
    (by decide) rfl hrun
  exact ⟨row, hrow, hlen, fun h => absurd (hkept.mp h) (by decide)⟩

end AximuxSystem.Driver
