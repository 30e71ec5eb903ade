import AximuxSystem.Driver.References

/-!
# Balance of the references

The body of the loop over the extra groups ends in three ways: it runs to its
end, it drops the reference and fails, or it fails with the reference held. The
last happens when one of its first two requests is declined, or one of those of
`aximux_add_function`.
-/

namespace AximuxSystem.Driver

open Fallible

variable {amx : Aximux} {i : ℕ} {child : OfNode} {k : Kernel}

def functionNames (amx : Aximux) : List String := amx.functions.map AximuxFunction.name

/-- The known function names with one more name in use. -/
def withName (known : List String) (name : String) : List String :=
  if name ∈ known then known else known ++ [name]

/-- Requests made to add a row: the copy of the values, the function if it is new, and its three
arrays. -/
def addRequests (known : List String) (name : String) : ℕ :=
  1 + ((if name ∈ known then 0 else 1) + 3)

/-! ### Adding a row -/

theorem addFunction_frame (name group : String) (npins : ℕ) (muxVals : List ℕ) :
    Comp.Frame Kernel.refs (aximuxAddFunction name group npins muxVals) := by
  have hcopy : Comp.Frame Kernel.refs (kmemdup muxVals npins) := by
    refine (needAlloc_frame 1).bind fun _ => ?_
    split_ifs
    · exact .pure _
    · exact .throw _
  refine hcopy.bind fun _ => getAmx_frame.bind fun _ => ?_
  simp only
  split_ifs
  · exact (needAlloc_frame 1).bind fun _ => (updateAmx_frame _).bind fun _ =>
      (needAlloc_frame 3).bind fun _ => updateAmx_frame _
  · exact (needAlloc_frame 3).bind fun _ => updateAmx_frame _

theorem findIdx_eq_iff (amx : Aximux) (name : String) :
    amx.functions.findIdx (·.name == name) = amx.nfunctions ↔ name ∉ functionNames amx := by
  rw [Aximux.nfunctions, List.findIdx_eq_length, functionNames, List.mem_map]
  simp

theorem map_name_modify (functions : List AximuxFunction) (f : ℕ) (group : String)
    (vals : List ℕ) (npins : ℕ) :
    (functions.modify f (·.push group vals npins)).map AximuxFunction.name =
      functions.map AximuxFunction.name := by
  have hname := Fallible.map_modify (f := AximuxFunction.name) (g := (·.push group vals npins))
    (h := id) (fun _ => rfl) functions f
  rwa [List.modify_id] at hname

/-- `n` requests later with the same pins and the given function names. -/
def NamesAfter (k : Kernel) (n : ℕ) (known : List String) (k' : Kernel) : Prop :=
  ∃ amx : Aximux, k' = k.after n amx ∧ amx.pins = k.amx.pins ∧ functionNames amx = known

theorem NamesAfter.of_after {m n : ℕ} {known : List String} {k' : Kernel}
    (h : NamesAfter (k.after m amx) n known k') (hpins : amx.pins = k.amx.pins) :
    NamesAfter k (m + n) known k' := by
  obtain ⟨amx', rfl, hpins', hnames⟩ := h
  exact ⟨amx', after_after k m n amx amx', hpins'.trans hpins, hnames⟩

theorem updateAmx_endsWell (f : Aximux → Aximux) (k : Kernel) :
    (updateAmx f).EndsWell k True fun _ k' => k' = k.after 0 (f k.amx) :=
  .of_ok rfl rfl

/-- The last part of `aximux_add_function`. -/
theorem pushRow_endsWell (f : ℕ) (group : String) (vals : List ℕ) (npins : ℕ) (k : Kernel) :
    (needAlloc 3 >>= fun _ => updateAmx fun amx => { amx with
        functions := amx.functions.modify f fun fn => fn.push group vals npins }).EndsWell k
      (ServedFrom k.served k.allocs 3)
      fun _ k' => NamesAfter k 3 (functionNames k.amx) k' := by
  refine ((needAlloc_endsWell 3 k).bind fun _ k₁ hk₁ => (updateAmx_endsWell _ k₁).mono ?_).congr
    (iff_of_eq (and_true _))
  rintro _ _ rfl
  subst hk₁
  exact ⟨_, after_after k 3 0 _ _, rfl, map_name_modify _ f group vals npins⟩

theorem addFunction_endsWell (name group : String) (muxVals : List ℕ) (k : Kernel) :
    (aximuxAddFunction name group muxVals.length muxVals).EndsWell k
      (ServedFrom k.served k.allocs (addRequests (functionNames k.amx) name))
      fun _ k' => NamesAfter k (addRequests (functionNames k.amx) name)
        (withName (functionNames k.amx) name) k' := by
  have hcopy : (kmemdup muxVals muxVals.length).EndsWell k (ServedFrom k.served k.allocs 1)
      fun vals k' => vals = muxVals ∧ k' = k.after 1 k.amx := by
    refine ((needAlloc_endsWell 1 k).bind fun _ k₁ hk₁ => ?_).congr (iff_of_eq (and_true _))
    rw [if_pos le_rfl, List.take_length]
    exact .pure ⟨rfl, hk₁⟩
  rw [addRequests]
  refine (hcopy.bind (d := ServedFrom k.served (k.allocs + 1) _) ?_).congr servedFrom_add.symm
  rintro vals _ ⟨rfl, rfl⟩
  refine .after_ok (show getAmx (k.after 1 k.amx) = (.ok k.amx, _) from rfl) ?_
  simp only [findIdx_eq_iff]
  by_cases hname : name ∈ functionNames k.amx
  · simp only [hname, not_true_eq_false, if_true, if_false, withName, Nat.zero_add]
    exact (pushRow_endsWell _ group vals vals.length _).mono fun _ _ h => h.of_after rfl
  · simp only [hname, not_false_eq_true, if_true, if_false, withName]
    refine ((needAlloc_endsWell 1 _).bind ?_).congr servedFrom_add.symm
    rintro _ _ rfl
    refine ((updateAmx_endsWell _ _).bind (d := ServedFrom k.served (k.allocs + 1 + 1) 3)
      ?_).congr (iff_of_eq (true_and _))
    rintro _ _ rfl
    refine (pushRow_endsWell _ group vals vals.length _).mono fun _ k' h => ?_
    rw [after_after, after_after] at h
    have hnames : functionNames { k.amx with
        functions := k.amx.functions ++ [⟨name, [], [], []⟩] } =
        functionNames k.amx ++ [name] := List.map_append
    rw [← hnames]
    exact h.of_after rfl

/-! ### One child -/

/-- An entry that does not resolve drops the reference. -/
theorem resolvePin_run (amx : Aximux) (i : ℕ) (child : OfNode) (j : ℕ) (k : Kernel) :
    match child.readStringIndex "brunosmmm,pins" j >>= findPin amx.pins with
    | .ok pin => resolvePin amx i child j k = (.ok pin, k)
    | .error _ => ∃ e k', resolvePin amx i child j k = (.error e, k') ∧
        k'.refs = (k.release i).refs := by
  unfold resolvePin
  cases child.readStringIndex "brunosmmm,pins" j with
  | error e => exact ⟨_, _, rfl, rfl⟩
  | ok pname =>
    simp only [ok_bind, findPin, aximuxFindPinByName]
    cases amx.pins.find? (·.name == pname) with
    | none => exact ⟨_, _, rfl, rfl⟩
    | some pin => rfl

theorem resolvePins_run (amx : Aximux) (i : ℕ) (child : OfNode) (js : List ℕ) (k : Kernel) :
    match js.mapM (fun j => child.readStringIndex "brunosmmm,pins" j >>= findPin amx.pins) with
    | .ok pins => js.mapM (resolvePin amx i child) k = (.ok pins, k)
    | .error _ => ∃ e k', js.mapM (resolvePin amx i child) k = (.error e, k') ∧
        k'.refs = (k.release i).refs := by
  induction js with
  | nil => rfl
  | cons j js ih =>
    have hj := resolvePin_run amx i child j k
    simp only [List.mapM_cons]
    cases hr : child.readStringIndex "brunosmmm,pins" j >>= findPin amx.pins with
    | error e =>
      rw [hr] at hj
      obtain ⟨e', k', hrun, hrefs⟩ := hj
      exact ⟨e', k', Comp.bind_of_error hrun, hrefs⟩
    | ok pin =>
      rw [hr] at hj
      simp only [ok_bind]
      rw [Comp.bind_of_ok hj]
      cases hmore : js.mapM fun j =>
        child.readStringIndex "brunosmmm,pins" j >>= findPin amx.pins with
      | error e =>
        rw [hmore] at ih
        obtain ⟨e', k', hrun, hrefs⟩ := ih
        exact ⟨e', k', Comp.bind_of_error hrun, hrefs⟩
      | ok pins =>
        rw [hmore] at ih
        exact Comp.bind_of_ok ih

/-- The loop body on a child that lists pins, behind its first two requests. -/
theorem extraGroup_served (i : ℕ) (hsize : groupSize child ≠ 0)
    (h : ServedFrom k.served k.allocs 2) :
    extraGroup i child () k = ((List.range (groupSize child)).mapM (resolvePin k.amx i child) >>=
      fun pins => kalloc 1 >>= fun ok =>
        if ok then updateAmx (fun amx => { amx with
            groups := amx.groups ++ [⟨child.name, pins, groupSize child⟩] }) >>= fun _ =>
          aximuxAddFunction (groupFunction child) child.name (groupSize child)
            (groupMux child (groupSize child))
        else ofNodePut i >>= fun _ => Comp.throw (.errno .ENOMEM)) (k.after 2 k.amx) := by
  obtain ⟨n, hn, hcount⟩ := countStrings_of_groupSize hsize
  rw [hn, extraGroup, hcount]
  exact Comp.bind_of_ok (needAlloc_of_served h)

/-- A declined request of the first two ends the body with the reference held. -/
theorem extraGroup_declined (i : ℕ) (hsize : groupSize child ≠ 0)
    (h : ¬ ServedFrom k.served k.allocs 2) :
    ∃ e k', extraGroup i child () k = (.error e, k') ∧ k'.refs = k.refs := by
  obtain ⟨n, -, hcount⟩ := countStrings_of_groupSize hsize
  refine ⟨.errno .ENOMEM, k.after 2 k.amx, ?_, rfl⟩
  rw [extraGroup, hcount]
  exact Comp.bind_of_error (needAlloc_of_not_served h)

/-- The pins of a child resolve. -/
def Resolves (pins : List AximuxPin) (child : OfNode) : Prop :=
  ∃ members, groupPins pins child = .ok members

/-- An unknown pin, or a declined request for the group, ends the body with the reference
dropped. -/
theorem extraGroup_cleaned (i : ℕ) (hsize : groupSize child ≠ 0)
    (h : ServedFrom k.served k.allocs 2)
    (hnot : ¬ (Resolves k.amx.pins child ∧ ServedFrom k.served (k.allocs + 2) 1)) :
    ∃ e k', extraGroup i child () k = (.error e, k') ∧ k'.refs = (k.release i).refs := by
  rw [extraGroup_served i hsize h]
  have hpins := resolvePins_run k.amx i child (List.range (groupSize child)) (k.after 2 k.amx)
  cases hmembers : groupPins k.amx.pins child with
  | error e =>
    rw [← groupPins, hmembers] at hpins
    obtain ⟨e', k', hrun, hrefs⟩ := hpins
    exact ⟨e', k', Comp.bind_of_error hrun, hrefs⟩
  | ok members =>
    rw [← groupPins, hmembers] at hpins
    have hthird : ¬ ServedFrom k.served (k.allocs + 2) 1 := fun h => hnot ⟨⟨members, hmembers⟩, h⟩
    have hall : (List.range' (k.allocs + 2) 1).all k.served = false := by
      rw [← Bool.not_eq_true, all_range'_iff]
      exact hthird
    refine ⟨.errno .ENOMEM, ((k.after 2 k.amx).after 1 k.amx).release i, ?_, rfl⟩
    rw [Comp.bind_of_ok hpins, Comp.bind_of_ok (kalloc_apply 1 _)]
    change (if (List.range' (k.allocs + 2) 1).all k.served = true then _ else _ : Probe Unit) _ = _
    rw [hall]
    rfl

/-- With its pins resolved and its group allocated, all that is left of the body is
`aximux_add_function`. -/
theorem extraGroup_resolved (i : ℕ) (hsize : groupSize child ≠ 0)
    (h : ServedFrom k.served k.allocs 2) (hpins : Resolves k.amx.pins child)
    (hgroup : ServedFrom k.served (k.allocs + 2) 1) :
    ∃ amx, amx.pins = k.amx.pins ∧ functionNames amx = functionNames k.amx ∧
      extraGroup i child () k = aximuxAddFunction (groupFunction child) child.name
        (groupSize child) (groupMux child (groupSize child)) (k.after 3 amx) := by
  obtain ⟨members, hmembers⟩ := hpins
  have hrun := resolvePins_run k.amx i child (List.range (groupSize child)) (k.after 2 k.amx)
  rw [← groupPins, hmembers] at hrun
  refine ⟨{ k.amx with groups := k.amx.groups ++ [⟨child.name, members, groupSize child⟩] },
    rfl, rfl, ?_⟩
  rw [extraGroup_served i hsize h, Comp.bind_of_ok hrun, Comp.bind_of_ok (kalloc_apply 1 _)]
  change (if (List.range' (k.allocs + 2) 1).all k.served = true then _ else _ : Probe Unit) _ = _
  rw [all_range'_iff.mpr hgroup]
  rfl

/-- Then the child is registered exactly if `aximux_add_function` gets its requests, and the
reference stays held if not. -/
theorem extraGroup_added (i : ℕ) (hsize : groupSize child ≠ 0)
    (h : ServedFrom k.served k.allocs 2) (hpins : Resolves k.amx.pins child)
    (hgroup : ServedFrom k.served (k.allocs + 2) 1) :
    (extraGroup i child ()).EndsWell k (ServedFrom k.served (k.allocs + 3)
      (addRequests (functionNames k.amx) (groupFunction child)))
      (fun _ k' => NamesAfter k (3 + addRequests (functionNames k.amx) (groupFunction child))
        (withName (functionNames k.amx) (groupFunction child)) k') ∧
    (extraGroup i child () k).2.refs = k.refs := by
  obtain ⟨amx, hamx, hnames, hrun⟩ := extraGroup_resolved i hsize h hpins hgroup
  have hadd := addFunction_endsWell (groupFunction child) child.name
    (groupMux child (groupSize child)) (k.after 3 amx)
  rw [groupMux_length, show functionNames (k.after 3 amx).amx = functionNames k.amx from hnames]
    at hadd
  rw [Comp.EndsWell, hrun]
  exact ⟨hadd.mono fun _ _ hafter => hafter.of_after hamx, addFunction_frame _ _ _ _ _⟩

/-! ### All children -/

/-- The loop over the group children, before request number `start` and with the functions
`known`, is left with a reference held. -/
def GroupsLeak (served : ℕ → Bool) (pins : List AximuxPin) :
    ℕ → List String → List OfNode → Prop
  | _, _, [] => False
  | start, known, child :: rest =>
    ¬ ServedFrom served start 2 ∨
    Resolves pins child ∧ ServedFrom served (start + 2) 1 ∧
      (ServedFrom served (start + 3) (addRequests known (groupFunction child)) →
        GroupsLeak served pins (start + (3 + addRequests known (groupFunction child)))
          (withName known (groupFunction child)) rest)

/-- The loop at a group child whose pins resolve and whose group is allocated, when the rest of the
loop leaks as `GroupsLeak` says. -/
theorem extraGroups_refs_added {np : List OfNode} (i : ℕ) (ha : child.available = true)
    (hsize : groupSize child ≠ 0) (h : ServedFrom k.served k.allocs 2)
    (hpins : Resolves k.amx.pins child) (hgroup : ServedFrom k.served (k.allocs + 2) 1)
    (ih : ∀ k', (forEachAvailableChild extraGroup (i + 1) np () k').2.refs = k'.refs ↔
      ¬ GroupsLeak k'.served k'.amx.pins k'.allocs (functionNames k'.amx) (groupNodes np)) :
    (forEachAvailableChild extraGroup i (child :: np) () k).2.refs = k.refs ↔
      ¬ (ServedFrom k.served (k.allocs + 3)
          (addRequests (functionNames k.amx) (groupFunction child)) →
        GroupsLeak k.served k.amx.pins
          (k.allocs + (3 + addRequests (functionNames k.amx) (groupFunction child)))
          (withName (functionNames k.amx) (groupFunction child)) (groupNodes np)) := by
  obtain ⟨hadd, hrefs⟩ := extraGroup_added (k := k.hold i) i hsize h hpins hgroup
  by_cases hserved : ServedFrom k.served (k.allocs + 3)
      (addRequests (functionNames k.amx) (groupFunction child))
  · obtain ⟨⟨⟩, k', hrun, amx, rfl, hpins', hnames⟩ := hadd.1 hserved
    have hrest := ih (k.after
      (3 + addRequests (functionNames k.amx) (groupFunction child)) amx)
    rw [forEach_visit ha hrun, release_after_hold, imp_iff_right hserved]
    rw [show (k.after _ amx).amx.pins = k.amx.pins from hpins',
      show functionNames (k.after _ amx).amx = _ from hnames] at hrest
    exact hrest
  · obtain ⟨e, k', hrun⟩ := hadd.2 hserved
    rw [hrun] at hrefs
    rw [forEach_visit_error ha hrun]
    refine iff_of_false ?_ fun hnot => hnot fun h => absurd h hserved
    exact fun h => hold_refs_ne k i (hrefs.symm.trans h)

theorem extraGroups_refs_iff (np : List OfNode) (i : ℕ) (k : Kernel) :
    (forEachAvailableChild extraGroup i np () k).2.refs = k.refs ↔
      ¬ GroupsLeak k.served k.amx.pins k.allocs (functionNames k.amx) (groupNodes np) := by
  induction np generalizing i k with
  | nil => exact iff_of_true rfl id
  | cons child np ih =>
    by_cases hgroup : isGroupNode child
    · have hnodes : groupNodes (child :: np) = child :: groupNodes np :=
        List.filter_cons_of_pos hgroup
      obtain ⟨ha, hsize⟩ : child.available = true ∧ groupSize child ≠ 0 := by
        simpa [isGroupNode] using hgroup
      rw [hnodes, GroupsLeak]
      by_cases hfirst : ServedFrom k.served k.allocs 2
      · rw [or_iff_right (not_not.mpr hfirst), ← and_assoc]
        by_cases hres : Resolves k.amx.pins child ∧ ServedFrom k.served (k.allocs + 2) 1
        · rw [and_iff_right hres]
          exact extraGroups_refs_added i ha hsize hfirst hres.1 hres.2 (ih (i + 1))
        · obtain ⟨e, k', hrun, hrefs⟩ :=
            extraGroup_cleaned (k := k.hold i) i hsize hfirst hres
          rw [forEach_visit_error ha hrun, hrefs]
          exact iff_of_true (hold_release_refs rfl) fun h => hres h.1
      · obtain ⟨e, k', hrun, hrefs⟩ := extraGroup_declined (k := k.hold i) i hsize hfirst
        rw [forEach_visit_error ha hrun, hrefs]
        exact iff_of_false (hold_refs_ne k i) fun hnot => hnot (.inl hfirst)
    · have hnodes : groupNodes (child :: np) = groupNodes np := List.filter_cons_of_neg hgroup
      rw [hnodes, forEach_pass fun ha =>
        extraGroup_of_groupSize (by simpa [isGroupNode, ha] using hgroup) i]
      exact ih (i + 1) k

/-- The two functions leave every reference as it was exactly if their loops are not left with a
reference held. -/
theorem references_balanced_iff (info : BitVec 32) (np : List OfNode) (k : Kernel) :
    ((aximuxParsePins info np { k with amx := Aximux.zeroed }).2.refs = k.refs ↔
      ¬ PinsLeak info np k.served k.allocs) ∧
    ((aximuxParseExtraGroups np k).2.refs = k.refs ↔
      ¬ GroupsLeak k.served k.amx.pins k.allocs (functionNames k.amx) (groupNodes np)) :=
  ⟨parsePins_refs_iff info np rfl, extraGroups_refs_iff np 0 k⟩

/-- A pin child whose index is beyond the pins of the core. -/
def beyondNodes : List OfNode := [.ofProps "pin@9" true [("reg", .cells [9])]]

/-- The error for the index is returned with the reference held. -/
theorem references_leak : ¬ ∀ (info : BitVec 32) (np : List OfNode) (k : Kernel),
    (aximuxParsePins info np { k with amx := Aximux.zeroed }).2.refs = k.refs ∧
      (aximuxParseExtraGroups np k).2.refs = k.refs := by
  intro h
  have hrefs := congrFun (h 0x408 beyondNodes (Kernel.initial fun _ => true)).1 0
  exact absurd hrefs (by decide +kernel)

end AximuxSystem.Driver
