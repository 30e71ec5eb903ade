import AximuxSystem.Driver.TableSpec

/-!
# The table code computes the description

Each pass is followed from an explicit driver structure to the next one. The
loop over the children carries the entries filled so far in front of the
entries still zero.
-/

namespace AximuxSystem.Driver

open Fallible

/-- The outcome of a probe step whose description is `r`. -/
def described {α β : Type} (r : Except Errno β) (f : β → α × Aximux) : Except Stop (α × Aximux) :=
  match r with
  | .ok b => .ok (f b)
  | .error e => .error (.errno e)

@[simp] theorem described_ok {α β : Type} (b : β) (f : β → α × Aximux) :
    described (.ok b) f = .ok (f b) := rfl

@[simp] theorem described_error {α β : Type} (e : Errno) (f : β → α × Aximux) :
    described (.error e) f = .error (.errno e) := rfl

theorem described_eq_ok {α β : Type} {r : Except Errno β} {f : β → α × Aximux} {x : α × Aximux} :
    described r f = .ok x ↔ ∃ b, r = .ok b ∧ f b = x := by
  cases r <;> simp

namespace Builds

variable {α β : Type} {amx amx' : Aximux}

section Children

variable {body : ℕ → OfNode → β → Probe β} {i : ℕ} {child : OfNode} {rest : List OfNode} {s s' : β}

theorem skip (h : child.available = false) {r : Except Stop (β × Aximux)}
    (hr : Builds (forEachAvailableChild body (i + 1) rest s) amx r) :
    Builds (forEachAvailableChild body i (child :: rest) s) amx r := by
  rw [forEachAvailableChild, if_neg (by simp [h])]
  exact hr

theorem visit (h : child.available = true) {r : Except Stop (β × Aximux)}
    (hb : Builds (body i child s) amx (.ok (s', amx')))
    (hr : Builds (forEachAvailableChild body (i + 1) rest s') amx' r) :
    Builds (forEachAvailableChild body i (child :: rest) s) amx r := by
  rw [forEachAvailableChild, if_pos h]
  exact (ofNodeGet i).bind (hb.bind ((ofNodePut i).bind hr))

theorem visit_error (h : child.available = true) {e : Stop}
    (hb : Builds (body i child s) amx (.error e)) :
    Builds (forEachAvailableChild body i (child :: rest) s) amx (.error e) := by
  rw [forEachAvailableChild, if_pos h]
  exact (ofNodeGet i).bind hb.bind_error

end Children

/-- A child the body passes over leaves the loop where it is. -/
theorem pass {c : OfNode} {body : ℕ → OfNode → β → Probe β} {i : ℕ} {rest : List OfNode} {s : β}
    (hsame : c.available = true → body i c s = Pure.pure s)
    {r : Except Stop (β × Aximux)}
    (hr : Builds (forEachAvailableChild body (i + 1) rest s) amx r) :
    Builds (forEachAvailableChild body i (c :: rest) s) amx r := by
  by_cases ha : c.available
  · refine visit ha ?_ hr
    rw [hsame ha]
    exact Tracks.pure s
  · exact skip (by simpa using ha) hr

/-! ### Pins -/

theorem countPins (np : List OfNode) (i : ℕ) (amx : Aximux) :
    Builds (forEachAvailableChild countPin i np ()) amx
      (.ok ((), { amx with npins := amx.npins + (pinNodes np).length })) := by
  induction np generalizing i amx with
  | nil => exact Tracks.pure ()
  | cons c np ih =>
    by_cases hpin : isPinNode c
    · have hnodes : pinNodes (c :: np) = c :: pinNodes np := List.filter_cons_of_pos hpin
      obtain ⟨ha, hf, reg, hr⟩ := isPinNode_eq_true.mp hpin
      have hrest := ih (i + 1) { amx with npins := amx.npins + 1 }
      rw [hnodes, List.length_cons, show amx.npins + ((pinNodes np).length + 1) =
        amx.npins + 1 + (pinNodes np).length by omega]
      refine visit ha ?_ hrest
      rw [countPin, if_neg (by simp [hf]), hr]
      exact updateAmx _
    · have hnodes : pinNodes (c :: np) = pinNodes np := List.filter_cons_of_neg hpin
      rw [hnodes]
      exact pass (countPin_of_not_pin hpin i) (ih (i + 1) amx)

theorem modify_append {γ : Type} (done : List γ) (x : γ) (rest : List γ) (f : γ → γ) :
    (done ++ x :: rest).modify done.length f = done ++ f x :: rest := by
  induction done with
  | nil => rfl
  | cons y done ih => simp [ih]

theorem storePin {done rest : List AximuxPin} {pin : AximuxPin} {f : AximuxPin → AximuxPin}
    (h : amx.pins = done ++ pin :: rest) :
    Builds (storePin done.length f) amx (.ok ((), { amx with pins := done ++ f pin :: rest })) := by
  have hlt : done.length < amx.pins.length := by simp [h]
  have hs := storeAt Aximux.pins (fun amx pins => { amx with pins := pins }) f hlt
  rwa [h, modify_append] at hs

theorem storePindesc {done rest : List PinDesc} {old desc : PinDesc} {idx : ℕ}
    (h : amx.pindescs = done ++ old :: rest) (hi : done.length = idx) :
    Builds (storePindesc idx desc) amx
      (.ok ((), { amx with pindescs := done ++ desc :: rest })) := by
  subst hi
  have hlt : done.length < amx.pindescs.length := by simp [h]
  have hs := storeAt Aximux.pindescs (fun amx descs => { amx with pindescs := descs })
    (fun _ => desc) hlt
  rwa [h, modify_append] at hs

theorem readNames {done rest : List AximuxPin} {reg : ℕ} {name : String} (c : OfNode)
    (h : amx.pins = done ++ ⟨reg, name, 0, []⟩ :: rest) :
    Builds (readNames c done.length) amx (described (nodeNames c) fun names =>
      ((), { amx with pins := done ++ ⟨reg, name, names.length, names⟩ :: rest })) := by
  unfold Driver.readNames nodeNames
  cases namesProp c with
  | none =>
    have hsame : ({ amx with pins := done ++ ⟨reg, name, 0, []⟩ :: rest } : Aximux) = amx := by
      rw [← h]
    simp only [described_ok, List.length_nil, hsame]
    exact Tracks.pure ()
  | some prop =>
    cases hn : c.countStrings prop with
    | error e =>
      simp only [hn]
      exact Tracks.throw (Stop.errno e)
    | ok n =>
      simp only [hn]
      refine needAlloc 1 ?_
      cases hv : c.readStringArray prop n with
      | error e =>
        simp only [ok_bind, hv, described_error]
        exact Tracks.throw (Stop.errno .EINVAL)
      | ok names =>
        simp only [ok_bind, hv, described_ok, Vector.length_toList]
        exact storePin h

/-- The second pass on one pin child, with entry `done.length` still zero. -/
theorem fillPin_pin {done rest : List AximuxPin} {descs rest' : List PinDesc} {c : OfNode} {reg : ℕ}
    (hwPins i : ℕ) (hf : c.findProperty "brunosmmm,pins" = false) (hr : c.readU32 "reg" = .ok reg)
    (hpins : amx.pins = done ++ ⟨0, "", 0, []⟩ :: rest)
    (hdescs : amx.pindescs = descs ++ ⟨0, ""⟩ :: rest') (hlen : descs.length = done.length) :
    Builds (fillPin hwPins i c done.length) amx (described (pinEntry hwPins c) fun pin =>
      (done.length + 1,
        { amx with
          pins := done ++ pin :: rest
          pindescs := descs ++ pin.desc :: rest' })) := by
  unfold fillPin pinEntry
  simp only [hf, Bool.false_eq_true, if_false, hr, ok_bind]
  by_cases hreg : reg ≥ hwPins
  · simp only [hreg, if_true, described_error]
    exact Tracks.throw _
  simp only [hreg, if_false]
  refine (storePin hpins).bind (needAlloc 1 ((storePin rfl).bind ?_))
  have hread := readNames c (show ({ amx with pins := done ++ ⟨reg, pinName reg, 0, []⟩ :: rest } :
    Aximux).pins = _ from rfl)
  cases hnames : nodeNames c with
  | error e =>
    rw [hnames] at hread
    exact hread.bind_error
  | ok names =>
    rw [hnames] at hread
    refine hread.bind ?_
    refine Tracks.bind (storePindesc hdescs hlen) ?_
    exact Tracks.pure _

/-- The driver structure after filling in `pins`. -/
def withPins (amx : Aximux) (pins : List AximuxPin) : Aximux :=
  { amx with pins := pins, pindescs := pins.map AximuxPin.desc }

theorem fillPins (hwPins : ℕ) (np : List OfNode) (i : ℕ) (done : List AximuxPin) (amx : Aximux)
    (hpins : amx.pins = done ++ List.replicate (pinNodes np).length ⟨0, "", 0, []⟩)
    (hdescs : amx.pindescs =
      done.map AximuxPin.desc ++ List.replicate (pinNodes np).length ⟨0, ""⟩) :
    Builds (forEachAvailableChild (fillPin hwPins) i np done.length) amx
      (described ((pinNodes np).mapM (pinEntry hwPins)) fun pins =>
        ((done ++ pins).length, withPins amx (done ++ pins))) := by
  induction np generalizing i done amx with
  | nil =>
    have hpins : amx.pins = done := by simpa [pinNodes] using hpins
    have hdescs : amx.pindescs = done.map AximuxPin.desc := by simpa [pinNodes] using hdescs
    have hsame : withPins amx (done ++ []) = amx := by
      rw [List.append_nil, withPins, ← hdescs, ← hpins]
    simp only [pinNodes, List.filter_nil, List.mapM_nil, pure_eq_ok, described_ok, hsame]
    rw [List.append_nil]
    exact Tracks.pure _
  | cons c np ih =>
    by_cases hpin : isPinNode c
    · have hnodes : pinNodes (c :: np) = c :: pinNodes np := List.filter_cons_of_pos hpin
      rw [hnodes, List.length_cons, List.replicate_succ] at hpins hdescs
      rw [hnodes, List.mapM_cons]
      obtain ⟨ha, hf, reg, hr⟩ := isPinNode_eq_true.mp hpin
      have hbody := fillPin_pin hwPins i hf hr hpins hdescs (List.length_map _)
      cases hentry : pinEntry hwPins c with
      | error e =>
        rw [hentry] at hbody
        exact visit_error ha hbody
      | ok pin =>
        rw [hentry] at hbody
        have hrest := ih (i + 1) (done ++ [pin])
          { amx with
            pins := done ++ pin :: List.replicate (pinNodes np).length ⟨0, "", 0, []⟩
            pindescs := done.map AximuxPin.desc ++ pin.desc ::
              List.replicate (pinNodes np).length ⟨0, ""⟩ }
          (by rw [List.append_assoc]; rfl) (by rw [List.map_append, List.append_assoc]; rfl)
        rw [List.length_append, List.length_singleton] at hrest
        refine visit ha hbody ?_
        rw [ok_bind]
        cases hmore : (pinNodes np).mapM (pinEntry hwPins) with
        | error e =>
          rw [hmore] at hrest
          exact hrest
        | ok pins =>
          rw [hmore, described_ok, List.append_assoc] at hrest
          exact hrest
    · have hnodes : pinNodes (c :: np) = pinNodes np := List.filter_cons_of_neg hpin
      rw [hnodes] at hpins hdescs ⊢
      exact pass (fillPin_of_not_pin hpin hwPins i done.length)
        (ih (i + 1) done amx hpins hdescs)

/-- The loop that names the pins of a node without pin children. -/
theorem defaultPins (m k : ℕ) (done : List AximuxPin) (amx : Aximux) (hk : done.length = k)
    (hpins : amx.pins = done ++ List.replicate m ⟨0, "", 0, []⟩)
    (hdescs : amx.pindescs = done.map AximuxPin.desc ++ List.replicate m ⟨0, ""⟩) :
    Builds ((List.range' k m).forM defaultPin) amx
      (.ok (⟨⟩, withPins amx (done ++ (List.range' k m).map defaultEntry))) := by
  induction m generalizing k done amx with
  | zero =>
    have hpins : amx.pins = done := by simpa using hpins
    have hdescs : amx.pindescs = done.map AximuxPin.desc := by simpa using hdescs
    have hsame : withPins amx (done ++ (List.range' k 0).map defaultEntry) = amx := by
      rw [List.range'_zero, List.map_nil, List.append_nil, withPins, ← hdescs, ← hpins]
    rw [hsame]
    exact Tracks.pure _
  | succ m ih =>
    rw [List.replicate_succ] at hpins hdescs
    rw [List.range'_succ, List.map_cons]
    have hrest := ih (k + 1) (done ++ [defaultEntry k])
      { amx with
        pins := done ++ defaultEntry k :: List.replicate m ⟨0, "", 0, []⟩
        pindescs := done.map AximuxPin.desc ++ (defaultEntry k).desc :: List.replicate m ⟨0, ""⟩ }
      (by rw [List.length_append, List.length_singleton, hk]) (by rw [List.append_assoc]; rfl)
      (by rw [List.map_append, List.append_assoc]; rfl)
    rw [List.append_assoc] at hrest
    change Builds (defaultPin k >>= fun _ => (List.range' (k + 1) m).forM defaultPin) amx _
    refine Tracks.bind (a := ()) ?_ hrest
    subst hk
    refine needAlloc 1 ((storePin hpins).bind ?_)
    exact storePindesc hdescs (List.length_map _)

theorem allocPins (npins : ℕ) (amx : Aximux) :
    Builds (allocPins npins) amx (.ok ((),
      { amx with
        pins := List.replicate npins ⟨0, "", 0, []⟩
        pindescs := List.replicate npins ⟨0, ""⟩ })) :=
  needAlloc 2 (updateAmx _)

/-- `aximux_parse_pins` on a zeroed structure: the second pass fills exactly the entries the
first one counted. -/
theorem parsePins (info : BitVec 32) (np : List OfNode) :
    Builds (aximuxParsePins info np) Aximux.zeroed
      (if infoPins info = 0 ∨ infoPins info > aximuxMaxPins then .error (.errno .EINVAL)
        else described (pinTable (infoPins info) np) fun pins =>
          (pins.length, ⟨pins.length, altLimit (infoAlts info), pins, pins.map AximuxPin.desc,
            [], []⟩)) := by
  unfold aximuxParsePins pinTable
  by_cases hinfo : infoPins info = 0 ∨ infoPins info > aximuxMaxPins
  · simp only [hinfo, if_true]
    exact (devErr _).bind (Tracks.throw _)
  simp only [hinfo, if_false]
  refine (updateAmx _).bind ((countPins np 0 _).bind (getAmx.bind ?_))
  simp only [Aximux.zeroed, Nat.zero_add, List.length_eq_zero_iff]
  by_cases hnone : pinNodes np = []
  · simp only [hnone, if_true, List.length_nil, described_ok]
    refine (updateAmx _).bind ((allocPins _ _).bind ?_)
    have hloop := defaultPins (infoPins info) 0 []
    rw [← List.range_eq_range'] at hloop
    refine (hloop _ rfl rfl rfl).bind ?_
    have hlen : ((List.range (infoPins info)).map defaultEntry).length = infoPins info := by simp
    rw [hlen]
    exact Tracks.pure _
  · simp only [hnone, if_false]
    by_cases hmany : (pinNodes np).length > infoPins info
    · simp only [hmany, if_true, described_error]
      exact (devErr _).bind (Tracks.throw _)
    · simp only [hmany, if_false]
      refine (allocPins _ _).bind ?_
      have hfill := fillPins (infoPins info) np 0 [] ⟨(pinNodes np).length,
        altLimit (infoAlts info), List.replicate (pinNodes np).length ⟨0, "", 0, []⟩,
        List.replicate (pinNodes np).length ⟨0, ""⟩, [], []⟩ rfl rfl
      cases hp : (pinNodes np).mapM (pinEntry (infoPins info)) with
      | error e =>
        rw [hp] at hfill
        exact hfill
      | ok pins =>
        have hlen : (pinNodes np).length = pins.length := (mapM_eq_ok.mp hp).length_eq
        rw [hp, hlen] at hfill
        rw [hlen]
        exact hfill

/-! ### Functions -/

/-- Appending a row to a function found by name, or opened at the end, is adding it to the
grouping by name. -/
theorem pushRow (g : List (String × List (String × List ℕ))) (name group : String)
    (vals : List ℕ) :
    (if (g.map functionOf).findIdx (·.name == name) = (g.map functionOf).length
      then g.map functionOf ++ [⟨name, [], [], []⟩] else g.map functionOf).modify
        ((g.map functionOf).findIdx (·.name == name)) (·.push group vals vals.length) =
      (Grouping.add g name (group, vals)).map functionOf := by
  induction g with
  | nil => rfl
  | cons e g ih =>
    by_cases he : e.1 = name
    · have hfound : ((functionOf e).name == name) = true := beq_iff_eq.mpr he
      simp only [List.map_cons, List.findIdx_cons, hfound, cond_true, List.length_cons,
        Grouping.add, he, if_true]
      simp [functionOf, AximuxFunction.push, he]
    · have hnot : ((functionOf e).name == name) = false := beq_eq_false_iff_ne.mpr he
      simp only [List.map_cons, List.findIdx_cons, hnot, cond_false, List.length_cons,
        Grouping.add, he, if_false, Nat.add_right_cancel_iff, ← ih]
      split_ifs <;> rfl

theorem addFunction {g : List (String × List (String × List ℕ))} (name group : String)
    (muxVals : List ℕ) (h : amx.functions = g.map functionOf) :
    Builds (aximuxAddFunction name group muxVals.length muxVals) amx (.ok ((),
      { amx with functions := (Grouping.add g name (group, muxVals)).map functionOf })) := by
  have hcopy : Builds (kmemdup muxVals muxVals.length) amx (.ok (muxVals, amx)) := by
    refine needAlloc 1 ?_
    rw [if_pos le_rfl, List.take_length]
    exact Tracks.pure _
  refine hcopy.bind (getAmx.bind ?_)
  rw [← pushRow, ← h]
  simp only [Aximux.nfunctions]
  by_cases hnew : amx.functions.findIdx (·.name == name) = amx.functions.length
  · simp only [hnew, if_true]
    exact needAlloc 1 ((updateAmx _).bind (needAlloc 3 (updateAmx _)))
  · simp only [hnew, if_false]
    exact needAlloc 3 (updateAmx _)

/-- A sequence of `aximux_add_function` calls. -/
theorem addRows (rows : List FunctionRow) (g : List (String × List (String × List ℕ)))
    (amx : Aximux) (h : amx.functions = g.map functionOf) :
    Builds (rows.forM fun row => aximuxAddFunction row.1 row.2.1 row.2.2.length row.2.2) amx
      (.ok (⟨⟩, { amx with functions := (Grouping.addAll g rows).map functionOf })) := by
  induction rows generalizing g amx with
  | nil =>
    rw [Grouping.addAll_nil, ← h]
    exact Tracks.pure _
  | cons row rows ih =>
    exact (addFunction row.1 row.2.1 row.2.2 h).bind (ih _ _ rfl)

/-! ### Groups -/

theorem pinFunctions (pin : AximuxPin) (hn : pin.nfuncs = pin.funcNames.length) :
    ((List.range pin.nfuncs).forM fun f => do
        let func ← Driver.load pin.funcNames f
        aximuxAddFunction func pin.name 1 [f]) =
      pin.rows.forM fun row => aximuxAddFunction row.1 row.2.1 row.2.2.length row.2.2 := by
  rw [hn, forM_range_eq pin.funcNames (g := fun func f => aximuxAddFunction func pin.name 1 [f])]
  · have hmap := List.forM_map (m := Probe) (l := pin.funcNames.zipIdx)
      (g := fun p => ((p.1, pin.name, [p.2]) : FunctionRow))
      (f := fun row => aximuxAddFunction row.1 row.2.1 row.2.2.length row.2.2)
    exact hmap.symm
  · intro i x hi
    rw [Driver.load, hi]
    rfl

theorem defaultGroups (todo done : List AximuxPin) (amx : Aximux)
    (g : List (String × List (String × List ℕ)))
    (hn : ∀ pin ∈ todo, pin.nfuncs = pin.funcNames.length) (hpins : amx.pins = done ++ todo)
    (hgroups : amx.groups = done.map AximuxPin.group ++ List.replicate todo.length ⟨"", [], 0⟩)
    (hfuncs : amx.functions = g.map functionOf) :
    Builds ((List.range' done.length todo.length).forM defaultGroup) amx (.ok (⟨⟩,
      { amx with
        groups := (done ++ todo).map AximuxPin.group
        functions := (Grouping.addAll g (todo.flatMap AximuxPin.rows)).map functionOf })) := by
  induction todo generalizing done amx g with
  | nil =>
    have hgroups : amx.groups = done.map AximuxPin.group := by simpa using hgroups
    rw [List.append_nil, List.flatMap_nil, Grouping.addAll_nil, ← hgroups, ← hfuncs]
    exact Tracks.pure _
  | cons pin todo ih =>
    rw [List.forall_mem_cons] at hn
    rw [List.length_cons, List.replicate_succ] at hgroups
    rw [List.length_cons, List.range'_succ, List.flatMap_cons, Grouping.addAll_append]
    have hrest := ih (done ++ [pin])
      { amx with
        groups := done.map AximuxPin.group ++ pin.group ::
          List.replicate todo.length ⟨"", [], 0⟩
        functions := (Grouping.addAll g pin.rows).map functionOf }
      _ hn.2 (by rw [List.append_assoc]; exact hpins)
      (by rw [List.map_append, List.append_assoc]; rfl) rfl
    rw [List.append_assoc, List.length_append, List.length_singleton] at hrest
    change Builds (defaultGroup done.length >>= fun _ =>
      (List.range' (done.length + 1) todo.length).forM defaultGroup) amx _
    refine Tracks.bind (a := ()) ?_ hrest
    have hload : amx.pins[done.length]? = some pin := by simp [hpins]
    refine needAlloc 1 (getAmx.bind ((load hload).bind ?_))
    rw [pinFunctions pin hn.1]
    have hlt : done.length < amx.groups.length := by simp [hgroups]
    have hstore := storeAt Aximux.groups (fun amx groups => { amx with groups := groups })
      (fun _ => pin.group) hlt
    have hlen : done.length = (done.map AximuxPin.group).length := (List.length_map _).symm
    rw [hgroups, hlen, modify_append, ← hlen] at hstore
    exact Tracks.bind hstore (addRows pin.rows g _ hfuncs)

theorem buildDefaultGroups (amx : Aximux) (hlen : amx.pins.length = amx.npins)
    (hn : ∀ pin ∈ amx.pins, pin.nfuncs = pin.funcNames.length) (hfuncs : amx.functions = []) :
    Builds aximuxBuildDefaultGroups amx (.ok (⟨⟩,
      { amx with
        groups := amx.pins.map AximuxPin.group
        functions := functionTable (amx.pins.flatMap AximuxPin.rows) })) := by
  refine needAlloc 1 (getAmx.bind ((updateAmx _).bind ?_))
  have hloop := defaultGroups amx.pins []
    { amx with groups := List.replicate amx.npins ⟨"", [], 0⟩ } [] hn rfl (by rw [hlen]; rfl) hfuncs
  rw [List.length_nil, ← List.range_eq_range', hlen] at hloop
  exact hloop

theorem resolvePin (i : ℕ) (c : OfNode) (j : ℕ) :
    Builds (resolvePin amx i c j) amx (described
      (c.readStringIndex "brunosmmm,pins" j >>= findPin amx.pins) fun pin => (pin, amx)) := by
  unfold Driver.resolvePin
  cases hread : c.readStringIndex "brunosmmm,pins" j with
  | error e => exact (ofNodePut i).bind (Tracks.throw _)
  | ok pname =>
    have hsame : aximuxFindPinByName amx pname = findPin amx.pins pname := rfl
    simp only [ok_bind, hsame]
    cases hfind : findPin amx.pins pname with
    | ok pin => exact Tracks.pure pin
    | error e =>
      have he : e = .EINVAL := by
        unfold findPin at hfind
        split at hfind
        · cases hfind
        · cases hfind
          rfl
      rw [he]
      exact (devErr _).bind ((ofNodePut i).bind (Tracks.throw _))

theorem resolvePins (i : ℕ) (c : OfNode) (js : List ℕ) :
    Builds (js.mapM (Driver.resolvePin amx i c)) amx (described
      (js.mapM fun j => c.readStringIndex "brunosmmm,pins" j >>= findPin amx.pins)
      fun pins => (pins, amx)) := by
  induction js with
  | nil => exact Tracks.pure []
  | cons j js ih =>
    have hj : Builds (Driver.resolvePin amx i c j) amx _ := resolvePin i c j
    simp only [List.mapM_cons]
    cases hr : c.readStringIndex "brunosmmm,pins" j >>= findPin amx.pins with
    | error e =>
      rw [hr] at hj
      exact hj.bind_error
    | ok pin =>
      rw [hr] at hj
      refine hj.bind ?_
      rw [ok_bind]
      cases hmore : js.mapM fun j => c.readStringIndex "brunosmmm,pins" j >>= findPin amx.pins with
      | error e =>
        rw [hmore] at ih
        exact ih.bind_error
      | ok pins =>
        rw [hmore] at ih
        exact ih.bind (Tracks.pure _)

/-- The loop body on a child that lists pins. -/
theorem extraGroup_group (i : ℕ) {c : OfNode} (hsize : groupSize c ≠ 0)
    {g : List (String × List (String × List ℕ))} (hfuncs : amx.functions = g.map functionOf) :
    Builds (extraGroup i c ()) amx (described (extraEntry amx.pins c) fun grp => ((),
      { amx with
        groups := amx.groups ++ [grp.group]
        functions := (Grouping.addAll g [grp.row]).map functionOf })) := by
  obtain ⟨n, hn, hcount⟩ := countStrings_of_groupSize hsize
  unfold extraGroup extraEntry groupPins
  rw [hcount, hn]
  refine needAlloc 2 (getAmx.bind ?_)
  have hpins : Builds ((List.range (n + 1)).mapM (Driver.resolvePin amx i c)) amx _ :=
    resolvePins i c (List.range (n + 1))
  cases hmembers : (List.range (n + 1)).mapM fun j =>
      c.readStringIndex "brunosmmm,pins" j >>= findPin amx.pins with
  | error e =>
    rw [hmembers] at hpins
    simp only [error_bind]
    exact hpins.bind_error
  | ok members =>
    rw [hmembers] at hpins
    have hlen : n + 1 = members.length := by
      simpa using (mapM_eq_ok.mp hmembers).length_eq
    simp only [ok_bind, described_ok]
    refine hpins.bind (tryAlloc 1 ((updateAmx _).bind ?_) fun s => ⟨rfl, rfl⟩)
    have hfuncs' : ({ amx with groups := amx.groups ++ [⟨c.name, members, n + 1⟩] } :
        Aximux).functions = g.map functionOf := hfuncs
    have hadd := addFunction (groupFunction c) c.name (groupMux c (n + 1)) hfuncs'
    rw [groupMux_length] at hadd
    simp only [ExtraGroup.group, ExtraGroup.row, ← hlen]
    exact hadd

theorem extraGroups (np : List OfNode) (i : ℕ) (amx : Aximux)
    (g : List (String × List (String × List ℕ))) (hfuncs : amx.functions = g.map functionOf) :
    Builds (forEachAvailableChild extraGroup i np ()) amx (described (extraTable amx.pins np)
      fun extra => ((),
        { amx with
          groups := amx.groups ++ extra.map ExtraGroup.group
          functions := (Grouping.addAll g (extra.map ExtraGroup.row)).map functionOf })) := by
  induction np generalizing i amx g with
  | nil =>
    simp only [extraTable, groupNodes, List.filter_nil, List.mapM_nil, pure_eq_ok, described_ok,
      List.map_nil, List.append_nil, Grouping.addAll_nil, ← hfuncs]
    exact Tracks.pure ()
  | cons c np ih =>
    by_cases hgroup : isGroupNode c
    · have hnodes : groupNodes (c :: np) = c :: groupNodes np := List.filter_cons_of_pos hgroup
      obtain ⟨ha, hsize⟩ : c.available = true ∧ groupSize c ≠ 0 := by
        simpa [isGroupNode] using hgroup
      have hbody := extraGroup_group i hsize hfuncs
      rw [extraTable, hnodes, List.mapM_cons]
      cases hentry : extraEntry amx.pins c with
      | error e =>
        rw [hentry] at hbody
        exact visit_error ha hbody
      | ok grp =>
        rw [hentry] at hbody
        have hrest := ih (i + 1)
          { amx with
            groups := amx.groups ++ [grp.group]
            functions := (Grouping.addAll g [grp.row]).map functionOf } _ rfl
        refine visit ha hbody ?_
        rw [ok_bind]
        cases hmore : extraTable amx.pins np with
        | error e =>
          rw [hmore] at hrest
          rw [← extraTable, hmore]
          exact hrest
        | ok extra =>
          rw [hmore] at hrest
          rw [← extraTable, hmore]
          rw [described_ok, List.append_assoc, ← Grouping.addAll_append] at hrest
          exact hrest
    · have hnodes : groupNodes (c :: np) = groupNodes np := List.filter_cons_of_neg hgroup
      rw [extraTable, hnodes, ← extraTable]
      have hrest := ih (i + 1) amx g hfuncs
      refine pass (fun ha => ?_) hrest
      exact extraGroup_of_groupSize (by simpa [isGroupNode, ha] using hgroup) i

/-! ### The whole build -/

/-- The table code returns the described tables, or the described error, unless an allocation
request is declined. -/
theorem probeTables (info : BitVec 32) (np : List OfNode) :
    Builds (aximuxProbeTables info np) Aximux.zeroed
      (described (tables info np) fun amx => ((), amx)) := by
  unfold aximuxProbeTables tables
  have hparse := parsePins info np
  by_cases hinfo : infoPins info = 0 ∨ infoPins info > aximuxMaxPins
  · simp only [hinfo, if_true, described_error] at hparse ⊢
    exact hparse.bind_error
  simp only [hinfo, if_false] at hparse ⊢
  cases hpins : pinTable (infoPins info) np with
  | error e =>
    rw [hpins] at hparse
    exact hparse.bind_error
  | ok pins =>
    rw [hpins] at hparse
    rw [ok_bind]
    have hcounts : ∀ pin ∈ pins, pin.nfuncs = pin.funcNames.length := fun _ hpin =>
      (pinTable_entry hpins hpin).2.2
    refine hparse.bind ((buildDefaultGroups _ rfl hcounts rfl).bind ?_)
    have hextra := extraGroups np 0 _ _ (show (⟨pins.length, altLimit (infoAlts info), pins,
      pins.map AximuxPin.desc, pins.map AximuxPin.group,
      functionTable (pins.flatMap AximuxPin.rows)⟩ : Aximux).functions = _ from rfl)
    cases htable : extraTable pins np with
    | error e =>
      rw [htable] at hextra
      exact hextra
    | ok extra =>
      rw [htable, described_ok, ← Grouping.addAll_append] at hextra
      exact hextra

end Builds

/-- The driver builds the tables `amx` from the tree, for some behaviour of the allocator. -/
def Accepts (info : BitVec 32) (np : List OfNode) (amx : Aximux) : Prop :=
  ∃ served k, aximuxProbeTables info np (Kernel.initial served) = (.ok (), k) ∧ k.amx = amx

/-- What a successful table build leaves is what the description says. -/
theorem tables_of_probe {info : BitVec 32} {np : List OfNode} {served : ℕ → Bool} {k : Kernel}
    (h : aximuxProbeTables info np (Kernel.initial served) = (.ok (), k)) :
    tables info np = .ok k.amx := by
  obtain ⟨amx, htables, heq⟩ := described_eq_ok.mp ((Builds.probeTables info np).of_ok h)
  cases heq
  exact htables

/-- With every allocation served, described tables are built. -/
theorem probe_of_tables {info : BitVec 32} {np : List OfNode} (served : ℕ → Bool) {amx : Aximux}
    (hserved : ∀ i, served i = true) (h : tables info np = .ok amx) :
    ∃ k, aximuxProbeTables info np (Kernel.initial served) = (.ok (), k) ∧ k.amx = amx := by
  have hb := Builds.probeTables info np
  rw [h] at hb
  exact Tracks.ok_of_eq (s := Kernel.initial served) hb (not_declined hserved)

theorem accepts_iff {info : BitVec 32} {np : List OfNode} {amx : Aximux} :
    Accepts info np amx ↔ tables info np = .ok amx := by
  constructor
  · rintro ⟨served, k, h, rfl⟩
    exact tables_of_probe h
  · intro h
    obtain ⟨k, hk, hamx⟩ := probe_of_tables (fun _ => true) (fun _ => rfl) h
    exact ⟨_, k, hk, hamx⟩

theorem sampleTables_accepted : Accepts 0x408 sampleNodes sampleTables :=
  accepts_iff.mpr tables_sample

end AximuxSystem.Driver
