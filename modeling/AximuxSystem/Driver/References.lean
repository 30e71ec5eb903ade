import AximuxSystem.Driver.TableBuild

/-!
# References on child nodes

The loop over the children holds a reference on the current child. A body that
returns an error leaves the reference held unless it drops it itself, which in
`driver/aximux.c` only the `err` label does. So a failed call leaks exactly one
reference, or none.
-/

namespace AximuxSystem.Driver

open Fallible

/-- `n` requests from number `start` on are served. -/
def ServedFrom (served : ℕ → Bool) (start n : ℕ) : Prop := ∀ j < n, served (start + j) = true

theorem servedFrom_add {served : ℕ → Bool} {start m n : ℕ} :
    ServedFrom served start (m + n) ↔
      ServedFrom served start m ∧ ServedFrom served (start + m) n := by
  constructor
  · intro h
    refine ⟨fun j hj => h j (by omega), fun j hj => ?_⟩
    rw [Nat.add_assoc]
    exact h (m + j) (by omega)
  · rintro ⟨hm, hn⟩ j hj
    by_cases hjm : j < m
    · exact hm j hjm
    · have hrest := hn (j - m) (by omega)
      rwa [show start + m + (j - m) = start + j by omega] at hrest

theorem servedFrom_zero (served : ℕ → Bool) (start : ℕ) : ServedFrom served start 0 := nofun

theorem all_range'_iff {served : ℕ → Bool} {start n : ℕ} :
    (List.range' start n).all served = true ↔ ServedFrom served start n := by
  rw [List.all_eq_true]
  constructor
  · intro h j hj
    exact h _ (List.mem_range'_1.mpr ⟨by omega, by omega⟩)
  · intro h x hx
    obtain ⟨hle, hlt⟩ := List.mem_range'_1.mp hx
    have hx := h (x - start) (by omega)
    rwa [show start + (x - start) = x by omega] at hx

/-! ### Probe steps -/

/-- The state `n` requests later, with another driver structure. -/
def Kernel.after (k : Kernel) (n : ℕ) (amx : Aximux) : Kernel :=
  { k with allocs := k.allocs + n, amx := amx }

def Kernel.hold (k : Kernel) (i : ℕ) : Kernel :=
  { k with refs := Function.update k.refs i (k.refs i + 1) }

def Kernel.release (k : Kernel) (i : ℕ) : Kernel :=
  { k with refs := Function.update k.refs i (k.refs i - 1) }

theorem hold_release_refs {k k' : Kernel} {i : ℕ} (h : k'.refs = (k.hold i).refs) :
    (k'.release i).refs = k.refs := by
  simp [Kernel.release, h, Kernel.hold]

theorem hold_refs_ne (k : Kernel) (i : ℕ) : (k.hold i).refs ≠ k.refs := by
  intro h
  have hi := congrFun h i
  simp [Kernel.hold] at hi

variable {k k' : Kernel} {n : ℕ}

theorem kalloc_apply (n : ℕ) (k : Kernel) :
    kalloc n k = (.ok ((List.range' k.allocs n).all k.served), k.after n k.amx) := rfl

theorem needAlloc_of_served (h : ServedFrom k.served k.allocs n) :
    needAlloc n k = (.ok (), k.after n k.amx) := by
  rw [needAlloc, Comp.bind_of_ok (kalloc_apply n k), all_range'_iff.mpr h]
  rfl

theorem needAlloc_of_not_served (h : ¬ ServedFrom k.served k.allocs n) :
    needAlloc n k = (.error (.errno .ENOMEM), k.after n k.amx) := by
  have hall : (List.range' k.allocs n).all k.served = false := by
    rw [← Bool.not_eq_true, all_range'_iff]
    exact h
  rw [needAlloc, Comp.bind_of_ok (kalloc_apply n k), hall]
  rfl

theorem needAlloc_endsWell (n : ℕ) (k : Kernel) :
    (needAlloc n).EndsWell k (ServedFrom k.served k.allocs n)
      fun _ k' => k' = k.after n k.amx :=
  ⟨fun h => ⟨_, _, needAlloc_of_served h, rfl⟩, fun h => ⟨_, _, needAlloc_of_not_served h⟩⟩

theorem storeAt_endsWell {α : Type} (get : Aximux → List α) (set : Aximux → List α → Aximux)
    {i : ℕ} (f : α → α) (h : i < (get k.amx).length) :
    (storeAt get set i f).EndsWell k True
      fun _ k' => k' = k.after 0 (set k.amx ((get k.amx).modify i f)) := by
  have hrun : storeAt get set i f k =
      (.ok (), k.after 0 (set k.amx ((get k.amx).modify i f))) := by
    rw [storeAt, Comp.bind_of_ok (show getAmx k = (.ok k.amx, k) from rfl), if_pos h]
    rfl
  exact .of_ok hrun rfl

theorem needAlloc_frame (n : ℕ) : Comp.Frame Kernel.refs (needAlloc n) := by
  intro k
  by_cases h : ServedFrom k.served k.allocs n
  · rw [needAlloc_of_served h]
    rfl
  · rw [needAlloc_of_not_served h]
    rfl

theorem updateAmx_frame (f : Aximux → Aximux) : Comp.Frame Kernel.refs (updateAmx f) :=
  .modify fun _ => rfl

theorem devErr_frame (text : String) : Comp.Frame Kernel.refs (devErr text) :=
  .modify fun _ => rfl

theorem getAmx_frame : Comp.Frame Kernel.refs getAmx := fun _ => rfl

theorem storeAt_frame {α : Type} (get : Aximux → List α) (set : Aximux → List α → Aximux)
    (i : ℕ) (f : α → α) : Comp.Frame Kernel.refs (storeAt get set i f) := by
  refine getAmx_frame.bind fun amx => ?_
  split_ifs
  · exact updateAmx_frame _
  · exact .throw _

/-! ### The loop over the children -/

section Loop

variable {β : Type} {body : ℕ → OfNode → β → Probe β} {i : ℕ} {child : OfNode}
  {rest : List OfNode} {s s' : β}

theorem forEach_skip (h : child.available = false) :
    forEachAvailableChild body i (child :: rest) s =
      forEachAvailableChild body (i + 1) rest s := by
  rw [forEachAvailableChild, if_neg (by simp [h])]

theorem forEach_visit (h : child.available = true) (hb : body i child s (k.hold i) = (.ok s', k')) :
    forEachAvailableChild body i (child :: rest) s k =
      forEachAvailableChild body (i + 1) rest s' (k'.release i) := by
  rw [forEachAvailableChild, if_pos h,
    Comp.bind_of_ok (show ofNodeGet i k = (.ok (), k.hold i) from rfl), Comp.bind_of_ok hb]
  rfl

theorem forEach_visit_error (h : child.available = true) {e : Stop}
    (hb : body i child s (k.hold i) = (.error e, k')) :
    forEachAvailableChild body i (child :: rest) s k = (.error e, k') := by
  rw [forEachAvailableChild, if_pos h,
    Comp.bind_of_ok (show ofNodeGet i k = (.ok (), k.hold i) from rfl), Comp.bind_of_error hb]

/-- With a body that does not touch the references, the loop is balanced exactly if it runs to
its end. -/
theorem forEach_refs_iff (hbody : ∀ i child s, Comp.Frame Kernel.refs (body i child s))
    (i : ℕ) (np : List OfNode) (s : β) (k : Kernel) :
    (forEachAvailableChild body i np s k).2.refs = k.refs ↔
      ∃ s' k', forEachAvailableChild body i np s k = (.ok s', k') := by
  induction np generalizing i s k with
  | nil => exact iff_of_true rfl ⟨s, k, rfl⟩
  | cons child rest ih =>
    by_cases ha : child.available
    · have hrefs := hbody i child s (k.hold i)
      cases hb : body i child s (k.hold i) with
      | mk q k' =>
        rw [hb] at hrefs
        cases q with
        | ok s' =>
          rw [forEach_visit ha hb, ← ih, hold_release_refs hrefs]
        | error e =>
          rw [forEach_visit_error ha hb]
          refine iff_of_false ?_ (by simp)
          rw [hrefs]
          exact hold_refs_ne k i
    · rw [forEach_skip (by simpa using ha)]
      exact ih (i + 1) s k

end Loop

/-! ### Filling the pin table -/

theorem after_after (k : Kernel) (m n : ℕ) (amx amx' : Aximux) :
    (k.after m amx).after n amx' = k.after (m + n) amx' := by
  simp [Kernel.after, Nat.add_assoc]

/-- `n` requests later the pin arrays have the sizes they had. -/
def SizesAfter (k : Kernel) (n : ℕ) (k' : Kernel) : Prop :=
  ∃ amx : Aximux, k' = k.after n amx ∧ amx.pins.length = k.amx.pins.length ∧
    amx.pindescs.length = k.amx.pindescs.length

theorem SizesAfter.refl (k : Kernel) : SizesAfter k 0 k := ⟨k.amx, rfl, rfl, rfl⟩

theorem SizesAfter.trans {k₁ k₂ : Kernel} {m : ℕ} (h₁ : SizesAfter k m k₁)
    (h₂ : SizesAfter k₁ n k₂) : SizesAfter k (m + n) k₂ := by
  obtain ⟨amx₁, rfl, hpins₁, hdescs₁⟩ := h₁
  obtain ⟨amx₂, rfl, hpins₂, hdescs₂⟩ := h₂
  exact ⟨amx₂, after_after k m n amx₁ amx₂, hpins₂.trans hpins₁, hdescs₂.trans hdescs₁⟩

theorem SizesAfter.served {k₁ : Kernel} {m : ℕ} (h : SizesAfter k m k₁) :
    ServedFrom k₁.served k₁.allocs n ↔ ServedFrom k.served (k.allocs + m) n := by
  obtain ⟨amx, rfl, -, -⟩ := h
  rfl

theorem SizesAfter.lengths (h : SizesAfter k n k') :
    k'.amx.pins.length = k.amx.pins.length ∧ k'.amx.pindescs.length = k.amx.pindescs.length := by
  obtain ⟨amx, rfl, hpins, hdescs⟩ := h
  exact ⟨hpins, hdescs⟩

theorem needAlloc_sizes (n : ℕ) (k : Kernel) :
    (needAlloc n).EndsWell k (ServedFrom k.served k.allocs n) fun _ k' => SizesAfter k n k' :=
  ⟨fun h => ⟨_, _, needAlloc_of_served h, k.amx, rfl, rfl, rfl⟩,
    fun h => ⟨_, _, needAlloc_of_not_served h⟩⟩

theorem storePin_sizes {idx : ℕ} (h : idx < k.amx.pins.length) (f : AximuxPin → AximuxPin) :
    (storePin idx f).EndsWell k True fun _ k' => SizesAfter k 0 k' := by
  refine (storeAt_endsWell Aximux.pins _ f h).mono ?_
  rintro _ _ rfl
  exact ⟨_, rfl, List.length_modify _ _ _, rfl⟩

theorem storePindesc_sizes {idx : ℕ} (h : idx < k.amx.pindescs.length) (desc : PinDesc) :
    (storePindesc idx desc).EndsWell k True fun _ k' => SizesAfter k 0 k' := by
  refine (storeAt_endsWell Aximux.pindescs _ _ h).mono ?_
  rintro _ _ rfl
  exact ⟨_, rfl, rfl, List.length_modify _ _ _⟩

/-- Requests made for the name list of a pin child. -/
def namesRequests (child : OfNode) : ℕ := if (namesProp child).isSome then 1 else 0

/-- Requests made for a pin child: its name, and its name list. -/
def pinRequests (child : OfNode) : ℕ := 1 + namesRequests child

theorem readNames_sizes {idx : ℕ} (h : idx < k.amx.pins.length) (child : OfNode) :
    (readNames child idx).EndsWell k ((∃ names, nodeNames child = .ok names) ∧
      ServedFrom k.served k.allocs (namesRequests child))
      fun _ k' => SizesAfter k (namesRequests child) k' := by
  unfold readNames nodeNames namesRequests
  cases namesProp child with
  | none =>
    have hdone : Comp.EndsWell (pure () : Probe Unit) k True fun _ k' => SizesAfter k 0 k' :=
      .pure (SizesAfter.refl k)
    exact hdone.congr (iff_of_true trivial ⟨⟨[], rfl⟩, servedFrom_zero _ _⟩)
  | some prop =>
    cases hn : child.countStrings prop with
    | error e =>
      simp only [hn]
      exact (Comp.EndsWell.throw _).congr (by simp)
    | ok n =>
      simp only [hn, ok_bind, Option.isSome_some, if_true]
      cases hv : child.readStringArray prop n with
      | error e =>
        simp only
        refine ((needAlloc_sizes 1 k).bind fun _ k₁ _ => Comp.EndsWell.throw _).congr ?_
        simp
      | ok names =>
        simp only
        refine ((needAlloc_sizes 1 k).bind fun _ k₁ hk₁ =>
          (storePin_sizes (hk₁.lengths.1 ▸ h) _).mono fun _ _ => hk₁.trans).congr ?_
        simp

/-- The stores of `fillPin` behind the request for the name. -/
theorem fillStores_sizes {idx reg : ℕ} {child : OfNode} {k₂ : Kernel} (hk₂ : SizesAfter k 1 k₂)
    (hpins : idx < k.amx.pins.length) (hdescs : idx < k.amx.pindescs.length) :
    Comp.EndsWell (do
        storePin idx fun pin => { pin with name := pinName reg }
        readNames child idx
        storePindesc idx ⟨reg, pinName reg⟩
        pure (idx + 1)) k₂ ((∃ names, nodeNames child = .ok names) ∧
          ServedFrom k.served (k.allocs + 1) (namesRequests child))
        fun idx' k' => idx' = idx + 1 ∧ SizesAfter k (pinRequests child) k' := by
  refine ((storePin_sizes (hk₂.lengths.1 ▸ hpins) _).bind fun _ k₃ hk₃ => ?_).congr
    (iff_of_eq (true_and _))
  have hk₃ := hk₂.trans hk₃
  have hnames := (readNames_sizes (hk₃.lengths.1 ▸ hpins) child).congr
    (and_congr_right' hk₃.served)
  refine (hnames.bind fun _ k₄ hk₄ => ?_).congr (iff_of_eq (and_true _))
  have hk₄ := hk₃.trans hk₄
  refine ((storePindesc_sizes (hk₄.lengths.2 ▸ hdescs) _).bind fun _ k₅ hk₅ => ?_).congr
    and_self_iff
  exact .pure ⟨rfl, hk₄.trans hk₅⟩

/-- The second pass on one pin child. -/
theorem fillPin_sizes {hwPins i idx : ℕ} {child : OfNode} (hpin : isPinNode child = true)
    (hpins : idx < k.amx.pins.length) (hdescs : idx < k.amx.pindescs.length) :
    (fillPin hwPins i child idx).EndsWell k ((∃ pin, pinEntry hwPins child = .ok pin) ∧
      ServedFrom k.served k.allocs (pinRequests child))
      fun idx' k' => idx' = idx + 1 ∧ SizesAfter k (pinRequests child) k' := by
  obtain ⟨-, hf, reg, hr⟩ := isPinNode_eq_true.mp hpin
  unfold fillPin pinEntry
  simp only [hf, Bool.false_eq_true, if_false, hr, ok_bind]
  by_cases hreg : reg ≥ hwPins
  · simp only [hreg, if_true]
    exact (Comp.EndsWell.throw _).congr (by simp)
  simp only [hreg, if_false]
  refine ((storePin_sizes hpins _).bind fun _ k₁ hk₁ =>
    ((needAlloc_sizes 1 k₁).congr hk₁.served).bind fun _ k₂ hk₂ =>
      fillStores_sizes (hk₁.trans hk₂) hpins hdescs).congr ?_
  have hentry : (∃ pin, (nodeNames child >>= fun names =>
      Except.ok (AximuxPin.mk reg (pinName reg) names.length names)) = .ok pin) ↔
      ∃ names, nodeNames child = .ok names := by
    cases nodeNames child <;> simp
  rw [hentry, pinRequests, servedFrom_add, Nat.add_zero, true_and]
  exact and_left_comm

theorem release_after_hold (k : Kernel) (i n : ℕ) (amx : Aximux) :
    ((k.hold i).after n amx).release i = k.after n amx := by
  simp [Kernel.release, Kernel.hold, Kernel.after]

/-- A child the body passes over leaves the state as it is. -/
theorem forEach_pass {β : Type} {body : ℕ → OfNode → β → Probe β} {i : ℕ} {child : OfNode}
    {rest : List OfNode} {s : β} (h : child.available = true → body i child s = pure s) :
    forEachAvailableChild body i (child :: rest) s k =
      forEachAvailableChild body (i + 1) rest s k := by
  by_cases ha : child.available
  · have hbody : body i child s (k.hold i) = (.ok s, k.hold i) := by rw [h ha]; rfl
    rw [forEach_visit ha hbody]
    congr 1
    exact release_after_hold k i 0 k.amx
  · rw [forEach_skip (by simpa using ha)]

/-- The second pass ends well exactly if every pin child can be read and every request is
served. -/
theorem fillPins_ok_iff (hwPins : ℕ) (np : List OfNode) (i idx : ℕ) (k : Kernel)
    (hpins : idx + (pinNodes np).length ≤ k.amx.pins.length)
    (hdescs : idx + (pinNodes np).length ≤ k.amx.pindescs.length) :
    (∃ s' k', forEachAvailableChild (fillPin hwPins) i np idx k = (.ok s', k')) ↔
      (∀ child ∈ pinNodes np, ∃ pin, pinEntry hwPins child = .ok pin) ∧
        ServedFrom k.served k.allocs ((pinNodes np).map pinRequests).sum := by
  induction np generalizing i idx k with
  | nil => exact iff_of_true ⟨idx, k, rfl⟩ ⟨nofun, servedFrom_zero _ _⟩
  | cons child np ih =>
    by_cases hpin : isPinNode child
    · have hnodes : pinNodes (child :: np) = child :: pinNodes np := List.filter_cons_of_pos hpin
      rw [hnodes, List.length_cons] at hpins hdescs
      rw [hnodes, List.forall_mem_cons, List.map_cons, List.sum_cons, servedFrom_add]
      have ha := (isPinNode_eq_true.mp hpin).1
      have hbody : (fillPin hwPins i child idx).EndsWell (k.hold i) _ _ := fillPin_sizes hpin
        (show idx < k.amx.pins.length by omega) (show idx < k.amx.pindescs.length by omega)
      by_cases hchild : (∃ pin, pinEntry hwPins child = .ok pin) ∧
          ServedFrom k.served k.allocs (pinRequests child)
      · obtain ⟨idx', k', hrun, rfl, amx, rfl, hlen, hlen'⟩ := hbody.1 hchild
        have hlen : amx.pins.length = k.amx.pins.length := hlen
        have hlen' : amx.pindescs.length = k.amx.pindescs.length := hlen'
        rw [forEach_visit ha hrun, release_after_hold, ih]
        · rw [and_iff_right hchild.1, and_iff_right hchild.2]
          rfl
        · rw [Kernel.after, hlen]
          omega
        · rw [Kernel.after, hlen']
          omega
      · obtain ⟨e, k', hrun⟩ := hbody.2 hchild
        rw [forEach_visit_error ha hrun]
        refine iff_of_false (by simp) fun hall => hchild ⟨hall.1.1, hall.2.1⟩
    · have hnodes : pinNodes (child :: np) = pinNodes np := List.filter_cons_of_neg hpin
      rw [hnodes] at hpins hdescs ⊢
      rw [forEach_pass (fillPin_of_not_pin hpin hwPins i idx)]
      exact ih (i + 1) idx k hpins hdescs

/-- The first pass counts the pin children and does nothing else. -/
theorem countPins_run (np : List OfNode) (i : ℕ) (k : Kernel) :
    forEachAvailableChild countPin i np () k =
      (.ok (), k.after 0 { k.amx with npins := k.amx.npins + (pinNodes np).length }) := by
  induction np generalizing i k with
  | nil => rfl
  | cons child np ih =>
    by_cases hpin : isPinNode child
    · have hnodes : pinNodes (child :: np) = child :: pinNodes np := List.filter_cons_of_pos hpin
      obtain ⟨ha, hf, reg, hr⟩ := isPinNode_eq_true.mp hpin
      have hbody : countPin i child () (k.hold i) =
          (.ok (), (k.hold i).after 0 { k.amx with npins := k.amx.npins + 1 }) := by
        rw [countPin, if_neg (by simp [hf]), hr]
        rfl
      rw [forEach_visit ha hbody, release_after_hold, ih, hnodes, after_after, List.length_cons,
        Nat.add_comm (pinNodes np).length 1, ← Nat.add_assoc]
      rfl
    · have hnodes : pinNodes (child :: np) = pinNodes np := List.filter_cons_of_neg hpin
      rw [hnodes, forEach_pass (countPin_of_not_pin hpin i)]
      exact ih (i + 1) k

theorem readNames_frame (child : OfNode) (idx : ℕ) :
    Comp.Frame Kernel.refs (readNames child idx) := by
  unfold readNames
  cases namesProp child with
  | none => exact .pure ()
  | some prop =>
    cases hn : child.countStrings prop with
    | error e =>
      simp only [hn]
      exact .throw _
    | ok n =>
      simp only [hn]
      refine (needAlloc_frame 1).bind fun _ => ?_
      cases child.readStringArray prop n with
      | error e => exact .throw _
      | ok names => exact storeAt_frame _ _ _ _

/-- No path of the body drops the reference on its child. -/
theorem fillPin_frame (hwPins i : ℕ) (child : OfNode) (idx : ℕ) :
    Comp.Frame Kernel.refs (fillPin hwPins i child idx) := by
  unfold fillPin
  split_ifs with hf
  · exact .pure idx
  · cases child.readU32 "reg" with
    | error e => exact .pure idx
    | ok reg =>
      simp only
      split_ifs with hreg
      · exact .throw _
      · exact (storeAt_frame _ _ _ _).bind fun _ => (needAlloc_frame 1).bind fun _ =>
          (storeAt_frame _ _ _ _).bind fun _ => (readNames_frame child idx).bind fun _ =>
            (storeAt_frame _ _ _ _).bind fun _ => .pure _

theorem allocPins_frame (npins : ℕ) : Comp.Frame Kernel.refs (allocPins npins) :=
  (needAlloc_frame 2).bind fun _ => updateAmx_frame _

theorem defaultPin_frame (idx : ℕ) : Comp.Frame Kernel.refs (defaultPin idx) :=
  (needAlloc_frame 1).bind fun _ => (storeAt_frame _ _ _ _).bind fun _ => storeAt_frame _ _ _ _

theorem not_exists_error_iff {hwPins : ℕ} {nodes : List OfNode} :
    (¬ ∃ child ∈ nodes, ∃ e, pinEntry hwPins child = .error e) ↔
      ∀ child ∈ nodes, ∃ pin, pinEntry hwPins child = .ok pin := by
  push Not
  refine forall₂_congr fun child _ => ?_
  cases pinEntry hwPins child <;> simp

/-- The second pass is stopped by a child that cannot be read or a request that is declined. -/
def FillStops (hwPins : ℕ) (np : List OfNode) (served : ℕ → Bool) (start : ℕ) : Prop :=
  (∃ child ∈ pinNodes np, ∃ e, pinEntry hwPins child = .error e) ∨
    ¬ ServedFrom served start ((pinNodes np).map pinRequests).sum

/-- The part of `aximux_parse_pins` behind the count. -/
theorem fillPass_refs_iff (hwPins : ℕ) (np : List OfNode) (k : Kernel) :
    ((allocPins (pinNodes np).length >>= fun _ =>
      forEachAvailableChild (fillPin hwPins) 0 np 0) k).2.refs = k.refs ↔
      ¬ (ServedFrom k.served k.allocs 2 ∧ FillStops hwPins np k.served (k.allocs + 2)) := by
  by_cases hserved : ServedFrom k.served k.allocs 2
  · have halloc : allocPins (pinNodes np).length k = (.ok (), k.after 2 { k.amx with
        pins := List.replicate (pinNodes np).length ⟨0, "", 0, []⟩
        pindescs := List.replicate (pinNodes np).length ⟨0, ""⟩ }) := by
      rw [allocPins, Comp.bind_of_ok (needAlloc_of_served hserved)]
      rfl
    rw [Comp.bind_of_ok halloc, and_iff_right hserved, FillStops, not_or, not_exists_error_iff,
      not_not]
    refine (forEach_refs_iff (fillPin_frame hwPins) 0 np 0 _).trans ?_
    refine fillPins_ok_iff hwPins np 0 0 _ ?_ ?_
    · simp [Kernel.after]
    · simp [Kernel.after]
  · have halloc : allocPins (pinNodes np).length k =
        (.error (.errno .ENOMEM), k.after 2 k.amx) := by
      rw [allocPins, Comp.bind_of_error (needAlloc_of_not_served hserved)]
    rw [Comp.bind_of_error halloc]
    exact iff_of_true rfl fun h => hserved h.1

/-- A valid MUXINFO allows the pin children, the two arrays are allocated, and the second pass is
stopped. -/
def PinsLeak (info : BitVec 32) (np : List OfNode) (served : ℕ → Bool) (start : ℕ) : Prop :=
  0 < infoPins info ∧ infoPins info ≤ aximuxMaxPins ∧ (pinNodes np).length ≤ infoPins info ∧
  ServedFrom served start 2 ∧ FillStops (infoPins info) np served (start + 2)

/-- `aximux_parse_pins` on a zeroed structure leaves the references as they were exactly if its
second pass is not reached or runs to its end. -/
theorem parsePins_refs_iff (info : BitVec 32) (np : List OfNode) {k : Kernel}
    (hk : k.amx = Aximux.zeroed) :
    (aximuxParsePins info np k).2.refs = k.refs ↔ ¬ PinsLeak info np k.served k.allocs := by
  unfold aximuxParsePins PinsLeak
  by_cases hinfo : infoPins info = 0 ∨ infoPins info > aximuxMaxPins
  · simp only [hinfo, if_true]
    exact iff_of_true (((devErr_frame _).bind fun _ => .throw _) k) fun h => by omega
  have hvalid : 0 < infoPins info ∧ infoPins info ≤ aximuxMaxPins := by omega
  simp only [hinfo, if_false, hvalid, true_and]
  rw [Comp.bind_of_ok (show updateAmx _ k = (.ok (), k.after 0 _) from rfl),
    Comp.bind_of_ok (countPins_run np 0 _), after_after]
  generalize hcounted : k.after (0 + 0) _ = counted
  obtain ⟨hcount, hrefs, hserved, hallocs⟩ : counted.amx.npins = (pinNodes np).length ∧
      counted.refs = k.refs ∧ counted.served = k.served ∧ counted.allocs = k.allocs := by
    subst hcounted
    refine ⟨?_, rfl, rfl, rfl⟩
    change k.amx.npins + _ = _
    rw [hk]
    exact Nat.zero_add _
  rw [Comp.bind_of_ok (show getAmx counted = (.ok counted.amx, counted) from rfl), hcount,
    ← hrefs, ← hserved, ← hallocs]
  by_cases hnone : (pinNodes np).length = 0
  · simp only [hnone, if_true]
    refine iff_of_true (((updateAmx_frame _).bind fun _ => (allocPins_frame _).bind fun _ =>
      (Comp.Frame.forM fun idx _ => defaultPin_frame idx).bind fun _ => .pure _) counted) ?_
    rintro ⟨-, -, ⟨child, hchild, -⟩ | hstop⟩
    · rw [List.length_eq_zero_iff.mp hnone] at hchild
      cases hchild
    · rw [List.length_eq_zero_iff.mp hnone] at hstop
      exact hstop (servedFrom_zero _ _)
  · simp only [hnone, if_false]
    by_cases hmany : (pinNodes np).length > infoPins info
    · simp only [hmany, if_true]
      exact iff_of_true (((devErr_frame _).bind fun _ => .throw _) counted)
        fun h => absurd hmany (not_lt.mpr h.1)
    · simp only [hmany, if_false, not_lt.mp hmany, true_and]
      exact fillPass_refs_iff (infoPins info) np counted

end AximuxSystem.Driver
