import AximuxSystem.Driver.Calls
import AximuxSystem.Driver.Routing

/-!
# Runs of selections by name

Whoever uses the controller names a function and a group; both names are looked
up and a selection is made. Where every name routes its group, a run of such
selections leaves each pin with the source listed for it last.
-/

namespace AximuxSystem.Driver

open Registers

/-- A function and a group by their names, and the sources meant for the pins. -/
structure Selection where
  function : String
  group : String
  targets : List (ℕ × ℕ)
  deriving DecidableEq, Repr

/-- The call made for a selection: both names are looked up in the tables. -/
def Selection.call? (amx : Aximux) (sel : Selection) : Option Call := do
  let f ← functionSelector amx sel.function
  let g ← groupSelector amx sel.group
  return .setMux f g

/-- The calls made for selections, if all names are found. -/
def selectionCalls (amx : Aximux) : List Selection → Option (List Call)
  | [] => some []
  | sel :: sels => do
    let c ← sel.call? amx
    let calls ← selectionCalls amx sels
    return c :: calls

/-- The tables route the group of the selection, whose pins have registers of their own. -/
structure Selection.Served (amx : Aximux) (sel : Selection) : Prop where
  routes : Routes amx sel.function sel.group sel.targets
  small : ∀ e ∈ sel.targets, e.1 < 2 ^ 30

/-- The registers `rf'` are `rf` with the sources last listed in `targets`. -/
structure Reselected (targets : List (ℕ × ℕ)) (rf rf' : RegFile ℕ 32) : Prop where
  source : ∀ p < 2 ^ 30, srcField (rf' (aximuxReg p)) =
    (Grouping.lastOf p targets).getD (srcField (rf (aximuxReg p)))
  others : ∀ r i, 4 ≤ i → (rf' r).getLsbD i = (rf r).getLsbD i

theorem Reselected.refl (rf : RegFile ℕ 32) : Reselected [] rf rf :=
  ⟨fun _ _ => rfl, fun _ _ _ => rfl⟩

theorem Reselected.trans {targets targets' : List (ℕ × ℕ)} {rf rf' rf'' : RegFile ℕ 32}
    (h : Reselected targets rf rf') (h' : Reselected targets' rf' rf'') :
    Reselected (targets ++ targets') rf rf'' where
  source p hp := by
    rw [h'.source p hp, h.source p hp, Grouping.lastOf_append]
    cases Grouping.lastOf p targets' <;> rfl
  others r i hi := (h'.others r i hi).trans (h.others r i hi)

variable {amx : Aximux} {sel : Selection} {sels : List Selection}

/-- A selection ends in one call, which succeeds. -/
theorem Selection.Served.call (h : sel.Served amx) : ∃ f g, sel.call? amx = some (.setMux f g) ∧
    (Call.setMux f g).Valid amx ∧
    ∀ rf : RegFile ℕ 32, ∃ rf', ((Call.setMux f g).prog amx).run rf = (.ok (), rf') ∧
      Reselected sel.targets rf rf' := by
  obtain ⟨f, g, hf, hg, hrun⟩ := h.routes
  obtain ⟨hlt, -⟩ := List.findIdx?_eq_some_iff_findIdx_eq.mp hf
  obtain ⟨hlt', -⟩ := List.findIdx?_eq_some_iff_findIdx_eq.mp hg
  refine ⟨f, g, by rw [Selection.call?, hf, hg]; rfl, ⟨hlt, hlt'⟩, fun rf => ?_⟩
  obtain ⟨rf', hok, hsrc, hbits, hother⟩ := hrun rf
  refine ⟨rf', hok, fun p hp => ?_, hbits⟩
  cases hlast : Grouping.lastOf p sel.targets with
  | some a => exact hsrc p a hlast
  | none =>
    rw [hother (aximuxReg p) fun e he heq => ?_, Option.getD_none]
    exact Grouping.lastOf_eq_none.mp hlast e he (aximuxReg_inj (h.small e he) hp heq)

/-- Selections one after the other: all names are found, all calls succeed, and the last source
listed for a pin stays. -/
theorem selectionCalls_run (h : ∀ sel ∈ sels, sel.Served amx) :
    ∃ calls, selectionCalls amx sels = some calls ∧
      (∀ c ∈ calls, c.Valid amx ∧ ∃ f g, c = .setMux f g) ∧
      ∀ rf : RegFile ℕ 32, Succeeds amx calls rf ∧
        Reselected (sels.flatMap Selection.targets) rf (runCalls amx calls rf).2 := by
  induction sels with
  | nil =>
    refine ⟨[], rfl, by simp, fun rf => ⟨?_, Reselected.refl rf⟩⟩
    intro r hr
    cases hr
  | cons sel sels ih =>
    rw [List.forall_mem_cons] at h
    obtain ⟨f, g, hcall, hvalid, hrun⟩ := h.1.call
    obtain ⟨calls, hcalls, hall, hrest⟩ := ih h.2
    refine ⟨.setMux f g :: calls, by rw [selectionCalls, hcall, hcalls]; rfl,
      List.forall_mem_cons.mpr ⟨⟨hvalid, f, g, rfl⟩, hall⟩, fun rf => ?_⟩
    obtain ⟨rf', hok, hsel⟩ := hrun rf
    obtain ⟨hsucc, hsels⟩ := hrest rf'
    have hcons : runCalls amx (.setMux f g :: calls) rf =
        (.ok () :: (runCalls amx calls rf').1, (runCalls amx calls rf').2) := by
      rw [runCalls, List.map_cons, Prog.runAll_cons, hok]
      rfl
    rw [Succeeds, hcons]
    exact ⟨List.forall_mem_cons.mpr ⟨rfl, hsucc⟩, hsel.trans hsels⟩

end AximuxSystem.Driver
