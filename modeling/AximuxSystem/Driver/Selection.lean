import AximuxSystem.Driver.TableInvariant

/-!
# Source selection on the register file

A sequence of source writes leaves in SRC of each pin the last value given to
it and no other trace. A call of `aximux_set_mux` that is refused midway has
already performed the writes before the first refused pin, so it leaves the
registers alone only if these writes are without effect.
-/

namespace AximuxSystem.Driver

open Registers Fallible

/-- The SRC field of a register word. -/
def srcField (word : BitVec 32) : ℕ := (word &&& aximuxSrcMask).toNat

theorem getLsbD_srcMask (i : ℕ) : aximuxSrcMask.getLsbD i = decide (i < 4) := by
  by_cases hi : i < 32
  · revert i
    decide
  · rw [BitVec.getLsbD_of_ge _ i (by omega)]
    exact (decide_eq_false (by omega)).symm

theorem testBit_srcField (word : BitVec 32) (i : ℕ) :
    (srcField word).testBit i = (decide (i < 4) && word.getLsbD i) := by
  rw [srcField, BitVec.testBit_toNat, BitVec.getLsbD_and, getLsbD_srcMask, Bool.and_comm]

theorem srcWrite_covers {p q : ℕ} (hp : p < 2 ^ 30) (hq : q < 2 ^ 30) (s i : ℕ) :
    (srcWrite q s).covers (aximuxReg p) i = (decide (q = p) && decide (i < 4)) := by
  rw [FieldWrite.covers, srcWrite, getLsbD_srcMask]
  congr 1
  exact decide_eq_decide.mpr ⟨aximuxReg_inj hq hp, fun h => h ▸ rfl⟩

variable {entries : List (ℕ × ℕ)} {p i : ℕ}

/-- The writes for a list of (pin, source) pairs. -/
def srcWrites (entries : List (ℕ × ℕ)) : List (FieldWrite ℕ 32) :=
  entries.map fun e => srcWrite e.1 e.2

theorem lastBit_srcWrites (hpins : ∀ e ∈ entries, e.1 < 2 ^ 30) (hp : p < 2 ^ 30) (hi : i < 4) :
    lastBit (srcWrites entries) (aximuxReg p) i =
      (Grouping.lastOf p entries).map fun s => s.testBit i := by
  rw [srcWrites, lastBit_map (k := p)]
  · congr 1
    funext s
    rw [srcWrite, BitVec.getLsbD_ofNat]
    exact Bool.and_eq_right_iff_imp.mpr fun _ => decide_eq_true (by omega)
  · intro e he
    rw [srcWrite_covers hp (hpins e he), decide_eq_true hi, Bool.and_true]

theorem lastBit_srcWrites_high (entries : List (ℕ × ℕ)) (r : ℕ) (hi : 4 ≤ i) :
    lastBit (srcWrites entries) r i = none := by
  rw [lastBit_eq_none_iff]
  intro w hw
  obtain ⟨e, -, rfl⟩ := List.mem_map.mp hw
  rw [FieldWrite.covers, srcWrite, getLsbD_srcMask, decide_eq_false (by omega : ¬ i < 4),
    Bool.and_false]

/-- Bits 31..4 keep their values. -/
theorem getLsbD_srcWrites_high (entries : List (ℕ × ℕ)) (rf : RegFile ℕ 32) (r : ℕ) (hi : 4 ≤ i) :
    (applyAll (srcWrites entries) rf r).getLsbD i = (rf r).getLsbD i := by
  rw [getLsbD_applyAll, lastBit_srcWrites_high entries r hi, Option.getD_none]

/-- Writes that end the four bits of SRC like the last source given to the pin leave this source
in the field, or its old value. -/
theorem srcField_applyAll {ws : List (FieldWrite ℕ 32)} {r : ℕ}
    (hws : ∀ i < 4, lastBit ws r i = (Grouping.lastOf p entries).map fun s => s.testBit i)
    (hsrc : ∀ e ∈ entries, e.2 < 16) (rf : RegFile ℕ 32) :
    srcField (applyAll ws rf r) = (Grouping.lastOf p entries).getD (srcField (rf r)) := by
  apply Nat.eq_of_testBit_eq
  intro i
  rw [testBit_srcField]
  by_cases hi : i < 4
  · rw [decide_eq_true hi, Bool.true_and, getLsbD_applyAll, hws i hi]
    cases Grouping.lastOf p entries with
    | none => rw [Option.map_none, Option.getD_none, Option.getD_none, testBit_srcField,
        decide_eq_true hi, Bool.true_and]
    | some s => rfl
  · rw [decide_eq_false hi, Bool.false_and]
    cases hlast : Grouping.lastOf p entries with
    | none => rw [Option.getD_none, testBit_srcField, decide_eq_false hi, Bool.false_and]
    | some s =>
      have hs := hsrc _ (Grouping.mem_of_lastOf hlast)
      rw [Option.getD_some, Nat.testBit_lt_two_pow]
      calc s < 2 ^ 4 := hs
        _ ≤ 2 ^ i := Nat.pow_le_pow_right (by decide) (by omega)

theorem srcField_srcWrites (hpins : ∀ e ∈ entries, e.1 < 2 ^ 30) (hp : p < 2 ^ 30)
    (hsrc : ∀ e ∈ entries, e.2 < 16) (rf : RegFile ℕ 32) :
    srcField (applyAll (srcWrites entries) rf (aximuxReg p)) =
      (Grouping.lastOf p entries).getD (srcField (rf (aximuxReg p))) :=
  srcField_applyAll (fun _ hi => lastBit_srcWrites hpins hp hi) hsrc rf

/-- A register no pair addresses is untouched. -/
theorem applyAll_srcWrites_of_not_mem {r : ℕ} (h : ∀ e ∈ entries, aximuxReg e.1 ≠ r)
    (rf : RegFile ℕ 32) : applyAll (srcWrites entries) rf r = rf r := by
  apply applyAll_of_not_addressed
  intro w hw
  obtain ⟨e, he, rfl⟩ := List.mem_map.mp hw
  exact h e he

/-- The writes are without effect exactly if every pin already holds its last source. -/
theorem applyAll_srcWrites_eq_self_iff (hpins : ∀ e ∈ entries, e.1 < 2 ^ 30)
    (hsrc : ∀ e ∈ entries, e.2 < 16) (rf : RegFile ℕ 32) :
    applyAll (srcWrites entries) rf = rf ↔
      ∀ p s, Grouping.lastOf p entries = some s → srcField (rf (aximuxReg p)) = s := by
  constructor
  · intro h p s hlast
    have hp := hpins _ (Grouping.mem_of_lastOf hlast)
    have hfield := srcField_srcWrites hpins hp hsrc rf
    rwa [h, hlast, Option.getD_some] at hfield
  · intro h
    funext r
    by_cases hr : ∀ e ∈ entries, aximuxReg e.1 ≠ r
    · exact applyAll_srcWrites_of_not_mem hr rf
    · obtain ⟨e, he, rfl⟩ : ∃ e ∈ entries, aximuxReg e.1 = r := by simpa using hr
      apply BitVec.eq_of_getLsbD_eq
      intro i _
      by_cases hi : i < 4
      · rw [getLsbD_applyAll, lastBit_srcWrites hpins (hpins e he) hi]
        cases hlast : Grouping.lastOf e.1 entries with
        | none => rfl
        | some s =>
          rw [Option.map_some, Option.getD_some, ← h e.1 s hlast, testBit_srcField,
            decide_eq_true hi, Bool.true_and]
      · exact getLsbD_srcWrites_high entries rf _ (by omega)

/-! ### Running a selection -/

/-- The pairs `aximux_set_mux` programs before it returns. -/
def programmed (nalts : ℕ) (entries : List (ℕ × ℕ)) : List (ℕ × ℕ) :=
  entries.takeWhile (entryOk nalts)

theorem entryWrites_eq (nalts : ℕ) (entries : List (ℕ × ℕ)) :
    entryWrites nalts entries = srcWrites (programmed nalts entries) := rfl

theorem run_aximuxSetMux {amx : Aximux} (h : amx.Consistent) {f g : ℕ} (hf : f < amx.nfunctions)
    (hg : g < amx.ngroups) (rf : RegFile ℕ 32) :
    (aximuxSetMux amx f g).run rf =
      match selectedEntries amx f g with
      | none => (.error (.errno .EINVAL), rf)
      | some entries =>
        (if entries.all (entryOk amx.nalts) then .ok () else .error (.errno .EINVAL),
          applyAll (srcWrites (programmed amx.nalts entries)) rf) := by
  rw [aximuxSetMux_eq h hf hg]
  cases selectedEntries amx f g with
  | none => rfl
  | some entries =>
    simp only [Prog.run_script, entryWrites_eq, entryEnd]
    split_ifs <;> rfl

theorem entryOk_bounds {nalts : ℕ} (hn : nalts ≤ aximuxMaxAlts) {e : ℕ × ℕ}
    (h : entryOk nalts e = true) : e.1 < 2 ^ 30 ∧ e.2 < 16 := by
  rw [entryOk, Bool.and_eq_true, decide_eq_true_eq, decide_eq_true_eq] at h
  unfold aximuxMaxPins aximuxMaxAlts at *
  omega

theorem programmed_bounds {nalts : ℕ} (hn : nalts ≤ aximuxMaxAlts) (entries : List (ℕ × ℕ)) :
    (∀ e ∈ programmed nalts entries, e.1 < 2 ^ 30) ∧ ∀ e ∈ programmed nalts entries, e.2 < 16 :=
  ⟨fun e he => (entryOk_bounds hn (List.all_eq_true.mp List.all_takeWhile e he)).1,
    fun e he => (entryOk_bounds hn (List.all_eq_true.mp List.all_takeWhile e he)).2⟩

/-- Either no entry of the selected row is refused, or every pin programmed before the first
refused entry already holds in SRC the last value it would be given. -/
def SelectionHarmless (amx : Aximux) (f g : ℕ) (rf : RegFile ℕ 32) : Prop :=
  ∀ entries, selectedEntries amx f g = some entries →
    (∀ e ∈ entries, entryOk amx.nalts e = true) ∨
    ∀ p s, Grouping.lastOf p (programmed amx.nalts entries) = some s →
      srcField (rf (aximuxReg p)) = s

/-- A failed selection changes nothing exactly if it is harmless. -/
theorem failed_selection_unchanged_iff {info : BitVec 32} {np : List OfNode} {amx : Aximux}
    (h : Accepts info np amx) {f g : ℕ} (hf : f < amx.nfunctions) (hg : g < amx.ngroups)
    (rf : RegFile ℕ 32) :
    (∀ e rf', (aximuxSetMux amx f g).run rf = (.error e, rf') → rf' = rf) ↔
      SelectionHarmless amx f g rf := by
  have hinv := tables_invariant (accepts_iff.mp h)
  rw [run_aximuxSetMux hinv.consistent hf hg, SelectionHarmless]
  cases selectedEntries amx f g with
  | none => simp +contextual
  | some entries =>
    obtain ⟨hpins, hsrc⟩ := programmed_bounds hinv.nalts_le entries
    simp only [Option.some.injEq, forall_eq']
    rw [← applyAll_srcWrites_eq_self_iff hpins hsrc, ← List.all_eq_true]
    by_cases hall : entries.all (entryOk amx.nalts)
    · simp [hall]
    · simp [hall]

/-- A group whose second source value is out of range. -/
def badGroupNodes : List OfNode :=
  [.ofProps "pin@0" true [("reg", .cells [0])],
   .ofProps "pin@1" true [("reg", .cells [1])],
   .ofProps "lcd" true
    [("brunosmmm,pins", .strings ["pin0", "pin1"]), ("brunosmmm,mux", .cells [1, 200])]]

def badGroupTables : Aximux where
  npins := 2
  nalts := 4
  pins := [⟨0, "pin0", 0, []⟩, ⟨1, "pin1", 0, []⟩]
  pindescs := [⟨0, "pin0"⟩, ⟨1, "pin1"⟩]
  groups := [⟨"pin0", [0], 1⟩, ⟨"pin1", [1], 1⟩, ⟨"lcd", [0, 1], 2⟩]
  functions := [⟨"lcd", ["lcd"], [[1, 200]], [2]⟩]

theorem badGroupTables_accepted : Accepts 0x408 badGroupNodes badGroupTables :=
  accepts_iff.mpr (by decide +kernel)

/-- Selecting the group programs pin 0 and then fails. -/
theorem failed_selection_changes : ¬ ∀ info np amx, Accepts info np amx →
    ∀ f g, f < amx.nfunctions → g < amx.ngroups → ∀ (rf : RegFile ℕ 32) e rf',
      (aximuxSetMux amx f g).run rf = (.error e, rf') → rf' = rf := by
  intro h
  have hrun := h _ _ _ badGroupTables_accepted 0 2 (by decide) (by decide) (fun _ => 0)
    (.errno .EINVAL) _ rfl
  exact absurd (congrFun hrun 0) (by decide)

theorem failed_selection_unchanged_iff_sample :
    ¬ SelectionHarmless badGroupTables 0 2 (fun _ => 0) := by
  rw [← failed_selection_unchanged_iff badGroupTables_accepted (by decide) (by decide)]
  intro h
  exact absurd (congrFun (h (.errno .EINVAL) _ rfl) 0) (by decide)

end AximuxSystem.Driver
