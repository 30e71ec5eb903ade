import AximuxSystem.Foundation.Grouping

/-!
# Masked writes to a bank of registers

A register file is a total map from register addresses to words. A masked write
replaces the bits of one register that its mask selects and keeps the others.
The state after a list of masked writes is described bit by bit: a bit holds
the value of the last write that covers it, and its old value if none does.
-/

namespace Registers

variable {A : Type} {n : ℕ}

/-- Contents of a bank of `n`-bit registers addressed by `A`. -/
abbrev RegFile (A : Type) (n : ℕ) := A → BitVec n

/-- The bits of `mask` in register `reg` become those of `val`. -/
structure FieldWrite (A : Type) (n : ℕ) where
  reg : A
  mask : BitVec n
  val : BitVec n
  deriving DecidableEq, Repr

namespace FieldWrite

/-- The new word of the register, computed from its old word. -/
def merge (w : FieldWrite A n) (old : BitVec n) : BitVec n :=
  (old &&& ~~~w.mask) ||| (w.val &&& w.mask)

theorem getLsbD_merge (w : FieldWrite A n) (old : BitVec n) (i : ℕ) :
    (w.merge old).getLsbD i =
      if w.mask.getLsbD i then w.val.getLsbD i else old.getLsbD i := by
  simp only [merge, BitVec.getLsbD_or, BitVec.getLsbD_and, BitVec.getLsbD_not]
  by_cases hi : i < n
  · cases w.mask.getLsbD i <;> simp [hi]
  · simp [BitVec.getLsbD_of_ge _ i (Nat.le_of_not_lt hi)]

variable [DecidableEq A]

def apply (w : FieldWrite A n) (rf : RegFile A n) : RegFile A n :=
  Function.update rf w.reg (w.merge (rf w.reg))

/-- The write `w` determines bit `i` of register `r`. -/
def covers (w : FieldWrite A n) (r : A) (i : ℕ) : Bool :=
  decide (w.reg = r) && w.mask.getLsbD i

@[simp] theorem covers_eq_true (w : FieldWrite A n) (r : A) (i : ℕ) :
    w.covers r i = true ↔ w.reg = r ∧ w.mask.getLsbD i = true := by
  simp [covers]

theorem getLsbD_apply (w : FieldWrite A n) (rf : RegFile A n) (r : A) (i : ℕ) :
    (w.apply rf r).getLsbD i =
      if w.covers r i then w.val.getLsbD i else (rf r).getLsbD i := by
  by_cases hr : w.reg = r
  · subst r
    simp [apply, getLsbD_merge, covers]
  · simp [apply, covers, hr, Function.update_of_ne (Ne.symm hr)]

end FieldWrite

variable [DecidableEq A]

/-- Perform the writes from left to right. -/
def applyAll (ws : List (FieldWrite A n)) (rf : RegFile A n) : RegFile A n :=
  ws.foldl (fun rf w => w.apply rf) rf

@[simp] theorem applyAll_nil (rf : RegFile A n) : applyAll [] rf = rf := rfl

@[simp] theorem applyAll_cons (w : FieldWrite A n) (ws : List (FieldWrite A n))
    (rf : RegFile A n) : applyAll (w :: ws) rf = applyAll ws (w.apply rf) := rfl

theorem applyAll_append (ws₁ ws₂ : List (FieldWrite A n)) (rf : RegFile A n) :
    applyAll (ws₁ ++ ws₂) rf = applyAll ws₂ (applyAll ws₁ rf) := by
  simp [applyAll]

/-- The value given to bit `i` of register `r` by the last write covering it. -/
def lastBit (ws : List (FieldWrite A n)) (r : A) (i : ℕ) : Option Bool :=
  ((ws.filter (·.covers r i)).map (·.val.getLsbD i)).getLast?

@[simp] theorem lastBit_nil (r : A) (i : ℕ) : lastBit ([] : List (FieldWrite A n)) r i = none := rfl

theorem lastBit_append (ws₁ ws₂ : List (FieldWrite A n)) (r : A) (i : ℕ) :
    lastBit (ws₁ ++ ws₂) r i = (lastBit ws₂ r i).or (lastBit ws₁ r i) := by
  simp [lastBit, List.getLast?_append]

theorem lastBit_singleton (w : FieldWrite A n) (r : A) (i : ℕ) :
    lastBit [w] r i = if w.covers r i then some (w.val.getLsbD i) else none := by
  by_cases h : w.covers r i <;> simp [lastBit, h]

theorem lastBit_cons (w : FieldWrite A n) (ws : List (FieldWrite A n)) (r : A) (i : ℕ) :
    lastBit (w :: ws) r i =
      (lastBit ws r i).or (if w.covers r i then some (w.val.getLsbD i) else none) := by
  rw [← List.singleton_append, lastBit_append, lastBit_singleton]

theorem lastBit_eq_none_iff {ws : List (FieldWrite A n)} {r : A} {i : ℕ} :
    lastBit ws r i = none ↔ ∀ w ∈ ws, w.covers r i = false := by
  simp [lastBit, FieldWrite.covers]

/-- Where every write that covers a bit belongs to one key, the last write is the last value of
that key. -/
theorem lastBit_map {κ ν : Type} [DecidableEq κ] {w : κ × ν → FieldWrite A n} {xs : List (κ × ν)}
    {k : κ} {r : A} {i : ℕ} (h : ∀ x ∈ xs, (w x).covers r i = decide (x.1 = k)) :
    lastBit (xs.map w) r i = (Grouping.lastOf k xs).map fun v => (w (k, v)).val.getLsbD i := by
  induction xs using List.reverseRecOn with
  | nil => rfl
  | append_singleton xs x ih =>
    rw [List.forall_mem_append] at h
    rw [List.map_append, lastBit_append, Grouping.lastOf_append, ih h.1, List.map_singleton,
      lastBit_singleton, Grouping.lastOf_singleton, h.2 x List.mem_cons_self]
    by_cases hk : x.1 = k
    · subst k
      simp
    · simp [hk]

/-- Bit-level meaning of a list of masked writes. -/
theorem getLsbD_applyAll (ws : List (FieldWrite A n)) (rf : RegFile A n) (r : A) (i : ℕ) :
    (applyAll ws rf r).getLsbD i = (lastBit ws r i).getD ((rf r).getLsbD i) := by
  induction ws generalizing rf with
  | nil => rfl
  | cons w ws ih =>
    rw [applyAll_cons, ih, FieldWrite.getLsbD_apply, lastBit_cons]
    cases lastBit ws r i <;> cases w.covers r i <;> simp

/-- Two lists of writes that end every bit with the same value agree as updates. -/
theorem applyAll_congr {ws₁ ws₂ : List (FieldWrite A n)}
    (h : ∀ r i, lastBit ws₁ r i = lastBit ws₂ r i) (rf : RegFile A n) :
    applyAll ws₁ rf = applyAll ws₂ rf := by
  funext r
  apply BitVec.eq_of_getLsbD_eq
  intro i hi
  rw [getLsbD_applyAll, getLsbD_applyAll, h]

/-- A bit no write covers keeps its value. -/
theorem getLsbD_applyAll_of_not_covered {ws : List (FieldWrite A n)} {r : A} {i : ℕ}
    (h : ∀ w ∈ ws, w.covers r i = false) (rf : RegFile A n) :
    (applyAll ws rf r).getLsbD i = (rf r).getLsbD i := by
  rw [getLsbD_applyAll, lastBit_eq_none_iff.mpr h, Option.getD_none]

/-- A register no write addresses keeps its word. -/
theorem applyAll_of_not_addressed {ws : List (FieldWrite A n)} {r : A}
    (h : ∀ w ∈ ws, w.reg ≠ r) (rf : RegFile A n) : applyAll ws rf r = rf r := by
  apply BitVec.eq_of_getLsbD_eq
  intro i hi
  apply getLsbD_applyAll_of_not_covered
  intro w hw
  simp [FieldWrite.covers, h w hw]

/-- Writes whose bits are all written again are lost. -/
theorem applyAll_absorb {ws vs : List (FieldWrite A n)}
    (h : ∀ r i, lastBit vs r i = none → lastBit ws r i = none) (rf : RegFile A n) :
    applyAll (ws ++ vs) rf = applyAll vs rf := by
  refine applyAll_congr (fun r i => ?_) rf
  rw [lastBit_append]
  cases hlast : lastBit vs r i with
  | none => rw [h r i hlast, Option.or_none]
  | some b => rfl

end Registers
