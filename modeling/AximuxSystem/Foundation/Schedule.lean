import AximuxSystem.Foundation.RegisterProgram

/-!
# Scheduled register programs

Any number of parties share a register file and take turns in any order, one
access at a turn. A party whose registers no other party touches is not
affected by the others: at every moment what it still has to do leads where it
would have led had the party run alone.
-/

namespace Registers

variable {A : Type} {n : ℕ} {ε α : Type}

namespace Prog

/-- The program touches registers of `S` only. -/
abbrev Within (S : A → Prop) (p : Prog A n ε α) : Prop :=
  p.Safe S (fun _ _ => True) fun _ => True

/-- What a program that has ended ended with. -/
def outcome? : Prog A n ε α → Option (Except ε α)
  | .ret a => some (.ok a)
  | .stop e => some (.error e)
  | .read _ _ => none
  | .write _ _ _ => none

/-- The program with its error as a result. -/
def attempt : Prog A n ε α → Prog A n ε (Except ε α)
  | .ret a => .ret (.ok a)
  | .stop e => .ret (.error e)
  | .read r next => .read r fun v => (next v).attempt
  | .write r v next => .write r v next.attempt

/-- Several programs as one, whatever each of them ends with. -/
def sequence : List (Prog A n ε α) → Prog A n ε (List (Except ε α))
  | [] => .ret []
  | p :: ps => p.attempt >>= fun r => sequence ps >>= fun rs => .ret (r :: rs)

theorem Within.attempt {S : A → Prop} {p : Prog A n ε α} (h : p.Within S) :
    p.attempt.Within S := by
  induction p with
  | ret a => trivial
  | stop e => trivial
  | read r next ih => exact ⟨h.1, fun v hv => ih v (h.2 v hv)⟩
  | write r v next ih => exact ⟨h.1, trivial, ih h.2.2⟩

theorem Within.sequence {S : A → Prop} {ps : List (Prog A n ε α)} (h : ∀ p ∈ ps, p.Within S) :
    (Prog.sequence ps).Within S := by
  induction ps with
  | nil => trivial
  | cons p ps ih =>
    rw [List.forall_mem_cons] at h
    exact h.1.attempt.bind fun r => (ih h.2).bind fun rs => trivial

variable [DecidableEq A]

theorem run_attempt (p : Prog A n ε α) (rf : RegFile A n) :
    p.attempt.run rf = (.ok (p.run rf).1, (p.run rf).2) := by
  induction p generalizing rf with
  | ret a => rfl
  | stop e => rfl
  | read r next ih => exact ih (rf r) rf
  | write r v next ih => exact ih (Function.update rf r v)

theorem run_sequence (ps : List (Prog A n ε α)) (rf : RegFile A n) :
    (sequence ps).run rf = (.ok (runAll ps rf).1, (runAll ps rf).2) := by
  induction ps generalizing rf with
  | nil => rfl
  | cons p ps ih =>
    rw [sequence, run_bind_of_ok (run_attempt p rf), run_bind_of_ok (ih (p.run rf).2), runAll_cons]
    rfl

/-- What a program does depends on its own registers only. -/
theorem Within.run_congr {S : A → Prop} {p : Prog A n ε α} (h : p.Within S) {rf rf' : RegFile A n}
    (heq : ∀ r, S r → rf r = rf' r) :
    (p.run rf).1 = (p.run rf').1 ∧ ∀ r, S r → (p.run rf).2 r = (p.run rf').2 r := by
  have hagree : RegFile.device.Agree RegFile.device S (fun _ _ => True)
      fun rf rf' : RegFile A n => ∀ r, S r → rf r = rf' r := by
    refine ⟨fun s t r hst hr => hst r hr, fun _ _ _ _ _ => trivial,
      fun s t r v hst _ _ r' hr' => ?_⟩
    change Function.update s r v r' = Function.update t r v r'
    rw [Function.update_apply, Function.update_apply, hst r' hr']
  exact hagree.exec h heq

theorem Within.run_frame {S : A → Prop} {p : Prog A n ε α} (h : p.Within S) {r : A} (hr : ¬ S r)
    (rf : RegFile A n) : (p.run rf).2 r = rf r := by
  induction p generalizing rf with
  | ret a => rfl
  | stop e => rfl
  | read r' next ih => exact ih (rf r') (h.2 (rf r') trivial) rf
  | write r' v next ih =>
    have hne : r ≠ r' := fun heq => hr (heq ▸ h.1)
    rw [run_write, ih h.2.2, Function.update_of_ne hne]

/-! ### One access -/

/-- One access; a program that has ended stays as it is. -/
def step : Prog A n ε α → RegFile A n → Prog A n ε α × RegFile A n
  | .ret a, rf => (.ret a, rf)
  | .stop e, rf => (.stop e, rf)
  | .read r next, rf => (next (rf r), rf)
  | .write r v next, rf => (next, Function.update rf r v)

theorem run_step (p : Prog A n ε α) (rf : RegFile A n) :
    (p.step rf).1.run (p.step rf).2 = p.run rf := by
  cases p <;> rfl

theorem Within.step {S : A → Prop} {p : Prog A n ε α} (h : p.Within S) (rf : RegFile A n) :
    (p.step rf).1.Within S := by
  cases p with
  | ret a => trivial
  | stop e => trivial
  | read r next => exact h.2 (rf r) trivial
  | write r v next => exact h.2.2

theorem Within.step_frame {S : A → Prop} {p : Prog A n ε α} (h : p.Within S) {r : A} (hr : ¬ S r)
    (rf : RegFile A n) : (p.step rf).2 r = rf r := by
  cases p with
  | ret a => rfl
  | stop e => rfl
  | read r' next => rfl
  | write r' v next =>
    have hne : r ≠ r' := fun heq => hr (heq ▸ h.1)
    exact Function.update_of_ne hne _ _

theorem run_of_outcome {p : Prog A n ε α} {q : Except ε α} (h : p.outcome? = some q)
    (rf : RegFile A n) : p.run rf = (q, rf) := by
  cases p with
  | ret a =>
    cases h
    rfl
  | stop e =>
    cases h
    rfl
  | read r next => cases h
  | write r v next => cases h

/-- The program ends after at most `k` accesses, whatever it reads. -/
def EndsWithin : ℕ → Prog A n ε α → Prop
  | _, .ret _ => True
  | _, .stop _ => True
  | 0, _ => False
  | k + 1, .read _ next => ∀ v, EndsWithin k (next v)
  | k + 1, .write _ _ next => EndsWithin k next

omit [DecidableEq A]

theorem EndsWithin.mono {k k' : ℕ} {p : Prog A n ε α} (h : p.EndsWithin k) (hle : k ≤ k') :
    p.EndsWithin k' := by
  induction p generalizing k k' with
  | ret a => cases k' <;> trivial
  | stop e => cases k' <;> trivial
  | read r next ih =>
    cases k with
    | zero => exact h.elim
    | succ k =>
      obtain ⟨k', rfl⟩ := Nat.exists_eq_succ_of_ne_zero (by omega : k' ≠ 0)
      exact fun v => ih v (h v) (by omega)
  | write r v next ih =>
    cases k with
    | zero => exact h.elim
    | succ k =>
      obtain ⟨k', rfl⟩ := Nat.exists_eq_succ_of_ne_zero (by omega : k' ≠ 0)
      exact ih h (by omega)

/-- A program cannot go on for ever: there are finitely many words to read. -/
theorem exists_endsWithin (p : Prog A n ε α) : ∃ k, p.EndsWithin k := by
  induction p with
  | ret a => exact ⟨0, trivial⟩
  | stop e => exact ⟨0, trivial⟩
  | read r next ih =>
    choose k hk using ih
    refine ⟨(Finset.range (2 ^ n)).sup (fun i => k (BitVec.ofNat n i)) + 1, fun v => ?_⟩
    have hle := Finset.le_sup (f := fun i => k (BitVec.ofNat n i)) (Finset.mem_range.mpr v.isLt)
    rw [BitVec.ofNat_toNat, BitVec.setWidth_eq] at hle
    exact (hk v).mono hle
  | write r v next ih =>
    obtain ⟨k, hk⟩ := ih
    exact ⟨k + 1, hk⟩

end Prog

/-! ### Turns -/

variable [DecidableEq A] {ι : Type} [DecidableEq ι]

/-- The parties take the turns of a schedule. -/
def turns : List ι → (ι → Prog A n ε α) → RegFile A n → (ι → Prog A n ε α) × RegFile A n
  | [], progs, rf => (progs, rf)
  | s :: sched, progs, rf =>
    turns sched (Function.update progs s ((progs s).step rf).1) ((progs s).step rf).2

/-- A party ends once it has had enough turns. -/
theorem turns_ends {sched : List ι} {progs : ι → Prog A n ε α} {rf : RegFile A n} {s : ι} {k : ℕ}
    (h : (progs s).EndsWithin k) (hk : k ≤ sched.count s) :
    ∃ q, ((turns sched progs rf).1 s).outcome? = some q := by
  induction sched generalizing progs rf k with
  | nil =>
    have hzero : k = 0 := by simpa using hk
    subst k
    change ∃ q, (progs s).outcome? = some q
    cases hp : progs s with
    | ret a => exact ⟨_, rfl⟩
    | stop e => exact ⟨_, rfl⟩
    | read r next =>
      rw [hp] at h
      exact h.elim
    | write r v next =>
      rw [hp] at h
      exact h.elim
  | cons s' sched ih =>
    by_cases hs : s' = s
    · subst s'
      rw [List.count_cons_self] at hk
      refine ih (k := k - 1) ?_ (by omega)
      rw [Function.update_self]
      cases hp : progs s with
      | ret a => exact Prog.EndsWithin.mono (k := 0) trivial (Nat.zero_le _)
      | stop e => exact Prog.EndsWithin.mono (k := 0) trivial (Nat.zero_le _)
      | read r next =>
        rw [hp] at h
        cases k with
        | zero => exact h.elim
        | succ k => exact h (rf r)
      | write r v next =>
        rw [hp] at h
        cases k with
        | zero => exact h.elim
        | succ k => exact h
    · rw [List.count_cons_of_ne hs] at hk
      refine ih (k := k) ?_ hk
      rw [Function.update_of_ne (Ne.symm hs)]
      exact h

/-- Each party has registers of its own, and its program keeps to them. -/
structure Separated (S : ι → A → Prop) (progs : ι → Prog A n ε α) : Prop where
  within : ∀ s, (progs s).Within (S s)
  disjoint : ∀ s s' r, s ≠ s' → S s r → ¬ S s' r

variable {S : ι → A → Prop} {progs : ι → Prog A n ε α}

theorem Separated.step (h : Separated S progs) (s : ι) (rf : RegFile A n) :
    Separated S (Function.update progs s ((progs s).step rf).1) := by
  refine ⟨fun s' => ?_, h.disjoint⟩
  by_cases hs : s' = s
  · subst s'
    rw [Function.update_self]
    exact (h.within s).step rf
  · rw [Function.update_of_ne hs]
    exact h.within s'

/-- A turn of any party leaves what a party has still to do leading to the same end. -/
theorem Separated.run_step (h : Separated S progs) (s s' : ι) (rf : RegFile A n) :
    ((Function.update progs s ((progs s).step rf).1 s').run ((progs s).step rf).2).1 =
      ((progs s').run rf).1 ∧
    ∀ r, S s' r → ((Function.update progs s ((progs s).step rf).1 s').run
      ((progs s).step rf).2).2 r = ((progs s').run rf).2 r := by
  by_cases hs : s' = s
  · subst s'
    rw [Function.update_self, Prog.run_step]
    exact ⟨rfl, fun _ _ => rfl⟩
  · rw [Function.update_of_ne hs]
    exact (h.within s').run_congr fun r hr =>
      (h.within s).step_frame (h.disjoint s' s r hs hr) rf

/-- The same after any number of turns. -/
theorem Separated.turns (h : Separated S progs) (sched : List ι) (rf : RegFile A n) (s : ι) :
    (((turns sched progs rf).1 s).run (turns sched progs rf).2).1 = ((progs s).run rf).1 ∧
    ∀ r, S s r → (((Registers.turns sched progs rf).1 s).run
      (Registers.turns sched progs rf).2).2 r = ((progs s).run rf).2 r := by
  induction sched generalizing progs rf with
  | nil => exact ⟨rfl, fun _ _ => rfl⟩
  | cons s' sched ih =>
    obtain ⟨hres, hregs⟩ := h.run_step s' s rf
    obtain ⟨hres', hregs'⟩ := ih (h.step s' rf) ((progs s').step rf).2
    exact ⟨hres'.trans hres, fun r hr => (hregs' r hr).trans (hregs r hr)⟩

/-- A party that has ended did what it would have done alone. -/
theorem Separated.outcome (h : Separated S progs) {sched : List ι} {rf : RegFile A n} {s : ι}
    {q : Except ε α} (hq : ((Registers.turns sched progs rf).1 s).outcome? = some q) :
    q = ((progs s).run rf).1 ∧
      ∀ r, S s r → (Registers.turns sched progs rf).2 r = ((progs s).run rf).2 r := by
  obtain ⟨hres, hregs⟩ := h.turns sched rf s
  rw [Prog.run_of_outcome hq] at hres hregs
  exact ⟨hres, hregs⟩

/-- Registers that belong to no party keep their words at every moment. -/
theorem Separated.turns_frame (h : Separated S progs) {r : A} (hr : ∀ s, ¬ S s r) (sched : List ι)
    (rf : RegFile A n) : (Registers.turns sched progs rf).2 r = rf r := by
  induction sched generalizing progs rf with
  | nil => rfl
  | cons s sched ih =>
    exact (ih (h.step s rf) _).trans ((h.within s).step_frame (hr s) rf)

end Registers
