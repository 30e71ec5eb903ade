import AximuxSystem.Foundation.Schedule

/-!
# One writer and its observers

A program that only reads does not disturb anybody. When it shares the registers
with one party that writes, each of its reads shows the registers at some moment
of the writer's own run, and later reads show later moments. A writer that
performs field writes one after the other is, at every moment, at a prefix of
them.
-/

namespace Registers

variable {A : Type} {n : ℕ} {ε α β : Type}

namespace Prog

/-! ### Programs that only read -/

def ReadOnly : Prog A n ε α → Prop
  | .ret _ => True
  | .stop _ => True
  | .read _ next => ∀ v, (next v).ReadOnly
  | .write _ _ _ => False

theorem ReadOnly.bind {p : Prog A n ε α} {f : α → Prog A n ε β} (hp : p.ReadOnly)
    (hf : ∀ a, (f a).ReadOnly) : (p >>= f).ReadOnly := by
  induction p with
  | ret a => exact hf a
  | stop e => trivial
  | read r next ih => exact fun v => ih v (hp v)
  | write r v next ih => exact hp.elim

theorem ReadOnly.foldlM {γ : Type} {f : β → γ → Prog A n ε β} (hf : ∀ b x, (f b x).ReadOnly)
    (xs : List γ) (b : β) : (xs.foldlM f b).ReadOnly := by
  induction xs generalizing b with
  | nil => trivial
  | cons x xs ih => exact (hf b x).bind fun b' => ih b'

theorem ReadOnly.exec {σ : Type} {p : Prog A n ε α} (hp : p.ReadOnly) (dev : Device σ A n)
    (s : σ) : (p.exec dev s).2 = s := by
  induction p with
  | ret a => rfl
  | stop e => rfl
  | read r next ih => exact ih _ (hp _)
  | write r v next ih => exact hp.elim

theorem ReadOnly.step [DecidableEq A] {p : Prog A n ε α} (hp : p.ReadOnly) (rf : RegFile A n) :
    (p.step rf).1.ReadOnly ∧ (p.step rf).2 = rf := by
  cases p with
  | ret a => exact ⟨trivial, rfl⟩
  | stop e => exact ⟨trivial, rfl⟩
  | read r next => exact ⟨hp _, rfl⟩
  | write r v next => exact hp.elim

/-- What a program ends with whose `k`-th access, where it reads, is answered from `o k`, and the
number of the access it would make next. -/
def answered (o : ℕ → RegFile A n) : ℕ → Prog A n ε α → Except ε α × ℕ
  | k, .ret a => (.ok a, k)
  | k, .stop e => (.error e, k)
  | k, .read r next => answered o (k + 1) (next (o k r))
  | k, .write _ _ next => answered o (k + 1) next

theorem answered_bind_of_ok {p : Prog A n ε α} {f : α → Prog A n ε β} {o : ℕ → RegFile A n}
    {k k' : ℕ} {a : α} (h : p.answered o k = (.ok a, k')) :
    (p >>= f).answered o k = (f a).answered o k' := by
  induction p generalizing k with
  | ret a' =>
    cases h
    rfl
  | stop e => cases h
  | read r next ih => exact ih _ h
  | write r v next ih => exact ih h

theorem answered_attempt (o : ℕ → RegFile A n) (p : Prog A n ε α) (k : ℕ) :
    p.attempt.answered o k = (.ok (p.answered o k).1, (p.answered o k).2) := by
  induction p generalizing k with
  | ret a => rfl
  | stop e => rfl
  | read r next ih => exact ih _ (k + 1)
  | write r v next ih => exact ih (k + 1)

theorem answered_shift (o : ℕ → RegFile A n) (p : Prog A n ε α) (k : ℕ) :
    (p.answered o (k + 1)).1 = (p.answered (fun i => o (i + 1)) k).1 := by
  induction p generalizing k with
  | ret a => rfl
  | stop e => rfl
  | read r next ih => exact ih _ (k + 1)
  | write r v next ih => exact ih (k + 1)

theorem answered_of_outcome {p : Prog A n ε α} {q : Except ε α} (h : p.outcome? = some q)
    (o : ℕ → RegFile A n) (k : ℕ) : (p.answered o k).1 = q := by
  cases p with
  | ret a => exact Option.some.inj h
  | stop e => exact Option.some.inj h
  | read r next => cases h
  | write r v next => cases h

/-- One step of a program that only reads is the first of its answers. -/
theorem ReadOnly.answered_step [DecidableEq A] {p : Prog A n ε α} (hp : p.ReadOnly)
    (rf : RegFile A n) (o : ℕ → RegFile A n) : ((p.step rf).1.answered o 0).1 =
      (p.answered (fun k => if k = 0 then rf else o (k - 1)) 0).1 := by
  cases p with
  | ret a => rfl
  | stop e => rfl
  | read r next =>
    change _ = ((next (rf r)).answered _ (0 + 1)).1
    rw [answered_shift]
    rfl
  | write r v next => exact hp.elim

/-- Alone, a program that only reads has all its reads answered from the same registers. -/
theorem ReadOnly.run [DecidableEq A] {p : Prog A n ε α} (hp : p.ReadOnly) (rf : RegFile A n)
    (k : ℕ) : p.run rf = ((p.answered (fun _ => rf) k).1, rf) := by
  induction p generalizing k with
  | ret a => rfl
  | stop e => rfl
  | read r next ih => exact ih _ (hp _) (k + 1)
  | write r v next ih => exact hp.elim

theorem ReadOnly.attempt {p : Prog A n ε α} (hp : p.ReadOnly) : p.attempt.ReadOnly := by
  induction p with
  | ret a => trivial
  | stop e => trivial
  | read r next ih => exact fun v => ih v (hp v)
  | write r v next ih => exact hp.elim

theorem ReadOnly.sequence {ps : List (Prog A n ε α)} (h : ∀ p ∈ ps, p.ReadOnly) :
    (Prog.sequence ps).ReadOnly := by
  induction ps with
  | nil => trivial
  | cons p ps ih =>
    rw [List.forall_mem_cons] at h
    exact h.1.attempt.bind fun q => (ih h.2).bind fun qs => trivial

/-! ### A run in steps -/

section Steps

variable [DecidableEq A]

def steps : ℕ → Prog A n ε α → RegFile A n → Prog A n ε α × RegFile A n
  | 0, p, rf => (p, rf)
  | t + 1, p, rf => steps t (p.step rf).1 (p.step rf).2

theorem steps_succ (t : ℕ) (p : Prog A n ε α) (rf : RegFile A n) :
    steps (t + 1) p rf = (steps t p rf).1.step (steps t p rf).2 := by
  induction t generalizing p rf with
  | zero => rfl
  | succ t ih => exact ih _ _

/-- What is left to do leads where the whole run leads. -/
theorem run_steps (t : ℕ) (p : Prog A n ε α) (rf : RegFile A n) :
    (steps t p rf).1.run (steps t p rf).2 = p.run rf := by
  induction t generalizing p rf with
  | zero => rfl
  | succ t ih => exact (ih _ _).trans (run_step p rf)

theorem steps_ended {p : Prog A n ε α} {q : Except ε α} (h : p.outcome? = some q) (t : ℕ)
    (rf : RegFile A n) : steps t p rf = (p, rf) := by
  induction t with
  | zero => rfl
  | succ t ih =>
    rw [steps_succ, ih]
    cases p with
    | ret a => rfl
    | stop e => rfl
    | read r next => cases h
    | write r v next => cases h

end Steps

/-! ### Field writes in a row -/

/-- The program performs the field writes `ws` one after the other, whatever it reads. -/
inductive Performs : List (FieldWrite A n) → Prog A n ε α → Prop
  | ret (a : α) : Performs [] (.ret a)
  | stop (e : ε) : Performs [] (.stop e)
  | read {ws : List (FieldWrite A n)} {r : A} {next : BitVec n → Prog A n ε α}
      (h : ∀ v, Performs ws (next v)) : Performs ws (.read r next)
  | modify {ws : List (FieldWrite A n)} {next : Prog A n ε α} (w : FieldWrite A n)
      (h : Performs ws next) : Performs (w :: ws) (.modify w next)

namespace Performs

variable {ws vs : List (FieldWrite A n)} {p : Prog A n ε α}

theorem script {tail : Prog A n ε α} (h : Performs vs tail) (ws : List (FieldWrite A n)) :
    Performs (ws ++ vs) (Prog.script ws tail) := by
  induction ws with
  | nil => exact h
  | cons w ws ih => exact .modify w ih

/-- Whatever the program ends with, what follows is performed after it. -/
theorem attempt_bind {f : Except ε α → Prog A n ε β} (h : Performs ws p)
    (hf : ∀ q, Performs vs (f q)) : Performs (ws ++ vs) (p.attempt >>= f) := by
  induction h with
  | ret a => exact hf (.ok a)
  | stop e => exact hf (.error e)
  | read h ih => exact .read ih
  | modify w h ih => exact .modify w ih

theorem map (h : Performs ws p) (f : α → β) :
    Performs ws (p >>= fun a => (.ret (f a) : Prog A n ε β)) := by
  induction h with
  | ret a => exact .ret (f a)
  | stop e => exact .stop e
  | read h ih => exact .read ih
  | modify w h ih => exact .modify w ih

theorem sequence {γ : Type} {xs : List γ} {prog : γ → Prog A n ε α}
    {writes : γ → List (FieldWrite A n)} (h : ∀ x ∈ xs, Performs (writes x) (prog x)) :
    Performs (xs.flatMap writes) (Prog.sequence (xs.map prog)) := by
  induction xs with
  | nil => exact .ret _
  | cons x xs ih =>
    rw [List.forall_mem_cons] at h
    exact h.1.attempt_bind fun q => (ih h.2).map fun rs => q :: rs

/-- At every moment a prefix of the writes is done, and it only grows. -/
theorem steps [DecidableEq A] (h : Performs ws p) (rf : RegFile A n) :
    ∃ m : ℕ → ℕ, Monotone m ∧ ∀ t, (Prog.steps t p rf).2 = applyAll (ws.take (m t)) rf := by
  induction h generalizing rf with
  | ret a => exact ⟨fun _ => 0, monotone_const, fun t => by rw [steps_ended rfl]; rfl⟩
  | stop e => exact ⟨fun _ => 0, monotone_const, fun t => by rw [steps_ended rfl]; rfl⟩
  | @read ws r next h ih =>
    obtain ⟨m, hmono, hm⟩ := ih (rf r) rf
    refine ⟨fun t => m (t - 1), fun t t' ht => hmono (by omega), fun t => ?_⟩
    cases t with
    | zero => exact hm 0
    | succ t => exact hm t
  | @modify ws next w h ih =>
    obtain ⟨m, hmono, hm⟩ := ih (w.apply rf)
    -- the write happens in the second of the two accesses
    refine ⟨fun t => if t < 2 then 0 else m (t - 2) + 1, fun t t' ht => ?_, fun t => ?_⟩
    · have hle := hmono (show t - 2 ≤ t' - 2 by omega)
      dsimp only
      split_ifs <;> omega
    · match t with
      | 0 => rfl
      | 1 => rfl
      | t + 2 => exact hm t

end Performs

end Prog

/-! ### Turns of a writer and its observers -/

section Turns

variable [DecidableEq A] {ι : Type} [DecidableEq ι] {progs : ι → Prog A n ε α} {w : ι}

/-- Every party besides `w` only reads. -/
def Observed (w : ι) (progs : ι → Prog A n ε α) : Prop := ∀ s, s ≠ w → (progs s).ReadOnly

theorem Observed.step (h : Observed w progs) (s : ι) (rf : RegFile A n) :
    Observed w (Function.update progs s ((progs s).step rf).1) := by
  intro s' hs'
  by_cases hs : s' = s
  · subst s'
    rw [Function.update_self]
    exact ((h s hs').step rf).1
  · rw [Function.update_of_ne hs]
    exact h s' hs'

/-- The writer gets where its own turns get it, and the registers with it. -/
theorem Observed.turns_writer (h : Observed w progs) (sched : List ι) (rf : RegFile A n) :
    ((turns sched progs rf).1 w, (turns sched progs rf).2) =
      Prog.steps (sched.count w) (progs w) rf := by
  induction sched generalizing progs rf with
  | nil => rfl
  | cons s sched ih =>
    rw [turns, ih (h.step s rf)]
    by_cases hs : s = w
    · subst s
      rw [List.count_cons_self, Function.update_self]
      rfl
    · rw [List.count_cons_of_ne hs, Function.update_of_ne (Ne.symm hs), ((h s hs).step rf).2]

/-- An observer that has ended saw, in its reads, the registers at later and later moments of the
writer's own run, none of them still to come. -/
theorem Observed.outcome (h : Observed w progs) {sched : List ι} {rf : RegFile A n} {s : ι}
    (hs : s ≠ w) {q : Except ε α} (hq : ((turns sched progs rf).1 s).outcome? = some q) :
    ∃ time : ℕ → ℕ, Monotone time ∧ (∀ k, time k ≤ sched.count w) ∧
      q = ((progs s).answered (fun k => (Prog.steps (time k) (progs w) rf).2) 0).1 := by
  induction sched generalizing progs rf with
  | nil =>
    refine ⟨fun _ => 0, monotone_const, fun _ => Nat.le_refl 0, ?_⟩
    have hq : (progs s).outcome? = some q := hq
    rw [Prog.answered_of_outcome hq]
  | cons s' sched ih =>
    obtain ⟨time, hmono, hle, hres⟩ := ih (h.step s' rf) hq
    by_cases hw : s' = w
    · subst s'
      rw [Function.update_of_ne hs, Function.update_self] at hres
      refine ⟨fun k => time k + 1, hmono.add_const 1, fun k => ?_, hres⟩
      rw [List.count_cons_self]
      exact Nat.succ_le_succ (hle k)
    · rw [Function.update_of_ne (Ne.symm hw), ((h s' hw).step rf).2] at hres
      have hcount : (s' :: sched).count w = sched.count w := List.count_cons_of_ne hw
      rw [hcount]
      by_cases hss : s' = s
      · subst s'
        rw [Function.update_self, (h s hs).answered_step] at hres
        refine ⟨fun k => if k = 0 then 0 else time (k - 1), fun k k' hk => ?_, fun k => ?_, ?_⟩
        · have hlater := hmono (show k - 1 ≤ k' - 1 by omega)
          dsimp only
          split_ifs <;> omega
        · dsimp only
          split_ifs
          · exact Nat.zero_le _
          · exact hle (k - 1)
        · rw [hres]
          congr 2
          funext k
          cases k <;> rfl
      · rw [Function.update_of_ne (Ne.symm hss)] at hres
        exact ⟨time, hmono, hle, hres⟩

end Turns

end Registers
