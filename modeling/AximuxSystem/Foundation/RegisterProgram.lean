import AximuxSystem.Foundation.FieldWrite

/-!
# Programs that access registers

A program is a tree of single register reads and writes. It can be executed
over any device that answers reads and absorbs writes; a plain register file is
one such device. The safety predicate below is an assume-guarantee contract:
as long as every word read meets the contract, so does every word written, and
only registers of a given set are touched. Two devices that agree on contract
traffic cannot be told apart by a safe program.
-/

namespace Registers

/-- A tree of register accesses that returns a value or stops with an error. -/
inductive Prog (A : Type) (n : ℕ) (ε α : Type) where
  | ret (a : α) : Prog A n ε α
  | stop (e : ε) : Prog A n ε α
  | read (r : A) (next : BitVec n → Prog A n ε α) : Prog A n ε α
  | write (r : A) (v : BitVec n) (next : Prog A n ε α) : Prog A n ε α

/-- A device as its bus sees it: reads have no side effect. -/
structure Device (σ A : Type) (n : ℕ) where
  read : σ → A → BitVec n
  write : σ → A → BitVec n → σ

namespace Prog

variable {A : Type} {n : ℕ} {ε α β : Type}

def bind (p : Prog A n ε α) (f : α → Prog A n ε β) : Prog A n ε β :=
  match p with
  | .ret a => f a
  | .stop e => .stop e
  | .read r next => .read r fun v => (next v).bind f
  | .write r v next => .write r v (next.bind f)

instance : Monad (Prog A n ε) where
  pure := ret
  bind := bind

@[simp] theorem pure_eq (a : α) : (pure a : Prog A n ε α) = .ret a := rfl

@[simp] theorem ret_bind (a : α) (f : α → Prog A n ε β) : (.ret a : Prog A n ε α) >>= f = f a := rfl

@[simp] theorem stop_bind (e : ε) (f : α → Prog A n ε β) :
    (.stop e : Prog A n ε α) >>= f = .stop e := rfl

@[simp] theorem read_bind (r : A) (next : BitVec n → Prog A n ε α) (f : α → Prog A n ε β) :
    (.read r next : Prog A n ε α) >>= f = .read r fun v => next v >>= f := rfl

@[simp] theorem write_bind (r : A) (v : BitVec n) (next : Prog A n ε α) (f : α → Prog A n ε β) :
    (.write r v next : Prog A n ε α) >>= f = .write r v (next >>= f) := rfl

@[simp] theorem forM_nil (f : α → Prog A n ε PUnit) : ([] : List α).forM f = .ret ⟨⟩ := rfl

@[simp] theorem forM_cons (x : α) (xs : List α) (f : α → Prog A n ε PUnit) :
    (x :: xs).forM f = f x >>= fun _ => xs.forM f := rfl

/-- Execution over a device. -/
def exec {σ : Type} (dev : Device σ A n) : Prog A n ε α → σ → Except ε α × σ
  | .ret a, s => (.ok a, s)
  | .stop e, s => (.error e, s)
  | .read r next, s => exec dev (next (dev.read s r)) s
  | .write r v next, s => exec dev next (dev.write s r v)

/-- Execution of several programs one after the other, whatever each of them ends with. -/
def execAll {σ : Type} (dev : Device σ A n) : List (Prog A n ε α) → σ → List (Except ε α) × σ
  | [], s => ([], s)
  | p :: ps, s =>
    let (r, s) := p.exec dev s
    let (rs, s) := execAll dev ps s
    (r :: rs, s)

/-- Renaming the result leaves the state as it is. -/
theorem exec_bind_ret {σ : Type} (dev : Device σ A n) (p : Prog A n ε α) (f : α → β) (s : σ) :
    ((p >>= fun a => (.ret (f a) : Prog A n ε β)).exec dev s).2 = (p.exec dev s).2 := by
  induction p generalizing s with
  | ret a => rfl
  | stop e => rfl
  | read r next ih => exact ih _ s
  | write r v next ih => exact ih _

/-- Touches only registers of `S`; if every word read from `r` satisfies `P r`, so does every
word written; stops only with errors satisfying `E`. -/
def Safe (S : A → Prop) (P : A → BitVec n → Prop) (E : ε → Prop) : Prog A n ε α → Prop
  | .ret _ => True
  | .stop e => E e
  | .read r next => S r ∧ ∀ v, P r v → (next v).Safe S P E
  | .write r v next => S r ∧ P r v ∧ next.Safe S P E

theorem Safe.bind {S : A → Prop} {P : A → BitVec n → Prop} {E : ε → Prop}
    {p : Prog A n ε α} {f : α → Prog A n ε β} (hp : p.Safe S P E)
    (hf : ∀ a, (f a).Safe S P E) : (p >>= f).Safe S P E := by
  induction p with
  | ret a => exact hf a
  | stop e => exact hp
  | read r next ih => exact ⟨hp.1, fun v hv => ih v (hp.2 v hv)⟩
  | write r v next ih => exact ⟨hp.1, hp.2.1, ih hp.2.2⟩

theorem Safe.mono {S S' : A → Prop} {P : A → BitVec n → Prop} {E E' : ε → Prop}
    {p : Prog A n ε α} (hp : p.Safe S P E) (hS : ∀ r, S r → S' r) (hE : ∀ e, E e → E' e) :
    p.Safe S' P E' := by
  induction p with
  | ret a => trivial
  | stop e => exact hE e hp
  | read r next ih => exact ⟨hS r hp.1, fun v hv => ih v (hp.2 v hv)⟩
  | write r v next ih => exact ⟨hS r hp.1, hp.2.1, ih hp.2.2⟩

/-- Over a device whose answers meet the contract as long as it is in a state of `I`, a safe program
keeps `I` and stops with errors satisfying `E` only. -/
theorem Safe.exec {σ : Type} {S : A → Prop} {P : A → BitVec n → Prop} {E : ε → Prop}
    {dev : Device σ A n} {I : σ → Prop} (hread : ∀ s r, I s → S r → P r (dev.read s r))
    (hwrite : ∀ s r v, I s → S r → P r v → I (dev.write s r v)) {p : Prog A n ε α}
    (hp : p.Safe S P E) {s : σ} (hs : I s) :
    I (p.exec dev s).2 ∧ ∀ e, (p.exec dev s).1 = .error e → E e := by
  induction p generalizing s with
  | ret a => exact ⟨hs, fun e he => by cases he⟩
  | stop e =>
    refine ⟨hs, fun e' he => ?_⟩
    cases he
    exact hp
  | read r next ih => exact ih _ (hp.2 _ (hread s r hs hp.1)) hs
  | write r v next ih => exact ih hp.2.2 (hwrite s r v hs hp.1 hp.2.1)

/-- A loop whose every iteration is safe is safe. -/
theorem Safe.forM {γ : Type} {S : A → Prop} {P : A → BitVec n → Prop} {E : ε → Prop}
    {body : γ → Prog A n ε PUnit} {xs : List γ} (h : ∀ x ∈ xs, (body x).Safe S P E) :
    (xs.forM body).Safe S P E := by
  induction xs with
  | nil => trivial
  | cons x xs ih =>
    exact (h x List.mem_cons_self).bind fun _ => ih fun y hy => h y (List.mem_cons_of_mem x hy)

/-- A loop with an accumulator whose every iteration is safe is safe. -/
theorem Safe.foldlM {γ : Type} {S : A → Prop} {P : A → BitVec n → Prop} {E : ε → Prop}
    {body : β → γ → Prog A n ε β} {xs : List γ} {b : β}
    (h : ∀ b, ∀ x ∈ xs, (body b x).Safe S P E) : (xs.foldlM body b).Safe S P E := by
  induction xs generalizing b with
  | nil => trivial
  | cons x xs ih =>
    exact (h b x List.mem_cons_self).bind fun b' =>
      ih fun b y hy => h b y (List.mem_cons_of_mem x hy)

/-- The read-modify-write cycle that performs one masked write, then `next`. -/
def modify (w : FieldWrite A n) (next : Prog A n ε α) : Prog A n ε α :=
  .read w.reg fun old => .write w.reg (w.merge old) next

/-- A sequence of read-modify-write cycles, then `tail`. -/
def script (ws : List (FieldWrite A n)) (tail : Prog A n ε α) : Prog A n ε α :=
  ws.foldr modify tail

@[simp] theorem script_nil (tail : Prog A n ε α) : script [] tail = tail := rfl

@[simp] theorem script_cons (w : FieldWrite A n) (ws : List (FieldWrite A n))
    (tail : Prog A n ε α) : script (w :: ws) tail = modify w (script ws tail) := rfl

theorem script_append (ws₁ ws₂ : List (FieldWrite A n)) (tail : Prog A n ε α) :
    script (ws₁ ++ ws₂) tail = script ws₁ (script ws₂ tail) := by
  simp [script]

theorem modify_bind {β : Type} (w : FieldWrite A n) (p : Prog A n ε α) (f : α → Prog A n ε β) :
    modify w p >>= f = modify w (p >>= f) := rfl

theorem script_bind {β : Type} (ws : List (FieldWrite A n)) (tail : Prog A n ε α)
    (f : α → Prog A n ε β) : script ws tail >>= f = script ws (tail >>= f) := by
  induction ws with
  | nil => rfl
  | cons w ws ih => rw [script_cons, modify_bind, ih, script_cons]

theorem Safe.modify {S : A → Prop} {P : A → BitVec n → Prop} {E : ε → Prop}
    {w : FieldWrite A n} {p : Prog A n ε α} (hS : S w.reg)
    (hP : ∀ old, P w.reg old → P w.reg (w.merge old)) (hp : p.Safe S P E) :
    (Prog.modify w p).Safe S P E :=
  ⟨hS, fun old hold => ⟨hS, hP old hold, hp⟩⟩

theorem Safe.script {S : A → Prop} {P : A → BitVec n → Prop} {E : ε → Prop}
    {ws : List (FieldWrite A n)} {tail : Prog A n ε α} (hS : ∀ w ∈ ws, S w.reg)
    (hP : ∀ w ∈ ws, ∀ old, P w.reg old → P w.reg (w.merge old)) (ht : tail.Safe S P E) :
    (Prog.script ws tail).Safe S P E := by
  induction ws with
  | nil => exact ht
  | cons w ws ih =>
    rw [List.forall_mem_cons] at hS hP
    exact Safe.modify hS.1 hP.1 (ih hS.2 hP.2)

end Prog

/-- Two devices that answer alike, and stay related, under traffic that touches `S` and writes
only words allowed by `P`. -/
structure Device.Agree {σ τ A : Type} {n : ℕ} (dev₁ : Device σ A n) (dev₂ : Device τ A n)
    (S : A → Prop) (P : A → BitVec n → Prop) (R : σ → τ → Prop) : Prop where
  read_eq : ∀ s t r, R s t → S r → dev₁.read s r = dev₂.read t r
  read_ok : ∀ s t r, R s t → S r → P r (dev₁.read s r)
  write : ∀ s t r v, R s t → S r → P r v → R (dev₁.write s r v) (dev₂.write t r v)

/-- A safe program returns the same over both devices and keeps them related. -/
theorem Device.Agree.exec {σ τ A ε α : Type} {n : ℕ} {dev₁ : Device σ A n} {dev₂ : Device τ A n}
    {S : A → Prop} {P : A → BitVec n → Prop} {R : σ → τ → Prop} (h : dev₁.Agree dev₂ S P R)
    {E : ε → Prop} {p : Prog A n ε α} (hp : p.Safe S P E) {s : σ} {t : τ} (hR : R s t) :
    (p.exec dev₁ s).1 = (p.exec dev₂ t).1 ∧ R (p.exec dev₁ s).2 (p.exec dev₂ t).2 := by
  induction p generalizing s t with
  | ret a => exact ⟨rfl, hR⟩
  | stop e => exact ⟨rfl, hR⟩
  | read r next ih =>
    have hnext := ih (dev₁.read s r) (hp.2 _ (h.read_ok s t r hR hp.1)) hR
    simpa only [Prog.exec, ← h.read_eq s t r hR hp.1] using hnext
  | write r v next ih => exact ih hp.2.2 (h.write s t r v hR hp.1 hp.2.1)

/-- The same for a sequence of programs. -/
theorem Device.Agree.execAll {σ τ A ε α : Type} {n : ℕ} {dev₁ : Device σ A n} {dev₂ : Device τ A n}
    {S : A → Prop} {P : A → BitVec n → Prop} {R : σ → τ → Prop} (h : dev₁.Agree dev₂ S P R)
    {E : ε → Prop} {ps : List (Prog A n ε α)} (hps : ∀ p ∈ ps, p.Safe S P E) {s : σ} {t : τ}
    (hR : R s t) : (Prog.execAll dev₁ ps s).1 = (Prog.execAll dev₂ ps t).1 ∧
      R (Prog.execAll dev₁ ps s).2 (Prog.execAll dev₂ ps t).2 := by
  induction ps generalizing s t with
  | nil => exact ⟨rfl, hR⟩
  | cons p ps ih =>
    rw [List.forall_mem_cons] at hps
    obtain ⟨hres, hR⟩ := h.exec hps.1 hR
    obtain ⟨hrest, hR⟩ := ih hps.2 hR
    exact ⟨congrArg₂ List.cons hres hrest, hR⟩

/-! ### Bus traffic -/

/-- One access of a bus master. -/
inductive BusOp (A : Type) (n : ℕ) where
  | read (r : A)
  | write (r : A) (v : BitVec n)
  deriving DecidableEq, Repr

def BusOp.address {A : Type} {n : ℕ} : BusOp A n → A
  | read r => r
  | write r _ => r

/-- The words a device answers to the reads of a sequence of accesses, with their addresses. -/
def Device.observe {σ A : Type} {n : ℕ} (dev : Device σ A n) : List (BusOp A n) → σ →
    List (A × BitVec n)
  | [], _ => []
  | .read r :: ops, s => (r, dev.read s r) :: dev.observe ops s
  | .write r v :: ops, s => dev.observe ops (dev.write s r v)

/-- The first device answers with the image under `f` of what the second answers, whatever is
written to the addresses in `S`. -/
structure Device.Shows {σ τ A : Type} {n : ℕ} (dev₁ : Device σ A n) (dev₂ : Device τ A n)
    (S : A → Prop) (f : A → BitVec n → BitVec n) (R : σ → τ → Prop) : Prop where
  read_eq : ∀ s t r, R s t → S r → dev₁.read s r = f r (dev₂.read t r)
  write : ∀ s t r v, R s t → S r → R (dev₁.write s r v) (dev₂.write t r v)

theorem Device.Shows.observe {σ τ A : Type} {n : ℕ} {dev₁ : Device σ A n} {dev₂ : Device τ A n}
    {S : A → Prop} {f : A → BitVec n → BitVec n} {R : σ → τ → Prop} (h : dev₁.Shows dev₂ S f R)
    {ops : List (BusOp A n)} (hops : ∀ op ∈ ops, S op.address) {s : σ} {t : τ} (hR : R s t) :
    dev₁.observe ops s = (dev₂.observe ops t).map fun x => (x.1, f x.1 x.2) := by
  induction ops generalizing s t with
  | nil => rfl
  | cons op ops ih =>
    rw [List.forall_mem_cons] at hops
    cases op with
    | read r => simp only [Device.observe, List.map_cons, h.read_eq s t r hR hops.1, ih hops.2 hR]
    | write r v => exact ih hops.2 (h.write s t r v hR hops.1)

section RegisterFile

variable {A : Type} [DecidableEq A] {n : ℕ} {ε α : Type}

/-- Plain storage: a read returns the last word written. -/
def RegFile.device : Device (RegFile A n) A n where
  read rf r := rf r
  write rf r v := Function.update rf r v

namespace Prog

/-- Execution over a plain register file. -/
def run (p : Prog A n ε α) (rf : RegFile A n) : Except ε α × RegFile A n :=
  p.exec RegFile.device rf

@[simp] theorem run_ret (a : α) (rf : RegFile A n) :
    (.ret a : Prog A n ε α).run rf = (.ok a, rf) := rfl

@[simp] theorem run_stop (e : ε) (rf : RegFile A n) :
    (.stop e : Prog A n ε α).run rf = (.error e, rf) := rfl

@[simp] theorem run_read (r : A) (next : BitVec n → Prog A n ε α) (rf : RegFile A n) :
    (Prog.read r next).run rf = (next (rf r)).run rf := rfl

@[simp] theorem run_write (r : A) (v : BitVec n) (next : Prog A n ε α) (rf : RegFile A n) :
    (Prog.write r v next).run rf = next.run (Function.update rf r v) := rfl

/-- A sequence goes on where its first part ends well. -/
theorem run_bind_of_ok {β : Type} {p : Prog A n ε α} {f : α → Prog A n ε β} {rf rf' : RegFile A n}
    {a : α} (h : p.run rf = (.ok a, rf')) : (p >>= f).run rf = (f a).run rf' := by
  induction p generalizing rf with
  | ret b =>
    cases h
    rfl
  | stop e => cases h
  | read r next ih => exact ih (rf r) h
  | write r v next ih => exact ih h

def runAll (ps : List (Prog A n ε α)) (rf : RegFile A n) : List (Except ε α) × RegFile A n :=
  execAll RegFile.device ps rf

theorem runAll_cons (p : Prog A n ε α) (ps : List (Prog A n ε α)) (rf : RegFile A n) :
    runAll (p :: ps) rf =
      ((p.run rf).1 :: (runAll ps (p.run rf).2).1, (runAll ps (p.run rf).2).2) := rfl

theorem runAll_append (ps qs : List (Prog A n ε α)) (rf : RegFile A n) :
    (runAll (ps ++ qs) rf).2 = (runAll qs (runAll ps rf).2).2 := by
  induction ps generalizing rf with
  | nil => rfl
  | cons p ps ih => exact ih (p.run rf).2

/-- Running a script applies its masked writes in order. -/
theorem run_script (ws : List (FieldWrite A n)) (tail : Prog A n ε α) (rf : RegFile A n) :
    (script ws tail).run rf = tail.run (applyAll ws rf) := by
  induction ws generalizing rf with
  | nil => rfl
  | cons w ws ih =>
    rw [script_cons, applyAll_cons, ← ih]
    rfl

end Prog
end RegisterFile
end Registers
