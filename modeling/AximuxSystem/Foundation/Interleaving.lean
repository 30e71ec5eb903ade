import AximuxSystem.Foundation.RegisterProgram

/-!
# Interleaved register programs

Several parties run their programs over one register file, one access at a
time. Where no party's read-modify-write cycle is split by a write of another
party to the same register, the outcome is that of the single masked writes in
some merged order. For two parties the merged order is compared with the two
serial orders bit by bit.
-/

namespace Registers

variable {A : Type} [DecidableEq A] {n : ℕ} {ε α ι : Type} [DecidableEq ι]

/-- An access to a register, as it appears on the bus. -/
inductive Access (A : Type) where
  | read (r : A)
  | write (r : A)
  deriving DecidableEq, Repr

namespace Prog

/-- The program has no access left to make. -/
def Finished : Prog A n ε α → Prop
  | .ret _ => True
  | .stop _ => True
  | .read _ _ => False
  | .write _ _ _ => False

end Prog

/-- `Interleaved progs rf t rf'`: the parties' accesses, in the order `t`, run all programs to
their ends and turn `rf` into `rf'`. -/
inductive Interleaved : (ι → Prog A n ε α) → RegFile A n → List (ι × Access A) → RegFile A n → Prop
  | done {progs rf} (h : ∀ s, (progs s).Finished) : Interleaved progs rf [] rf
  | read {progs rf t rf'} (s : ι) {r : A} {next : BitVec n → Prog A n ε α}
      (hs : progs s = .read r next)
      (h : Interleaved (Function.update progs s (next (rf r))) rf t rf') :
      Interleaved progs rf ((s, .read r) :: t) rf'
  | write {progs rf t rf'} (s : ι) {r : A} {v : BitVec n} {next : Prog A n ε α}
      (hs : progs s = .write r v next)
      (h : Interleaved (Function.update progs s next) (Function.update rf r v) t rf') :
      Interleaved progs rf ((s, .write r) :: t) rf'

/-- No party writes a register that another party has read and not yet written back. `pending`
holds the register each party has read last and not written since. -/
def unsplitFrom (pending : ι → Option A) : List (ι × Access A) → Prop
  | [] => True
  | (s, .read r) :: t => unsplitFrom (Function.update pending s (some r)) t
  | (s, .write r) :: t =>
    (∀ s', s' ≠ s → pending s' ≠ some r) ∧ unsplitFrom (Function.update pending s none) t

instance decidableUnsplitFrom [Fintype ι] :
    (pending : ι → Option A) → (t : List (ι × Access A)) → Decidable (unsplitFrom pending t)
  | _, [] => inferInstanceAs (Decidable True)
  | pending, (s, .read r) :: t => decidableUnsplitFrom (Function.update pending s (some r)) t
  | pending, (s, .write r) :: t =>
    have := decidableUnsplitFrom (Function.update pending s none) t
    inferInstanceAs (Decidable ((∀ s', s' ≠ s → pending s' ≠ some r) ∧ _))

/-- No read-modify-write cycle is split by a write of another party to its register. -/
def Unsplit (t : List (ι × Access A)) : Prop := unsplitFrom (fun _ => none) t

instance [Fintype ι] (t : List (ι × Access A)) : Decidable (Unsplit t) :=
  decidableUnsplitFrom (fun _ => none) t

/-- The writes of a trace with the parties that make them. -/
def traceWrites : List (ι × Access A) → List (ι × A)
  | [] => []
  | (_, .read _) :: t => traceWrites t
  | (s, .write r) :: t => (s, r) :: traceWrites t

/-! ### Merging scripts -/

section Resume

variable {A ε α : Type} {n : ℕ} {pend : Option (FieldWrite A n × BitVec n)}
  {rest : List (FieldWrite A n)} {a : α}

/-- The program of a party that has read for the write in `pend` and has `rest` to do. -/
def resume (pend : Option (FieldWrite A n × BitVec n)) (rest : List (FieldWrite A n)) (a : α) :
    Prog A n ε α :=
  match pend with
  | none => Prog.script rest (.ret a)
  | some (w, old) => .write w.reg (w.merge old) (Prog.script rest (.ret a))

/-- The writes the party still has to make. -/
def remaining (pend : Option (FieldWrite A n × BitVec n)) (rest : List (FieldWrite A n)) :
    List (FieldWrite A n) :=
  match pend with
  | none => rest
  | some (w, _) => w :: rest

theorem resume_finished (h : (resume pend rest a : Prog A n ε α).Finished) :
    remaining pend rest = [] := by
  cases pend with
  | some p => exact h.elim
  | none =>
    cases rest with
    | nil => rfl
    | cons w rest => exact h.elim

theorem resume_read {r : A} {next : BitVec n → Prog A n ε α}
    (h : resume pend rest a = .read r next) : ∃ w ws, pend = none ∧ rest = w :: ws ∧ r = w.reg ∧
      ∀ old, next old = resume (some (w, old)) ws a := by
  cases pend with
  | some p => cases h
  | none =>
    cases rest with
    | nil => cases h
    | cons w ws =>
      cases h
      exact ⟨w, ws, rfl, rfl, rfl, fun _ => rfl⟩

theorem resume_write {r : A} {v : BitVec n} {next : Prog A n ε α}
    (h : resume pend rest a = .write r v next) :
    ∃ w old, pend = some (w, old) ∧ r = w.reg ∧ v = w.merge old ∧ next = resume none rest a := by
  cases pend with
  | some p =>
    cases h
    exact ⟨p.1, p.2, rfl, rfl, rfl, rfl⟩
  | none =>
    cases rest with
    | nil => cases h
    | cons w ws => cases h

end Resume

/-- The parties run scripts: `pend` holds the write each has read for with the word it read, which
its register still holds, `rest` the writes after it. -/
structure Scripted (progs : ι → Prog A n ε α) (rf : RegFile A n)
    (pend : ι → Option (FieldWrite A n × BitVec n)) (rest : ι → List (FieldWrite A n))
    (a : ι → α) : Prop where
  progs_eq : ∀ s, progs s = resume (pend s) (rest s) (a s)
  pend_eq : ∀ s w old, pend s = some (w, old) → rf w.reg = old

/-- The registers the parties have read for their pending writes. -/
def pendingRegs (pend : ι → Option (FieldWrite A n × BitVec n)) : ι → Option A :=
  (Option.map fun p => p.1.reg) ∘ pend

namespace Scripted

variable {progs : ι → Prog A n ε α} {rf : RegFile A n}
  {pend : ι → Option (FieldWrite A n × BitVec n)} {rest : ι → List (FieldWrite A n)} {a : ι → α}

section Read

omit [DecidableEq A]

/-- A party that reads starts the next write of its script. -/
theorem read (h : Scripted progs rf pend rest a) {s : ι} {r : A} {next : BitVec n → Prog A n ε α}
    (hs : progs s = .read r next) : ∃ w ws, pend s = none ∧ rest s = w :: ws ∧ r = w.reg ∧
      Scripted (Function.update progs s (next (rf r))) rf
        (Function.update pend s (some (w, rf r))) (Function.update rest s ws) a := by
  obtain ⟨w, ws, hnone, hrest, rfl, hnext⟩ := resume_read ((h.progs_eq s).symm.trans hs)
  refine ⟨w, ws, hnone, hrest, rfl, fun s' => ?_, fun s' w' old hs' => ?_⟩
  · by_cases he : s' = s
    · subst s'
      rw [Function.update_self, Function.update_self, Function.update_self]
      exact hnext _
    · rw [Function.update_of_ne he, Function.update_of_ne he, Function.update_of_ne he]
      exact h.progs_eq s'
  · by_cases he : s' = s
    · subst s'
      rw [Function.update_self, Option.some.injEq, Prod.mk.injEq] at hs'
      rw [← hs'.1]
      exact hs'.2
    · rw [Function.update_of_ne he] at hs'
      exact h.pend_eq s' w' old hs'

end Read

/-- A party that writes performs its pending masked write, if no other party has read the register
for its own. -/
theorem write (h : Scripted progs rf pend rest a) {s : ι} {r : A} {v : BitVec n}
    {next : Prog A n ε α} (hs : progs s = .write r v next)
    (hfree : ∀ s', s' ≠ s → pendingRegs pend s' ≠ some r) :
    ∃ w old, pend s = some (w, old) ∧ r = w.reg ∧ Function.update rf r v = w.apply rf ∧
      Scripted (Function.update progs s next) (Function.update rf r v)
        (Function.update pend s none) rest a := by
  obtain ⟨w, old, hsome, rfl, rfl, hnext⟩ := resume_write ((h.progs_eq s).symm.trans hs)
  refine ⟨w, old, hsome, rfl, ?_, fun s' => ?_, fun s' w' old' hs' => ?_⟩
  · rw [← h.pend_eq s w old hsome]
    rfl
  · by_cases he : s' = s
    · subst s'
      rw [Function.update_self, Function.update_self]
      exact hnext
    · rw [Function.update_of_ne he, Function.update_of_ne he]
      exact h.progs_eq s'
  · by_cases he : s' = s
    · subst s'
      rw [Function.update_self] at hs'
      cases hs'
    · rw [Function.update_of_ne he] at hs'
      have hne : w'.reg ≠ w.reg := by
        intro hreg
        refine hfree s' he ?_
        rw [pendingRegs, Function.comp_apply, hs', Option.map_some, hreg]
      rw [Function.update_of_ne hne]
      exact h.pend_eq s' w' old' hs'

end Scripted

/-- An interleaving of scripts without a split cycle performs all masked writes one after the
other, those of each party in order. -/
theorem Interleaved.merged_from {progs : ι → Prog A n ε α} {rf rf' : RegFile A n}
    {t : List (ι × Access A)} (h : Interleaved progs rf t rf') {a : ι → α}
    {pend : ι → Option (FieldWrite A n × BitVec n)} {rest : ι → List (FieldWrite A n)}
    (hscripts : Scripted progs rf pend rest a) (hun : unsplitFrom (pendingRegs pend) t) :
    ∃ ms : List (ι × FieldWrite A n),
      (∀ s, Grouping.valuesOf s ms = remaining (pend s) (rest s)) ∧
      rf' = applyAll (ms.map Prod.snd) rf ∧ traceWrites t = ms.map fun m => (m.1, m.2.reg) := by
  induction h generalizing pend rest with
  | done hfin =>
    refine ⟨[], fun s => ?_, rfl, rfl⟩
    have hs := hfin s
    rw [hscripts.progs_eq s] at hs
    exact (resume_finished hs).symm
  | @read progs rf t rf' s r next hs h ih =>
    obtain ⟨w, ws, hnone, hrest, rfl, hscripts⟩ := hscripts.read hs
    obtain ⟨ms, hms, hrf, ht⟩ := ih hscripts (by
      rw [pendingRegs, Function.comp_update]
      exact hun)
    refine ⟨ms, fun s' => ?_, hrf, ht⟩
    rw [hms s']
    by_cases he : s' = s
    · subst s'
      rw [Function.update_self, Function.update_self, hnone, hrest]
      rfl
    · rw [Function.update_of_ne he, Function.update_of_ne he]
  | @write progs rf t rf' s r v next hs h ih =>
    obtain ⟨hfree, hun⟩ := hun
    obtain ⟨w, old, hsome, rfl, happly, hscripts⟩ := hscripts.write hs hfree
    obtain ⟨ms, hms, hrf, ht⟩ := ih hscripts (by
      rw [pendingRegs, Function.comp_update]
      exact hun)
    refine ⟨(s, w) :: ms, fun s' => ?_, ?_, ?_⟩
    · by_cases he : s' = s
      · subst s'
        have hrest := hms s
        rw [Function.update_self] at hrest
        rw [hsome, Grouping.valuesOf_cons, if_pos rfl, hrest]
        rfl
      · have hrest := hms s'
        rw [Function.update_of_ne he] at hrest
        rw [Grouping.valuesOf_cons, if_neg (Ne.symm he), hrest]
    · rw [hrf, happly]
      rfl
    · rw [traceWrites, ht]
      rfl

/-- Scripts interleaved without a split cycle apply their writes in a merged order. -/
theorem Interleaved.merged {ws : ι → List (FieldWrite A n)} {a : ι → α} {rf rf' : RegFile A n}
    {t : List (ι × Access A)}
    (h : Interleaved (fun s => (Prog.script (ws s) (.ret (a s)) : Prog A n ε α)) rf t rf')
    (hun : Unsplit t) :
    ∃ ms : List (ι × FieldWrite A n), (∀ s, Grouping.valuesOf s ms = ws s) ∧
      rf' = applyAll (ms.map Prod.snd) rf ∧ traceWrites t = ms.map fun m => (m.1, m.2.reg) := by
  have hscripts : Scripted (fun s => (Prog.script (ws s) (.ret (a s)) : Prog A n ε α)) rf
      (fun _ => none) ws a := ⟨fun _ => rfl, fun _ _ _ hs => by cases hs⟩
  exact h.merged_from hscripts hun

/-! ### Two parties -/

inductive Party where
  | first | second
  deriving DecidableEq, Repr

instance : Fintype Party := ⟨{.first, .second}, fun p => by cases p <;> simp⟩

def Party.other : Party → Party
  | first => second
  | second => first

theorem Party.eq_or_other (p q : Party) : q = p ∨ q = p.other := by
  cases p <;> cases q <;> simp [Party.other]

theorem Party.other_ne (p : Party) : p.other ≠ p := by
  cases p <;> simp [Party.other]

/-- At every register both parties write, the writes of `p` come after those of the other. -/
def Trails (p : Party) (writes : List (Party × A)) : Prop :=
  writes.Pairwise fun x y => x.1 = p → y.1 ≠ p → x.2 ≠ y.2

section TwoParties

variable {ms : List (Party × FieldWrite A n)}

/-- A merged order gives every bit the value one of the two serial orders gives it. -/
theorem lastBit_merge (ms : List (Party × FieldWrite A n)) (r : A) (i : ℕ) :
    ∃ p : Party, lastBit (ms.map Prod.snd) r i =
      (lastBit (Grouping.valuesOf p ms) r i).or (lastBit (Grouping.valuesOf p.other ms) r i) := by
  induction ms with
  | nil => exact ⟨.first, rfl⟩
  | cons m ms ih =>
    obtain ⟨p, hp⟩ := ih
    rw [List.map_cons, lastBit_cons, hp]
    rcases p.eq_or_other m.1 with hm | hm
    · have hne : m.1 ≠ p.other := hm ▸ (Party.other_ne p).symm
      cases hother : lastBit (Grouping.valuesOf p.other ms) r i with
      | none =>
        refine ⟨p, ?_⟩
        rw [Grouping.valuesOf_cons, if_pos hm, Grouping.valuesOf_cons, if_neg hne, hother,
          Option.or_none, Option.or_none, lastBit_cons]
      | some b =>
        cases hown : lastBit (Grouping.valuesOf p ms) r i with
        | none =>
          refine ⟨p.other, ?_⟩
          have hback : p.other.other = p := by cases p <;> rfl
          rw [hback, Grouping.valuesOf_cons, if_neg hne, hother]
          rfl
        | some b' =>
          refine ⟨p, ?_⟩
          rw [Grouping.valuesOf_cons, if_pos hm, lastBit_cons, hown]
          rfl
    · have hne : m.1 ≠ p := hm ▸ Party.other_ne p
      refine ⟨p, ?_⟩
      rw [Grouping.valuesOf_cons, if_neg hne, Grouping.valuesOf_cons, if_pos hm, lastBit_cons m.2,
        Option.or_assoc]

/-- If the writes of `p` trail, every bit is as in the serial order that puts `p` last. -/
theorem lastBit_merge_of_trails {p : Party} (h : Trails p (ms.map fun m => (m.1, m.2.reg)))
    (r : A) (i : ℕ) : lastBit (ms.map Prod.snd) r i =
      (lastBit (Grouping.valuesOf p ms) r i).or (lastBit (Grouping.valuesOf p.other ms) r i) := by
  induction ms with
  | nil => rfl
  | cons m ms ih =>
    obtain ⟨hhead, htail⟩ := List.pairwise_cons.mp h
    rw [List.map_cons, lastBit_cons, ih htail]
    rcases p.eq_or_other m.1 with hm | hm
    · have hne : m.1 ≠ p.other := hm ▸ (Party.other_ne p).symm
      rw [Grouping.valuesOf_cons, if_pos hm, Grouping.valuesOf_cons, if_neg hne, lastBit_cons m.2]
      by_cases hcov : m.2.covers r i
      · -- the other party no longer writes this register
        have hnone : lastBit (Grouping.valuesOf p.other ms) r i = none := by
          rw [lastBit_eq_none_iff]
          intro w hw
          have hmem := Grouping.mem_valuesOf.mp hw
          have hreg := hhead _ (List.mem_map_of_mem hmem) hm (Party.other_ne p)
          rw [FieldWrite.covers_eq_true] at hcov
          have hne : w.reg ≠ r := fun he => hreg (hcov.1.trans he.symm)
          simp [FieldWrite.covers, hne]
        rw [hnone, Option.or_none, Option.or_none]
      · rw [if_neg hcov, Option.or_none, Option.or_none]
    · have hne : m.1 ≠ p := hm ▸ Party.other_ne p
      rw [Grouping.valuesOf_cons, if_neg hne, Grouping.valuesOf_cons, if_pos hm, lastBit_cons m.2,
        Option.or_assoc]

variable {ws : Party → List (FieldWrite A n)} {a : Party → α} {rf rf' : RegFile A n}
  {t : List (Party × Access A)}

/-- Without a split cycle every bit ends as after one of the two serial orders. -/
theorem Interleaved.bit_serial
    (h : Interleaved (fun p => (Prog.script (ws p) (.ret (a p)) : Prog A n ε α)) rf t rf')
    (hun : Unsplit t) (r : A) (i : ℕ) :
    ∃ p : Party, (rf' r).getLsbD i = (applyAll (ws p.other ++ ws p) rf r).getLsbD i := by
  obtain ⟨ms, hms, rfl, -⟩ := h.merged hun
  obtain ⟨p, hp⟩ := lastBit_merge ms r i
  refine ⟨p, ?_⟩
  rw [getLsbD_applyAll, getLsbD_applyAll, hp, hms, hms, lastBit_append]

/-- If moreover the writes of `p` trail, the outcome is that of the serial order with `p` last. -/
theorem Interleaved.serial_of_trails
    (h : Interleaved (fun p => (Prog.script (ws p) (.ret (a p)) : Prog A n ε α)) rf t rf')
    (hun : Unsplit t) {p : Party} (hp : Trails p (traceWrites t)) :
    rf' = applyAll (ws p.other ++ ws p) rf := by
  obtain ⟨ms, hms, rfl, ht⟩ := h.merged hun
  rw [ht] at hp
  refine applyAll_congr (fun r i => ?_) rf
  rw [lastBit_merge_of_trails hp, hms, hms, lastBit_append]

/-- If the parties write different bits, the outcome is that of either serial order. -/
theorem Interleaved.serial_of_disjoint
    (h : Interleaved (fun p => (Prog.script (ws p) (.ret (a p)) : Prog A n ε α)) rf t rf')
    (hun : Unsplit t) (hdis : ∀ r i p, lastBit (ws p) r i = none ∨ lastBit (ws p.other) r i = none)
    (p : Party) : rf' = applyAll (ws p.other ++ ws p) rf := by
  obtain ⟨ms, hms, rfl, -⟩ := h.merged hun
  refine applyAll_congr (fun r i => ?_) rf
  obtain ⟨q, hq⟩ := lastBit_merge ms r i
  rw [hq, hms, hms, lastBit_append]
  rcases p.eq_or_other q with rfl | rfl
  · rfl
  · have hback : p.other.other = p := by cases p <;> rfl
    rw [hback]
    rcases hdis r i p with hnone | hnone <;> rw [hnone, Option.or_none, Option.none_or]

end TwoParties
end Registers
