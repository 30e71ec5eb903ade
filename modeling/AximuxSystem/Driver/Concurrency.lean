import AximuxSystem.Driver.Pinconf
import AximuxSystem.Foundation.Interleaving

/-!
# Concurrent calls

The driver takes no lock, so two calls made at the same time interleave their
register accesses. A read-modify-write cycle that is split by the other call's
write to the same register loses that write. Where no cycle is split, a
selection and a configuration call commute, and two configuration calls end
every bit as one of the two serial orders does.
-/

namespace AximuxSystem.Driver

open Registers Fallible

/-- The calls made by the two parties. -/
abbrev CallPair := Party → Call

/-- The register file after both calls, that of `p` last. -/
def serial (amx : Aximux) (calls : CallPair) (p : Party) (rf : RegFile ℕ 32) : RegFile ℕ 32 :=
  (runCalls amx [calls p.other, calls p] rf).2

/-- The two calls run concurrently over `rf`, with accesses in the order `t`. -/
def Concurrent (amx : Aximux) (calls : CallPair) (rf : RegFile ℕ 32)
    (t : List (Party × Access ℕ)) (rf' : RegFile ℕ 32) : Prop :=
  Interleaved (fun p => (calls p).prog amx) rf t rf'

def Call.isSetMux : Call → Bool
  | .setMux _ _ => true
  | _ => false

section Unsplit

variable {amx : Aximux} {calls : CallPair} {rf rf' : RegFile ℕ 32} {t : List (Party × Access ℕ)}

theorem serial_eq (h : amx.Consistent) (hvalid : ∀ p, (calls p).Valid amx) (p : Party)
    (rf : RegFile ℕ 32) : serial amx calls p rf =
      applyAll ((calls p.other).writes amx ++ (calls p).writes amx) rf := by
  have hboth : ∀ c ∈ [calls p.other, calls p], c.Valid amx := by
    simp only [List.forall_mem_cons, List.not_mem_nil, false_imp_iff, implies_true, and_true]
    exact ⟨hvalid p.other, hvalid p⟩
  rw [serial, runCalls_eq h hboth]
  simp

/-- Both calls return 0 over `rf`. -/
def BothSucceed (amx : Aximux) (calls : CallPair) (rf : RegFile ℕ 32) : Prop :=
  ∀ p, (((calls p).prog amx).run rf).1 = .ok ()

theorem concurrent_iff_scripts (h : amx.Consistent) (hvalid : ∀ p, (calls p).Valid amx)
    (hok : BothSucceed amx calls rf) : Concurrent amx calls rf t rf' ↔
    Interleaved (fun p => (Prog.script ((calls p).writes amx) (.ret ()) : RegProg Unit))
      rf t rf' := by
  have hprogs : (fun p => (calls p).prog amx) =
      fun p => Prog.script ((calls p).writes amx) (.ret ()) := by
    funext p
    have hresult := hok p
    rw [Call.run_prog h (hvalid p)] at hresult
    exact Call.prog_of_ok h (hvalid p) hresult
  rw [Concurrent, hprogs]

/-- A selection and a configuration call write different bits. -/
theorem mux_config_disjoint {c c' : Call} (hc : c.isSetMux = true) (hc' : c'.isSetMux = false)
    (r i : ℕ) : lastBit (c.writes amx) r i = none ∨ lastBit (c'.writes amx) r i = none := by
  obtain ⟨f, g, rfl⟩ : ∃ f g, c = .setMux f g := by
    cases c with
    | setMux f g => exact ⟨f, g, rfl⟩
    | _ => cases hc
  by_cases hi : 4 ≤ i
  · exact .inl (lastBit_srcWrites_high _ r hi)
  · right
    rw [lastBit_eq_none_iff]
    intro w hw
    have hcfg : ∀ f g, c' ≠ .setMux f g := by
      rintro f g rfl
      cases hc'
    obtain ⟨pin, -, q, hreg, hmask⟩ := mem_config_writes hcfg hw
    have hne : ¬ i = q.bit := fun he => hi (he ▸ bit_ge q)
    rw [FieldWrite.covers, hmask, getLsbD_paramBit, decide_eq_false hne, Bool.and_false]

/-- Two concurrent calls that succeed and are not both selections, run without a split
read-modify-write cycle: one selection and one configuration call end as after either serial
order; two configuration calls end every bit as after one of the serial orders, and the whole file
as after the order with `p` last if at every register both write the writes of `p` trail. -/
theorem unsplit_calls_serial {info : BitVec 32} {np : List OfNode} (h : Accepts info np amx)
    (hvalid : ∀ p, (calls p).Valid amx) (hok : BothSucceed amx calls rf)
    (hmux : ∃ p, (calls p).isSetMux = false) (hrun : Concurrent amx calls rf t rf')
    (hun : Unsplit t) :
    ((∃ p, (calls p).isSetMux = true) → ∀ p, rf' = serial amx calls p rf) ∧
    (∀ r i, ∃ p, (rf' r).getLsbD i = (serial amx calls p rf r).getLsbD i) ∧
    (∀ p, Trails p (traceWrites t) → rf' = serial amx calls p rf) := by
  have hinv := tables_invariant (accepts_iff.mp h)
  have hscripts := (concurrent_iff_scripts hinv.consistent hvalid hok).mp hrun
  refine ⟨?_, ?_, ?_⟩
  · rintro ⟨p, hp⟩ q
    obtain ⟨p', hp'⟩ := hmux
    have hother : p' = p.other := by
      rcases p.eq_or_other p' with rfl | he
      · rw [hp] at hp'
        cases hp'
      · exact he
    subst hother
    rw [serial_eq hinv.consistent hvalid]
    refine hscripts.serial_of_disjoint hun (fun r i s => ?_) q
    have hdis : lastBit ((calls p).writes amx) r i = none ∨
        lastBit ((calls p.other).writes amx) r i = none := mux_config_disjoint hp hp' r i
    rcases p.eq_or_other s with rfl | rfl
    · exact hdis
    · have hback : p.other.other = p := by cases p <;> rfl
      rw [hback]
      exact hdis.symm
  · intro r i
    obtain ⟨p, hp⟩ := hscripts.bit_serial hun r i
    exact ⟨p, by rw [serial_eq hinv.consistent hvalid]; exact hp⟩
  · intro p hp
    rw [serial_eq hinv.consistent hvalid]
    exact hscripts.serial_of_trails hun hp

end Unsplit

/-! ### Orders of accesses that are not serial -/

/-- Over every table, register file and pair of calls that succeed and are not both selections,
every order of accesses that meets `P` ends as after one of the two serial orders. -/
def SerializableUnder (P : List (Party × Access ℕ) → Prop) : Prop :=
  ∀ info np amx, Accepts info np amx → ∀ calls : CallPair, (∀ p, (calls p).Valid amx) →
    (∃ p, (calls p).isSetMux = false) → ∀ rf t rf', BothSucceed amx calls rf →
    Concurrent amx calls rf t rf' → P t → ∃ p, rf' = serial amx calls p rf

/-- `spi` on pin 0 against setting SHORT of pin 0. -/
def muxAndShort : CallPair
  | .first => .setMux 1 0
  | .second => .pinconfSet 0 [0x180]

/-- Setting against clearing SHORT of both pins of a group. -/
def shortAndClear : CallPair
  | .first => .pinconfGroupSet 2 [0x180]
  | .second => .pinconfGroupSet 2 [0x080]

theorem muxAndShort_valid (p : Party) : (muxAndShort p).Valid sampleTables := by
  cases p with
  | first => exact ⟨by decide, by decide⟩
  | second => exact ⟨⟨0, "pin0", 2, ["gpio", "spi"]⟩, by decide, rfl⟩

theorem shortAndClear_valid (p : Party) : (shortAndClear p).Valid sampleTables := by
  cases p <;> exact show 2 < sampleTables.ngroups by decide

/-- A split cycle loses the update of SHORT; and where no cycle is split, two group calls can
still each come last on one pin. -/
theorem not_serializable : ¬ SerializableUnder (fun _ => True) ∧ ¬ SerializableUnder Unsplit := by
  have hcons := (tables_invariant tables_sample).consistent
  constructor
  · intro h
    have hok : BothSucceed sampleTables muxAndShort fun _ => 0 := fun p => by cases p <;> rfl
    have hrun := (concurrent_iff_scripts hcons muxAndShort_valid hok).mpr
      (.read .first rfl (.read .second rfl (.write .second rfl (.write .first rfl
        (.done fun p => by cases p <;> trivial)))))
    obtain ⟨p, hp⟩ := h _ _ _ sampleTables_accepted muxAndShort muxAndShort_valid ⟨.second, rfl⟩
      _ _ _ hok hrun trivial
    have hreg := congrFun hp 0
    cases p <;> exact absurd hreg (by decide)
  · intro h
    have hok : BothSucceed sampleTables shortAndClear fun _ => 0 := fun p => by cases p <;> rfl
    have hrun := (concurrent_iff_scripts hcons shortAndClear_valid hok).mpr
      (.read .first rfl (.write .first rfl (.read .second rfl (.write .second rfl
        (.read .second rfl (.write .second rfl (.read .first rfl (.write .first rfl
          (.done fun p => by cases p <;> trivial)))))))))
    obtain ⟨p, hp⟩ := h _ _ _ sampleTables_accepted shortAndClear shortAndClear_valid
      ⟨.second, rfl⟩ _ _ _ hok hrun (by decide)
    cases p with
    | first => exact absurd (congrFun hp 8) (by decide)
    | second => exact absurd (congrFun hp 0) (by decide)

/-- Selecting `spi` and setting SHORT one after the other, as an interleaving. -/
theorem unsplit_calls_serial_sample : ∃ t rf',
    Concurrent sampleTables muxAndShort (fun _ => 0) t rf' ∧
    rf' = serial sampleTables muxAndShort .first fun _ => 0 := by
  have hok : BothSucceed sampleTables muxAndShort fun _ => 0 := fun p => by cases p <;> rfl
  have hrun := (concurrent_iff_scripts (tables_invariant tables_sample).consistent
    muxAndShort_valid hok).mpr (.read .first rfl (.write .first rfl (.read .second rfl
      (.write .second rfl (.done fun p => by cases p <;> trivial)))))
  obtain ⟨hserial, -⟩ := unsplit_calls_serial sampleTables_accepted muxAndShort_valid hok
    ⟨.second, rfl⟩ hrun (by decide)
  exact ⟨_, _, hrun, hserial ⟨.first, rfl⟩ .first⟩

end AximuxSystem.Driver
