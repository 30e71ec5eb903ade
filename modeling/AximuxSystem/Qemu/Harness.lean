import AximuxSystem.Driver.Dump
import AximuxSystem.Driver.NamedCalls
import AximuxSystem.Qemu.Migration
import AximuxSystem.Qemu.Simulation

/-!
# The guest test

`create_aximux` of `scripts/patch-virt.py` puts the emulated device on the
board and four pin nodes into the device tree; `guest/init.sh` selects a
function on a pin by name and looks for the pin's line in the dump. The board
adds the nodes one by one, and in which order the guest meets them is open.
-/

namespace AximuxSystem.Qemu

open Registers Driver Hardware Fallible

/-! ### The nodes of the board -/

def harnessFunctions : List String := ["alt0", "alt1", "alt2", "alt3"]

/-- The node of one pin. -/
def harnessPin (i : ℕ) : OfNode :=
  .ofProps ("pin@" ++ toString i) true
    [("reg", .cells [i]), ("function-names", .strings harnessFunctions)]

/-- What the driver keeps of the node. -/
def harnessRecord (i : ℕ) : AximuxPin := ⟨i, pinName i, 4, harnessFunctions⟩

def harnessTables (order : List ℕ) : Aximux := assemble 4 (order.map harnessRecord) []

theorem pinName_inj {i j : ℕ} (h : pinName i = pinName j) : i = j :=
  Text.toString_injective ((String.append_right_inj _).mp h)

theorem isPinNode_harnessPin (i : ℕ) : isPinNode (harnessPin i) = true := rfl

theorem isGroupNode_harnessPin (i : ℕ) : isGroupNode (harnessPin i) = false := rfl

theorem pinEntry_harnessPin {i : ℕ} (hi : i < 8) :
    pinEntry 8 (harnessPin i) = .ok (harnessRecord i) := by
  have hnames : nodeNames (harnessPin i) = .ok harnessFunctions := rfl
  exact pinEntry_eq_ok.mpr ⟨i, _, rfl, hi, hnames, rfl⟩

/-- The board says what the sample core says. -/
theorem harness_info :
    device.read harnessDevice Driver.aximuxRegMuxinfo = sampleCore.info := by
  rw [sampleCore_info]
  rfl

section Tables

variable {order : List ℕ}

theorem harness_accepted (horder : order.Perm (List.range 4)) :
    Accepts sampleCore.info (order.map harnessPin) (harnessTables order) := by
  have hpins : pinNodes (order.map harnessPin) = order.map harnessPin :=
    List.filter_eq_self.mpr (List.forall_mem_map.mpr fun i _ => isPinNode_harnessPin i)
  have hgroups : groupNodes (order.map harnessPin) = [] :=
    List.filter_eq_nil_iff.mpr (List.forall_mem_map.mpr fun i _ => by
      simp [isGroupNode_harnessPin])
  have hlen : order.length = 4 := horder.length_eq
  have hlt : ∀ i ∈ order, i < 4 := fun i hi => List.mem_range.mp (horder.mem_iff.mp hi)
  have hne : order.map harnessPin ≠ [] := by
    intro h
    have hzero := congrArg List.length h
    rw [List.length_map, hlen] at hzero
    cases hzero
  have hentries : (order.map harnessPin).mapM (pinEntry 8) = .ok (order.map harnessRecord) := by
    rw [mapM_eq_ok, List.forall₂_map_left_iff, List.forall₂_map_right_iff]
    exact List.forall₂_same.mpr fun i hi => pinEntry_harnessPin (by have := hlt i hi; omega)
  have hinfo : infoPins sampleCore.info = 8 := infoPins_info sampleCore
  rw [accepts_iff, tables_eq_ok, hinfo]
  refine ⟨by decide, by decide, order.map harnessRecord, [], ?_, ?_, ?_⟩
  · rw [pinTable, hpins, if_neg hne, if_neg (by rw [List.length_map]; omega)]
    exact hentries
  · rw [extraTable, hgroups]
    rfl
  · rw [altLimit_info]
    rfl

/-- Select alternate `sel.2` on pin `sel.1`, by the names of the board. -/
def harnessSelection (sel : ℕ × ℕ) : Selection :=
  ⟨"alt" ++ toString sel.2, pinName sel.1, [sel]⟩

theorem harness_served (horder : order.Perm (List.range 4)) {sel : ℕ × ℕ} (hpin : sel.1 < 4)
    (halt : sel.2 < 4) : (harnessSelection sel).Served (harnessTables order) := by
  have hinv := accepted_invariant (harness_accepted horder)
  have hmem : harnessRecord sel.1 ∈ order.map harnessRecord :=
    List.mem_map_of_mem (horder.mem_iff.mpr (List.mem_range.mpr hpin))
  have hgroups : ((harnessTables order).groups.map AximuxGroup.name).Nodup := by
    have hnames : (harnessTables order).groups.map AximuxGroup.name = order.map pinName := by
      rw [harnessTables, group_names, List.map_map]
      exact List.append_nil _
    rw [hnames]
    exact (horder.nodup_iff.mpr List.nodup_range).map fun _ _ => pinName_inj
  have hname : harnessFunctions[sel.2]? = some ("alt" ++ toString sel.2) := by
    have hall : ∀ a < 4, harnessFunctions[a]? = some ("alt" ++ toString a) := by decide
    exact hall sel.2 halt
  have hnodup : harnessFunctions.Nodup := by decide
  constructor
  · exact pin_routes hinv hgroups hmem hnodup hname (by omega)
  · exact List.forall_mem_singleton.mpr (show sel.1 < 2 ^ 30 by omega)

end Tables

/-! ### Runs of the guest -/

/-- Requests over the board have the replies they have over storage. -/
theorem execAll_harness {np : List OfNode} {amx : Aximux} (h : Accepts sampleCore.info np amx)
    {reqs : List Request} (hreqs : ∀ req ∈ reqs, req.Valid amx) :
    (Prog.execAll device (reqs.map (Request.prog amx)) harnessDevice).1 =
      (Prog.runAll (reqs.map (Request.prog amx)) sampleCore.reset).1 := by
  have hsafe : ∀ p ∈ reqs.map (Request.prog amx),
      p.Safe sampleCore.SrcselAddress (fun _ => Fits sampleCore.srcselMask) fun _ => True := by
    intro p hp
    obtain ⟨req, hreq, rfl⟩ := List.mem_map.mp hp
    exact request_safe h (hreqs req hreq)
  have hreset : Emulates sampleCore sampleCore.reset harnessDevice := by
    refine ⟨rfl, Core.reset_muxinfo, fun idx hidx => ?_⟩
    rw [Core.reset_srcsel hidx, show harnessDevice.srcsel idx = 0 from rfl,
      and_eq_of_fits (fits_zero _)]
  have hstorage := (storage_agrees_slave sampleCore).execAll hsafe (mirrors_reset sampleCore)
  have hboard := (slave_agrees sampleCore).execAll hsafe ⟨hreset, fun _ => fits_zero _⟩
  exact hboard.1.symm.trans hstorage.1.symm

/-- The replies to calls that succeed and to a dump after them. -/
theorem runAll_dump {info : BitVec 32} {np : List OfNode} {amx : Aximux} (h : Accepts info np amx)
    {calls : List Call} {rf : RegFile ℕ 32} (hsucc : Succeeds amx calls rf) :
    (Prog.runAll ((calls.map Request.call ++ [Request.srcselShow]).map (Request.prog amx)) rf).1 =
      calls.map (fun _ => .ok .done) ++ [.ok (.dump (Report.hexReport 2
        (dumpEntries (fun _ => (runCalls amx calls rf).2) amx.pins 0)))] := by
  induction calls generalizing rf with
  | nil =>
    have hshow : (Request.srcselShow.prog amx).run rf = _ :=
      Prog.run_bind_of_ok (run_srcselShow h rf)
    change [((Request.srcselShow.prog amx).run rf).1] = _
    rw [hshow]
    rfl
  | cons c calls ih =>
    have hcons : runCalls amx (c :: calls) rf =
        (((c.prog amx).run rf).1 :: (runCalls amx calls ((c.prog amx).run rf).2).1,
          (runCalls amx calls ((c.prog amx).run rf).2).2) := rfl
    rw [Succeeds, hcons, List.forall_mem_cons] at hsucc
    have hcall : ((Request.call c).prog amx).run rf = (.ok .done, ((c.prog amx).run rf).2) :=
      Prog.run_bind_of_ok (Prod.ext hsucc.1 rfl)
    rw [List.map_cons, List.cons_append, List.map_cons, Prog.runAll_cons, hcall, ih hsucc.2, hcons]
    rfl

/-! ### The test -/

/-- `grep -q` for a pattern of plain characters -/
def grep (pattern text : String) : Bool :=
  (text.toList.splitOn '\n').any fun line => decide (pattern.toList <:+: line)

/-- The line of the dump the test looks for. -/
def expectedLine (pin alt : ℕ) : String := "pin" ++ toString pin ++ ":0x0" ++ toString alt

/-- The line of one pin contains the expected line of another one only if they are the same. -/
theorem expectedLine_within : ∀ i < 4, ∀ v < 4, ∀ pin < 4, ∀ alt < 4,
    (expectedLine pin alt).toList <:+: Report.hexLine 2 (pinName i, v) ↔ i = pin ∧ v = alt := by
  have hlen : ∀ i < 4, ∀ v < 4, (Report.hexLine 2 (pinName i, v)).length = 9 := by decide
  have hline : ∀ i < 4, ∀ v < 4, (expectedLine i v).toList = Report.hexLine 2 (pinName i, v) := by
    decide
  intro i hi v hv pin hpin alt halt
  rw [hline pin hpin alt halt]
  constructor
  · intro h
    have heq := h.eq_of_length ((hlen pin hpin alt halt).trans (hlen i hi v hv).symm)
    have hentry (i v : ℕ) : Report.readHexLine (Report.hexLine 2 (pinName i, v)) =
        some (pinName i, v % 16 ^ 2) := Report.readHexLine_hexLine 2 (isName_pinName i).1
    have hread := congrArg Report.readHexLine heq
    rw [hentry, hentry] at hread
    obtain ⟨hname, hval⟩ := Prod.mk.inj (Option.some.inj hread)
    rw [Nat.mod_eq_of_lt (by omega), Nat.mod_eq_of_lt (by omega)] at hval
    exact ⟨(pinName_inj hname).symm, hval.symm⟩
  · rintro ⟨rfl, rfl⟩
    exact List.infix_refl _

/-- What the test finds in a dump with one entry for each of the four pins. -/
theorem grep_dump {order : List ℕ} (horder : order.Perm (List.range 4)) {shown : ℕ → ℕ}
    (hshown : ∀ i < 4, shown i < 4) {pin alt : ℕ} (hpin : pin < 4) (halt : alt < 4) :
    grep (expectedLine pin alt)
      (Report.hexReport 2 (order.map fun i => (pinName i, shown i))) = true ↔ shown pin = alt := by
  have hmem : ∀ i, i ∈ order ↔ i < 4 := fun i => horder.mem_iff.trans List.mem_range
  have hlines : (Report.hexReport 2 (order.map fun i => (pinName i, shown i))).toList.splitOn '\n' =
      (order.map fun i => Report.hexLine 2 (pinName i, shown i)) ++ [[]] := by
    rw [Report.hexReport, String.toList_ofList, ← Report.splitOn_terminated, List.flatMap_map,
      List.flatMap_map]
    intro l hl
    obtain ⟨i, -, rfl⟩ := List.mem_map.mp hl
    exact Report.newline_notMem_hexLine 2 (isName_pinName i).2
  have hempty : ¬ (expectedLine pin alt).toList <:+: [] := by
    intro h
    have hlen := h.length_le
    simp [expectedLine] at hlen
  simp only [grep, hlines, List.any_append, List.any_cons, List.any_nil, hempty, decide_false,
    Bool.or_false, List.any_map, List.any_eq_true, Function.comp, decide_eq_true_eq, hmem]
  constructor
  · rintro ⟨i, hi, hin⟩
    obtain ⟨rfl, hval⟩ := (expectedLine_within i hi _ (hshown i hi) pin hpin alt halt).mp hin
    exact hval
  · rintro rfl
    exact ⟨pin, hpin, (expectedLine_within pin hpin _ halt pin hpin _ halt).mpr ⟨rfl, rfl⟩⟩

/-- The low byte of a register that holds nothing but the sources selected from reset. -/
theorem lowByte_reselected {targets : List (ℕ × ℕ)} {rf : RegFile ℕ 32}
    (h : Reselected targets sampleCore.reset rf) {pin : ℕ} (hpin : pin < 4) :
    (rf (aximuxReg pin) &&& 0xff).toNat = (Grouping.lastOf pin targets).getD 0 := by
  have hreset : sampleCore.reset (aximuxReg pin) = 0 :=
    reset_reg (lt_of_lt_of_le hpin (by decide))
  have hbit : ∀ i, 4 ≤ i → (rf (aximuxReg pin)).getLsbD i = false := by
    intro i hi
    rw [h.others _ i hi, hreset, BitVec.ofNat_eq_ofNat, BitVec.getLsbD_zero]
  have hsrc : srcField (rf (aximuxReg pin)) = (Grouping.lastOf pin targets).getD 0 := by
    rw [h.source pin (by omega), hreset]
    rfl
  rw [lowByte_eq_byte, hbit 4 le_rfl, PinView.byte]
  simp only [PinView.ofWord, hbit 5 (by decide), hbit 6 (by decide), hbit 7 (by decide), hsrc,
    Bool.toNat_false, Nat.mul_zero, Nat.add_zero]

/-- Whatever the order of the pin nodes, the driver accepts the board, and whatever functions are
selected by name on the four pins, all selections succeed and the test finds the expected line of
a pin and an alternate exactly if that alternate was selected last on the pin. -/
theorem guest_test_exact {order : List ℕ} (horder : order.Perm (List.range 4)) :
    aximuxRealize 8 4 = .ok harnessDevice ∧ ∃ amx,
      Accepts (device.read harnessDevice Driver.aximuxRegMuxinfo) (order.map harnessPin) amx ∧
      ∀ sels : List (ℕ × ℕ), (∀ sel ∈ sels, sel.1 < 4 ∧ sel.2 < 4) → ∃ calls dump,
        selectionCalls amx (sels.map harnessSelection) = some calls ∧
        (Prog.execAll device
          ((calls.map Request.call ++ [Request.srcselShow]).map (Request.prog amx))
            harnessDevice).1 = calls.map (fun _ => .ok .done) ++ [.ok (.dump dump)] ∧
        ∀ pin < 4, ∀ alt < 4, grep (expectedLine pin alt) dump = true ↔
          (Grouping.lastOf pin sels).getD 0 = alt := by
  have haccept := harness_accepted horder
  refine ⟨harnessDevice_realized, harnessTables order, by rw [harness_info]; exact haccept,
    fun sels hsels => ?_⟩
  have hserved : ∀ sel ∈ sels.map harnessSelection, sel.Served (harnessTables order) :=
    List.forall_mem_map.mpr fun sel hsel =>
      harness_served horder (hsels sel hsel).1 (hsels sel hsel).2
  have htargets : (sels.map harnessSelection).flatMap Selection.targets = sels := by
    rw [List.flatMap_map]
    exact List.flatMap_singleton' sels
  obtain ⟨calls, hcalls, hall, hrun⟩ := selectionCalls_run hserved
  obtain ⟨hsucc, hsel⟩ := hrun sampleCore.reset
  rw [htargets] at hsel
  have hreqs : ∀ req ∈ calls.map Request.call ++ [Request.srcselShow],
      req.Valid (harnessTables order) := by
    intro req hreq
    rcases List.mem_append.mp hreq with hreq | hreq
    · obtain ⟨c, hc, rfl⟩ := List.mem_map.mp hreq
      exact (hall c hc).1
    · rw [List.mem_singleton.mp hreq]
      trivial
  refine ⟨calls, _, hcalls, (execAll_harness haccept hreqs).trans (runAll_dump haccept hsucc),
    fun pin hpin alt halt => ?_⟩
  have hentries : dumpEntries (fun _ => (runCalls (harnessTables order) calls
      sampleCore.reset).2) (harnessTables order).pins 0 =
        order.map fun i => (pinName i, (Grouping.lastOf i sels).getD 0) := by
    rw [dumpEntries_const, harnessTables, assemble, List.map_map]
    refine List.map_congr_left fun i hi => Prod.ext rfl ?_
    exact lowByte_reselected hsel (List.mem_range.mp (horder.mem_iff.mp hi))
  rw [hentries]
  refine grep_dump horder (fun i _ => ?_) hpin halt
  cases hlast : Grouping.lastOf i sels with
  | none => decide
  | some a => exact (hsels _ (Grouping.mem_of_lastOf hlast)).2

/-- The selection `guest/init.sh` makes, after two others. -/
theorem guest_test_exact_sample : ∃ amx calls dump,
    selectionCalls amx ([(0, 3), (2, 2), (0, 1)].map harnessSelection) = some calls ∧
    (Prog.execAll device ((calls.map Request.call ++ [Request.srcselShow]).map
      (Request.prog amx)) harnessDevice).1 = calls.map (fun _ => .ok .done) ++ [.ok (.dump dump)] ∧
    grep "pin0:0x01" dump = true ∧ grep "pin0:0x03" dump = false := by
  have horder : [3, 2, 1, 0].Perm (List.range 4) := List.reverse_perm (List.range 4)
  obtain ⟨-, amx, -, hruns⟩ := guest_test_exact horder
  obtain ⟨calls, dump, hcalls, hreplies, hgrep⟩ := hruns [(0, 3), (2, 2), (0, 1)] (by decide)
  refine ⟨amx, calls, dump, hcalls, hreplies, (hgrep 0 (by decide) 1 (by decide)).mpr rfl, ?_⟩
  rw [← Bool.not_eq_true]
  exact fun h => absurd ((hgrep 0 (by decide) 3 (by decide)).mp h) (by decide)

end AximuxSystem.Qemu
