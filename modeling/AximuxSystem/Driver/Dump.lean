import AximuxSystem.Driver.Pinconf
import AximuxSystem.Foundation.Observer
import AximuxSystem.Foundation.Report
import AximuxSystem.Foundation.Text

/-!
# What the driver reports of a pin

The driver shows the state of a pin in three ways: a line of the `srcsel` dump,
the debug text of the pin, and the configuration reads. All three are functions
of the pin's register word, and what is printed can be read back, so that they
never disagree.
-/

namespace AximuxSystem.Driver

open Registers Fallible

/-! ### The register word as a pin state -/

/-- The settings of a pin. -/
structure PinView where
  src : ℕ
  short : Bool
  dirSw : Bool
  dirOut : Bool
  deriving DecidableEq, Repr

namespace PinView

def flag (view : PinView) : ConfigParam → Bool
  | .short => view.short
  | .dirSw => view.dirSw
  | .dirOut => view.dirOut

/-- The settings a register word stands for. -/
def ofWord (word : BitVec 32) : PinView where
  src := srcField word
  short := word.getLsbD 5
  dirSw := word.getLsbD 6
  dirOut := word.getLsbD 7

/-- The low byte of a register that holds these settings and nothing else. -/
def byte (view : PinView) : ℕ :=
  view.src + 32 * view.short.toNat + 64 * view.dirSw.toNat + 128 * view.dirOut.toNat

/-- The fields of the debug text. -/
def fields (view : PinView) : List (String × ℕ) :=
  [("src", view.src), ("short", view.short.toNat), ("diren", view.dirSw.toNat),
    ("dirctl", view.dirOut.toNat)]

end PinView

theorem flag_ofWord (word : BitVec 32) (q : ConfigParam) :
    (PinView.ofWord word).flag q = word.getLsbD q.bit := by
  cases q <;> rfl

theorem srcField_eq_mod (word : BitVec 32) : srcField word = word.toNat % 16 := by
  rw [srcField, BitVec.toNat_and]
  exact Nat.and_two_pow_sub_one_eq_mod word.toNat 4

theorem lowByte_eq_mod (word : BitVec 32) : (word &&& 0xff).toNat = word.toNat % 256 := by
  rw [BitVec.toNat_and]
  exact Nat.and_two_pow_sub_one_eq_mod word.toNat 8

theorem toNat_getLsbD (word : BitVec 32) (i : ℕ) :
    (word.getLsbD i).toNat = word.toNat / 2 ^ i % 2 := by
  rw [← BitVec.testBit_toNat, Nat.toNat_testBit]

/-- Besides the settings the low byte holds the reserved bit 4. -/
theorem lowByte_eq_byte (word : BitVec 32) :
    (word &&& 0xff).toNat = (PinView.ofWord word).byte + 16 * (word.getLsbD 4).toNat := by
  have hbyte : (PinView.ofWord word).byte = word.toNat % 16 + 32 * (word.toNat / 2 ^ 5 % 2) +
      64 * (word.toNat / 2 ^ 6 % 2) + 128 * (word.toNat / 2 ^ 7 % 2) := by
    rw [← toNat_getLsbD, ← toNat_getLsbD, ← toNat_getLsbD, ← srcField_eq_mod]
    rfl
  rw [lowByte_eq_mod, hbyte, toNat_getLsbD]
  omega

/-! ### The dump -/

/-- The names the dump prints, each with the low byte of the pin's register, where the `k`-th
register is read from `o k`. -/
def dumpEntries (o : ℕ → RegFile ℕ 32) (pins : List AximuxPin) (k : ℕ) : List (String × ℕ) :=
  (pins.zipIdx k).map fun pin => (pin.1.name, (o pin.2 (aximuxReg pin.1.number) &&& 0xff).toNat)

theorem map_fst_dumpEntries (o : ℕ → RegFile ℕ 32) (pins : List AximuxPin) (k : ℕ) :
    (dumpEntries o pins k).map Prod.fst = pins.map AximuxPin.name := by
  conv_rhs => rw [← List.zipIdx_map_fst k pins, List.map_map]
  rw [dumpEntries, List.map_map]
  rfl

/-- With all reads answered from the same registers, places play no role. -/
theorem dumpEntries_const (rf : RegFile ℕ 32) (pins : List AximuxPin) (k : ℕ) :
    dumpEntries (fun _ => rf) pins k =
      pins.map fun pin => (pin.name, (rf (aximuxReg pin.number) &&& 0xff).toNat) := by
  conv_rhs => rw [← List.zipIdx_map_fst k pins, List.map_map]
  rfl

theorem getElem?_dumpEntries {o : ℕ → RegFile ℕ 32} {pins : List AximuxPin} {i : ℕ}
    {pin : AximuxPin} (h : pins[i]? = some pin) (k : ℕ) : (dumpEntries o pins k)[i]? =
      some (pin.name, (o (k + i) (aximuxReg pin.number) &&& 0xff).toNat) := by
  rw [dumpEntries, List.getElem?_map, List.getElem?_zipIdx, h]
  rfl

theorem hexByte_eq (v : ℕ) : hexByte v = String.ofList (Report.hexDigits 2 v) := rfl

/-- The longest line of the dump: a name of five characters, a byte and three separators. -/
theorem dumpLine_length {number : ℕ} (h : number < aximuxMaxPins) (v : ℕ) :
    (Report.hexLine 2 (pinName number, v) ++ ['\n']).length ≤ 11 := by
  have hname : ∀ n < 32, (pinName n).toList.length ≤ 5 := by decide
  have hlen := hname number h
  simp only [Report.hexLine, List.length_append, List.length_cons, Report.length_hexDigits,
    List.length_nil]
  omega

theorem scnprintf_of_lt {size : ℕ} {text : String} (h : text.toList.length < size) :
    scnprintf size text = text := by
  rw [scnprintf, List.take_of_length_le (by omega), String.ofList_toList]

section Show

variable {amx : Aximux} {o : ℕ → RegFile ℕ 32}

theorem readOnly_fetch {α : Type} (xs : List α) (i : ℕ) : (fetch xs i).ReadOnly := by
  rw [fetch]
  split <;> trivial

theorem readOnly_srcselShow : (srcselShow amx).ReadOnly := by
  refine Prog.ReadOnly.foldlM (fun buf i => ?_) _ _
  exact (readOnly_fetch amx.pins i).bind fun pin _ => trivial

/-- The loop over the pins from index `i` on. -/
theorem answered_srcselShow_from {rest : List AximuxPin} {i k : ℕ} {buf : String}
    (hrest : amx.pins.drop i = rest) (hname : ∀ pin ∈ rest, pin.name = pinName pin.number)
    (hlt : ∀ pin ∈ rest, pin.number < aximuxMaxPins)
    (hfits : buf.length + 11 * rest.length < pageSize) :
    ((List.range' i rest.length).foldlM (srcselShowPin amx) buf).answered o k =
      (.ok (buf ++ Report.hexReport 2 (dumpEntries o rest k)), k + rest.length) := by
  induction rest generalizing i k buf with
  | nil => simp [dumpEntries, Report.hexReport, Prog.answered]
  | cons pin rest ih =>
    rw [List.forall_mem_cons] at hname hlt
    have hpin : amx.pins[i]? = some pin := by
      rw [← List.head?_drop, hrest, List.head?_cons]
    have htail : amx.pins.drop (i + 1) = rest := by
      rw [← List.tail_drop, hrest, List.tail_cons]
    have hline : pin.name ++ ":0x" ++ hexByte (o k (aximuxReg pin.number) &&& 0xff).toNat ++ "\n" =
        Report.hexReport 2 (dumpEntries o [pin] k) := by
      apply String.toList_injective
      simp [Report.hexReport, dumpEntries, Report.hexLine, hexByte_eq]
    have hshort : (Report.hexReport 2 (dumpEntries o [pin] k)).length ≤ 11 := by
      simpa [Report.hexReport, dumpEntries, hname.1, ← String.length_toList] using
        dumpLine_length hlt.1 _
    rw [List.length_cons] at hfits
    rw [List.length_cons, List.range'_succ, List.foldlM_cons, srcselShowPin,
      fetch_of_getElem? hpin, Prog.ret_bind]
    change Prog.answered o (k + 1) (List.foldlM _ (buf ++ scnprintf (pageSize - buf.length)
      (pin.name ++ ":0x" ++ hexByte (o k (aximuxReg pin.number) &&& 0xff).toNat ++ "\n")) _) = _
    rw [hline, scnprintf_of_lt (by rw [String.length_toList]; omega),
      ih htail hname.2 hlt.2 (by rw [String.length_append]; omega)]
    refine Prod.ext ?_ (Nat.add_right_comm k 1 rest.length)
    simp [dumpEntries, Report.hexReport, String.append_assoc]

end Show

variable {info : BitVec 32} {np : List OfNode} {amx : Aximux}

/-- Pins of accepted tables bear the names the driver makes of their numbers. -/
theorem accepted_name (h : Accepts info np amx) {pin : AximuxPin} (hpin : pin ∈ amx.pins) :
    pin.name = pinName pin.number := by
  obtain ⟨-, -, pins, extra, hpins, -, rfl⟩ := tables_eq_ok.mp (accepts_iff.mp h)
  exact (pinTable_entry hpins hpin).2.1

/-- The dump has one line for each pin in table order and no line is cut off. -/
theorem answered_srcselShow (h : Accepts info np amx) (o : ℕ → RegFile ℕ 32) (k : ℕ) :
    (srcselShow amx).answered o k =
      (.ok (Report.hexReport 2 (dumpEntries o amx.pins k)), k + amx.pins.length) := by
  have hinv := tables_invariant (accepts_iff.mp h)
  have hfits : "".length + 11 * amx.pins.length < pageSize := by
    have hle := hinv.npins_le.trans hinv.hwPins_le
    rw [hinv.pins_length]
    unfold aximuxMaxPins at hle
    unfold pageSize
    rw [String.length_empty]
    omega
  rw [srcselShow, ← hinv.pins_length, List.range_eq_range',
    answered_srcselShow_from List.drop_zero (fun pin hpin => accepted_name h hpin)
      (fun pin hpin => lt_of_lt_of_le (hinv.pin_lt pin hpin) hinv.hwPins_le) hfits,
    String.empty_append]

theorem run_srcselShow (h : Accepts info np amx) (rf : RegFile ℕ 32) :
    (srcselShow amx).run rf =
      (.ok (Report.hexReport 2 (dumpEntries (fun _ => rf) amx.pins 0)), rf) := by
  rw [readOnly_srcselShow.run rf 0, answered_srcselShow h]

theorem isName_pinName (number : ℕ) : Report.IsName (pinName number) := by
  have hchars : ∀ c ∈ (pinName number).toList, c ∈ ['p', 'i', 'n'] ∨ c.isDigit = true := by
    intro c hc
    rw [pinName, String.toList_append, List.mem_append] at hc
    exact hc.imp id Text.isDigit_of_mem_toString
  constructor
  · intro hc
    rcases hchars _ hc with hc | hc
    · exact absurd hc (by decide)
    · exact absurd hc (by decide)
  · intro hc
    rcases hchars _ hc with hc | hc
    · exact absurd hc (by decide)
    · exact absurd hc (by decide)

/-- The dump reads back as the names of the pins with the low bytes of their registers. -/
theorem readHexReport_dump (h : Accepts info np amx) (o : ℕ → RegFile ℕ 32) (k : ℕ) :
    Report.readHexReport (Report.hexReport 2 (dumpEntries o amx.pins k)) =
      some (dumpEntries o amx.pins k) := by
  rw [Report.readHexReport_hexReport, dumpEntries, List.map_map]
  · congr 1
    refine List.map_congr_left fun pin _ => Prod.ext rfl (Nat.mod_eq_of_lt ?_)
    change (o pin.2 (aximuxReg pin.1.number) &&& 0xff).toNat < 256
    rw [lowByte_eq_mod]
    exact Nat.mod_lt _ (by decide)
  · intro e he
    obtain ⟨pin, hpin, rfl⟩ := List.mem_map.mp he
    change Report.IsName pin.1.name
    rw [accepted_name h (List.fst_mem_of_mem_zipIdx hpin)]
    exact isName_pinName pin.1.number

/-! ### The debug text -/

/-- How the debug text prints the flag of a parameter. -/
def flagText (word : BitVec 32) (q : ConfigParam) : String :=
  if word &&& BitVec.twoPow 32 q.bit ≠ 0 then "1" else "0"

theorem flagText_eq (word : BitVec 32) (q : ConfigParam) :
    flagText word q = toString ((PinView.ofWord word).flag q).toNat := by
  have hbit := and_twoPow_ne_zero word q
  rw [flagText, flag_ofWord]
  cases hval : word.getLsbD q.bit with
  | false =>
    rw [if_neg (mt hbit.mp (by rw [hval]; decide))]
    rfl
  | true =>
    rw [if_pos (hbit.mpr hval)]
    rfl

theorem fieldsText_fields (view : PinView) : Report.fieldsText view.fields =
    "src=" ++ toString view.src ++ " short=" ++ toString view.short.toNat ++
      " diren=" ++ toString view.dirSw.toNat ++ " dirctl=" ++ toString view.dirOut.toNat := by
  apply String.toList_injective
  simp [Report.fieldsText, PinView.fields, Report.fieldText, List.intercalate, List.intersperse,
    Nat.toString_eq_repr, Nat.toList_repr]

/-- The debug text of a pin spells the settings in its register. -/
theorem run_aximuxPinDbgShow (pin : ℕ) (rf : RegFile ℕ 32) :
    (aximuxPinDbgShow pin).run rf =
      (.ok (Report.fieldsText (PinView.ofWord (rf (aximuxReg pin))).fields), rf) := by
  change (Except.ok ("src=" ++ toString (srcField (rf (aximuxReg pin))) ++ " short=" ++
    flagText (rf (aximuxReg pin)) .short ++ " diren=" ++ flagText (rf (aximuxReg pin)) .dirSw ++
    " dirctl=" ++ flagText (rf (aximuxReg pin)) .dirOut), rf) = _
  rw [fieldsText_fields, flagText_eq, flagText_eq, flagText_eq]
  rfl

theorem readFields_fields (view : PinView) :
    Report.readFields (Report.fieldsText view.fields) = some view.fields :=
  Report.readFields_fieldsText (List.cons_ne_nil _ _) (by simp [PinView.fields])

/-! ### The three views -/

/-- The debug text of the pin and its configuration reads show these settings. -/
def ShowsView (rf : RegFile ℕ 32) (pin : ℕ) (view : PinView) : Prop :=
  (∃ text, (aximuxPinDbgShow pin).run rf = (.ok text, rf) ∧
    Report.readFields text = some view.fields) ∧
  ∀ (q : ConfigParam) (config : BitVec 32), pinconfToConfigParam config = q.code →
    ∃ word, (aximuxPinconfGet pin config).run rf = (.ok word, rf) ∧
      pinconfToConfigParam word = q.code ∧
      pinconfToConfigArgument word = if view.flag q then 1 else 0

theorem showsView_ofWord (rf : RegFile ℕ 32) (pin : ℕ) :
    ShowsView rf pin (PinView.ofWord (rf (aximuxReg pin))) := by
  refine ⟨⟨_, run_aximuxPinDbgShow pin rf, readFields_fields _⟩, fun q config hparam => ?_⟩
  rw [flag_ofWord]
  exact run_aximuxPinconfGet pin q hparam rf

/-- Whatever the registers hold, the dump is complete, reads back as one entry for each pin in
table order, and the byte of an entry is made of the settings that the debug text and the
configuration reads show for the pin, and of the reserved bit. Nothing is changed. -/
theorem reports_agree (h : Accepts info np amx) (rf : RegFile ℕ 32) : ∃ dump entries,
    (srcselShow amx).run rf = (.ok dump, rf) ∧ Report.readHexReport dump = some entries ∧
    entries.map Prod.fst = amx.pins.map AximuxPin.name ∧
    ∀ (i : ℕ) (pin : AximuxPin), amx.pins[i]? = some pin →
      ∃ view : PinView, ShowsView rf pin.number view ∧
      entries[i]? = some
        (pin.name, view.byte + 16 * ((rf (aximuxReg pin.number)).getLsbD 4).toNat) := by
  refine ⟨_, _, run_srcselShow h rf, readHexReport_dump h _ 0, ?_, fun i pin hpin => ?_⟩
  · rw [map_fst_dumpEntries]
  · refine ⟨_, showsView_ofWord rf pin.number, ?_⟩
    rw [getElem?_dumpEntries hpin, lowByte_eq_byte]

theorem reports_agree_sample : ∃ dump entries,
    (srcselShow sampleTables).run (fun _ => 0xa2) = (.ok dump, fun _ => 0xa2) ∧
    Report.readHexReport dump = some entries ∧ entries.map Prod.fst = ["pin0", "pin2"] := by
  obtain ⟨dump, entries, hrun, hread, hnames, -⟩ :=
    reports_agree sampleTables_accepted fun _ => 0xa2
  exact ⟨dump, entries, hrun, hread, hnames⟩

end AximuxSystem.Driver
