import AximuxSystem.Foundation.Fallible
import AximuxSystem.Foundation.Patch

/-!
# The patch of the board

The script that prepares the harness edits five files of the emulator's sources:
it enters the core in the list and the map of the board, adds the function that
creates it and the options that build it. It may be run on a tree it has patched
already, or has patched in part.
-/

namespace AximuxSystem.Qemu.BoardPatch

open Patch
open scoped List

abbrev Text := List Char

/-- `word in text` -/
def contains (text : Text) (word : String) : Bool := decide (word.toList <:+: text)

/-- `read_text` reads each kind of line break as one character. -/
def universalNewlines : Text → Text
  | [] => []
  | '\r' :: '\n' :: cs => '\n' :: universalNewlines cs
  | '\r' :: cs => '\n' :: universalNewlines cs
  | c :: cs => c :: universalNewlines cs

/-! ### The patch functions -/

def marker : String := "/* AXIMUX_QEMU_HARNESS */"

/-- The lines of `CREATE_FN`. -/
def createFnLines : List String :=
  [ "",
    "static void create_aximux(const VirtMachineState *vms)",
    "\x7b",
    "    /* AXIMUX_QEMU_HARNESS */",
    "    MachineState *ms = MACHINE(vms);",
    "    DeviceState *dev = qdev_new(\"aximux\");",
    "    SysBusDevice *s = SYS_BUS_DEVICE(dev);",
    "    hwaddr base = vms->memmap[VIRT_AXIMUX].base;",
    "    hwaddr size = vms->memmap[VIRT_AXIMUX].size;",
    "    char *nodename;",
    "    int i;",
    "",
    "    qdev_prop_set_uint32(dev, \"npins\", 8);",
    "    qdev_prop_set_uint32(dev, \"nalts\", 4);",
    "    sysbus_realize_and_unref(s, &error_fatal);",
    "    sysbus_mmio_map(s, 0, base);",
    "",
    "    nodename = g_strdup_printf(\"/pinctrl@%\" PRIx64, base);",
    "    qemu_fdt_add_subnode(ms->fdt, nodename);",
    "    qemu_fdt_setprop_string(ms->fdt, nodename, \"compatible\",",
    "                            \"brunosmmm,aximux-2.0\");",
    "    qemu_fdt_setprop_sized_cells(ms->fdt, nodename, \"reg\", 2, base, 2, size);",
    "",
    "    for (i = 0; i < 4; i++) \x7b",
    "        char *pin = g_strdup_printf(\"%s/pin@%d\", nodename, i);",
    "        char *fns[] = \x7b (char *)\"alt0\", (char *)\"alt1\",",
    "                        (char *)\"alt2\", (char *)\"alt3\" \x7d;",
    "        qemu_fdt_add_subnode(ms->fdt, pin);",
    "        qemu_fdt_setprop_cell(ms->fdt, pin, \"reg\", i);",
    "        qemu_fdt_setprop_string_array(ms->fdt, pin, \"function-names\", fns, 4);",
    "        g_free(pin);",
    "    \x7d",
    "    g_free(nodename);",
    "\x7d",
    "" ]

def createFn : Text := createFnLines.flatMap fun line => line.toList ++ ['\n']

/-- What the patch functions that add one piece of text share: a text that has the word is left
alone, and one that lacks it after the edit is refused. -/
def patchOnce (word : String) (edit : Text → Text) (message : String) : Edit String Char :=
  fun text =>
    if contains text word then .ok none
    else
      let text := edit text
      if contains text word then .ok (some text) else .error message

def virtHNeedle : String := "    VIRT_ACPI_PCIHP,\n    VIRT_LOWMEMMAP_LAST,"

def virtHNew : String := "    VIRT_ACPI_PCIHP,\n    VIRT_AXIMUX,\n    VIRT_LOWMEMMAP_LAST,"

def patchVirtH : Edit String Char :=
  patchOnce "VIRT_AXIMUX" (replaceAll virtHNeedle.toList virtHNew.toList)
    "failed to insert VIRT_AXIMUX into virt.h"

def memmapNeedle : String :=
  "    [VIRT_ACPI_PCIHP] =         \x7b 0x090c0000, ACPI_PCIHP_SIZE \x7d,\n"

def memmapEntry : String := "    [VIRT_AXIMUX] =             \x7b 0x090d0000, 0x00001000 \x7d,\n"

/-- The first half of `patch_virt_c`. -/
def enterMemmap (text : Text) : Except String Text :=
  if contains text "[VIRT_AXIMUX]" then .ok text
  else if contains text memmapNeedle then
    .ok (replaceFirst memmapNeedle.toList (memmapNeedle.toList ++ memmapEntry.toList) text)
  else .error "memmap ACPI_PCIHP entry not found"

def anchor : String := "static void create_gpio_devices(const VirtMachineState *vms, int gpio,\n"

def callAnchor : String := "    create_virtio_devices(vms);\n"

def createCall : String := "    create_aximux(vms);\n"

/-- The second half of `patch_virt_c`. -/
def addCreation (text : Text) : Except String Text :=
  if contains text marker then .ok text
  else if contains text anchor then
    let text := replaceFirst anchor.toList (createFn ++ anchor.toList) text
    if contains text callAnchor then
      .ok (replaceFirst callAnchor.toList (createCall.toList ++ callAnchor.toList) text)
    else .error "create_virtio_devices call not found"
  else .error "create_gpio_devices not found"

/-- The file is written even where both halves find nothing to do. -/
def patchVirtC : Edit String Char := fun text => do
  let text ← enterMemmap text
  let text ← addCreation text
  return some text

def miscEntry : String := "\nconfig AXIMUX\n    bool\n"

/-- Unlike the others this one does not look for the word again. -/
def patchKconfigMisc : Edit String Char := fun text =>
  if contains text "config AXIMUX" then .ok none else .ok (some (text ++ miscEntry.toList))

def armNeedle : String := "config ARM_VIRT\n    bool\n"

def armNew : String := "config ARM_VIRT\n    bool\n    select AXIMUX\n"

def patchKconfigArm : Edit String Char :=
  patchOnce "select AXIMUX" (replaceFirst armNeedle.toList armNew.toList)
    "failed to select AXIMUX from ARM_VIRT"

def mesonNeedle : String :=
  "system_ss.add(when: 'CONFIG_VIRT_CTRL', if_true: files('virt_ctrl.c'))\n"

def mesonEntry : String := "system_ss.add(when: 'CONFIG_AXIMUX', if_true: files('aximux.c'))\n"

def patchMeson : Edit String Char :=
  patchOnce "aximux.c" (replaceFirst mesonNeedle.toList (mesonNeedle.toList ++ mesonEntry.toList))
    "failed to add aximux.c to meson.build"

/-! ### What a patch function owes -/

theorem contains_iff {text : Text} {word : String} :
    contains text word = true ↔ word.toList <:+: text := decide_eq_true_iff

theorem return_notMem (text : Text) : '\r' ∉ universalNewlines text := by
  fun_induction universalNewlines text with
  | case1 => exact List.not_mem_nil
  | case2 cs ih => simp [ih]
  | case3 cs hcrlf ih => simp [ih]
  | case4 c cs hcrlf hcr ih => exact List.not_mem_cons_of_ne_of_not_mem (Ne.symm hcr) ih

theorem universalNewlines_of_clean {text : Text} (h : '\r' ∉ text) :
    universalNewlines text = text := by
  fun_induction universalNewlines text with
  | case1 => rfl
  | case2 cs ih => simp at h
  | case3 cs hcrlf ih => simp at h
  | case4 c cs hcrlf hcr ih => rw [ih (List.not_mem_of_not_mem_cons h)]

/-- The edit only adds to a text, the words tell that it has been made, and it can be made where
the needles are. -/
structure Inserts (edit : Edit String Char) (words needles : List String) : Prop where
  keeps : ∀ text r, edit text = .ok r → text <+ r.getD text
  clean : ∀ text r, edit text = .ok r → '\r' ∉ text → '\r' ∉ r.getD text
  marks : ∀ text r, edit text = .ok r → ∀ word ∈ words, contains (r.getD text) word = true
  rests : ∀ text, (∀ word ∈ words, contains text word = true) → edit.LeavesAlone text
  accepts : ∀ text, (∀ needle ∈ needles, contains text needle = true) → ∃ r, edit text = .ok r

theorem patchOnce_cases {word message : String} {edit : Text → Text} {text : Text}
    {r : Option Text} (h : patchOnce word edit message text = .ok r) :
    r = none ∧ contains text word = true ∨
      r = some (edit text) ∧ contains (edit text) word = true := by
  simp only [patchOnce] at h
  split_ifs at h with hdone hmade
  · exact .inl ⟨(Except.ok.inj h).symm, hdone⟩
  · exact .inr ⟨(Except.ok.inj h).symm, hmade⟩

theorem patchOnce_done {word message : String} {edit : Text → Text} {text : Text}
    (h : contains text word = true) : patchOnce word edit message text = .ok none := if_pos h

theorem patchOnce_inserts {word message : String} {edit : Text → Text} {needles : List String}
    (hkeeps : ∀ text, text <+ edit text) (hclean : ∀ text, '\r' ∉ text → '\r' ∉ edit text)
    (hmarks : ∀ text, (∀ needle ∈ needles, contains text needle = true) →
      contains (edit text) word = true) :
    Inserts (patchOnce word edit message) [word] needles where
  keeps text r h := by
    rcases patchOnce_cases h with ⟨rfl, -⟩ | ⟨rfl, -⟩
    · exact .refl text
    · exact hkeeps text
  clean text r h hreturn := by
    rcases patchOnce_cases h with ⟨rfl, -⟩ | ⟨rfl, -⟩
    · exact hreturn
    · exact hclean text hreturn
  marks text r h := by
    rw [List.forall_mem_singleton]
    rcases patchOnce_cases h with ⟨rfl, hdone⟩ | ⟨rfl, hmade⟩
    · exact hdone
    · exact hmade
  rests text h := ⟨none, patchOnce_done (h word (List.mem_singleton_self _)), rfl⟩
  accepts text h := by
    simp only [patchOnce]
    split_ifs with hdone hmade
    · exact ⟨none, rfl⟩
    · exact ⟨some (edit text), rfl⟩
    · exact absurd (hmarks text h) hmade

theorem replaceFirst_clean {needle new text : Text} (hnew : '\r' ∉ new) (htext : '\r' ∉ text) :
    '\r' ∉ replaceFirst needle new text := fun h => (mem_replaceFirst h).elim htext hnew

/-- What is put for a needle keeps its letters and shows the word. -/
def Shows (word needle new : Text) : Prop :=
  needle ≠ [] ∧ needle <+ new ∧ '\r' ∉ new ∧ word <:+: new

instance (word needle new : Text) : Decidable (Shows word needle new) :=
  inferInstanceAs (Decidable (_ ∧ _ ∧ _ ∧ _))

theorem Shows.append {word needle entry : Text} (hne : needle ≠ []) (hneedle : '\r' ∉ needle)
    (hentry : '\r' ∉ entry) (hword : word <:+: entry) : Shows word needle (needle ++ entry) :=
  ⟨hne, List.sublist_append_left _ _, List.not_mem_append hneedle hentry,
    List.infix_append_of_infix_right hword⟩

/-- The functions that replace one needle. -/
theorem patchOnce_replaceFirst {word message needle : String} {new : Text}
    (h : Shows word.toList needle.toList new) :
    Inserts (patchOnce word (replaceFirst needle.toList new) message) [word] [needle] := by
  obtain ⟨hne, hneedle, hreturn, hword⟩ := h
  apply patchOnce_inserts
  · exact sublist_replaceFirst hne hneedle
  · exact fun text => replaceFirst_clean hreturn
  · intro text h
    have hfound := contains_iff.mp (h _ (List.mem_singleton_self _))
    exact contains_iff.mpr (hword.trans (new_replaceFirst new hne hfound))

theorem virtH_shows : Shows "VIRT_AXIMUX".toList virtHNeedle.toList virtHNew.toList := by
  unfold virtHNeedle virtHNew
  -- the decision procedure is given the letters: decoding the literals would cost it most
  rw [String.toList_ofList, String.toList_ofList, String.toList_ofList]
  decide

theorem patchVirtH_inserts : Inserts patchVirtH ["VIRT_AXIMUX"] [virtHNeedle] := by
  obtain ⟨hne, hneedle, hreturn, hword⟩ := virtH_shows
  apply patchOnce_inserts
  · exact sublist_replaceAll hne hneedle
  · exact fun text htext h => (mem_replaceFrom h).elim htext hreturn
  · intro text h
    have hfound := contains_iff.mp (h _ (List.mem_singleton_self _))
    exact contains_iff.mpr (hword.trans (new_replaceAll _ hne hfound))

theorem patchKconfigArm_inserts : Inserts patchKconfigArm ["select AXIMUX"] [armNeedle] := by
  apply patchOnce_replaceFirst
  unfold armNeedle armNew
  rw [String.toList_ofList, String.toList_ofList, String.toList_ofList]
  decide

theorem patchMeson_inserts : Inserts patchMeson ["aximux.c"] [mesonNeedle] := by
  apply patchOnce_replaceFirst
  unfold mesonNeedle mesonEntry
  rw [String.toList_ofList, String.toList_ofList, String.toList_ofList]
  apply Shows.append <;> decide

theorem miscEntry_shows : Shows "config AXIMUX".toList "config AXIMUX".toList miscEntry.toList := by
  unfold miscEntry
  rw [String.toList_ofList, String.toList_ofList]
  decide

theorem miscEntry_made (text : Text) :
    contains (text ++ miscEntry.toList) "config AXIMUX" = true :=
  contains_iff.mpr (List.infix_append_of_infix_right miscEntry_shows.2.2.2)

/-- The check the others make could not fail. -/
theorem patchKconfigMisc_eq (message : String) : patchKconfigMisc =
    patchOnce "config AXIMUX" (fun text => text ++ miscEntry.toList) message := by
  funext text
  simp only [patchKconfigMisc, patchOnce, miscEntry_made, if_true]

theorem patchKconfigMisc_inserts : Inserts patchKconfigMisc ["config AXIMUX"] [] := by
  rw [patchKconfigMisc_eq ""]
  apply patchOnce_inserts
  · exact fun text => List.sublist_append_left text _
  · exact fun text htext h => (List.mem_append.mp h).elim htext miscEntry_shows.2.2.1
  · exact fun text _ => miscEntry_made text

/-! ### The board file -/

theorem memmap_shows : Shows "[VIRT_AXIMUX]".toList memmapNeedle.toList
    (memmapNeedle.toList ++ memmapEntry.toList) := by
  unfold memmapNeedle memmapEntry
  rw [String.toList_ofList, String.toList_ofList, String.toList_ofList]
  apply Shows.append <;> decide

theorem memmapNeedle_line : memmapNeedle.toList.getLast? = some '\n' := by
  unfold memmapNeedle
  rw [String.toList_ofList]
  rfl

theorem call_shows : Shows callAnchor.toList callAnchor.toList
    (createCall.toList ++ callAnchor.toList) := by
  unfold callAnchor createCall
  rw [String.toList_ofList, String.toList_ofList]
  decide

theorem anchor_shows : Shows anchor.toList anchor.toList anchor.toList := by
  unfold anchor
  rw [String.toList_ofList]
  decide

theorem anchor_line : '\n' ∉ anchor.toList.dropLast := by
  unfold anchor
  rw [String.toList_ofList]
  decide

theorem callAnchor_line : '\n' ∉ callAnchor.toList.dropLast := by
  unfold callAnchor
  rw [String.toList_ofList]
  decide

theorem callAnchor_apart : apart callAnchor.toList anchor.toList = true := by
  unfold callAnchor anchor
  rw [String.toList_ofList, String.toList_ofList]
  decide

theorem line_of_createFn {line : String} (h : line ∈ createFnLines) :
    line.toList <:+: createFn := by
  unfold createFn
  apply List.infix_append_left.trans
  rw [List.flatMap_def]
  exact List.infix_of_mem_flatten (List.mem_map_of_mem h)

theorem createFn_clean : '\r' ∉ createFn := by
  have hlines : ∀ line ∈ createFnLines, '\r' ∉ line.toList := by
    simp only [createFnLines, List.forall_mem_cons, List.not_mem_nil, false_implies, implies_true,
      and_true]
    and_intros <;> rw [String.toList_ofList] <;> decide
  unfold createFn
  rw [List.mem_flatMap]
  rintro ⟨line, hline, hreturn⟩
  rcases List.mem_append.mp hreturn with hreturn | hreturn
  · exact hlines line hline hreturn
  · cases List.mem_singleton.mp hreturn

/-- The words that tell of the new function, which the call put into the file does not break. -/
theorem createFn_word {word : String} (h : word ∈ ["[VIRT_AXIMUX]", marker]) :
    word.toList <:+: createFn ∧ apart word.toList callAnchor.toList = true := by
  have hentry : "    hwaddr base = vms->memmap[VIRT_AXIMUX].base;" ∈ createFnLines := by
    simp [createFnLines]
  have hcomment : "    /* AXIMUX_QEMU_HARNESS */" ∈ createFnLines := by simp [createFnLines]
  rcases List.mem_pair.mp h with rfl | rfl
  · refine ⟨List.IsInfix.trans ?_ (line_of_createFn hentry), ?_⟩
    · rw [String.toList_ofList, String.toList_ofList]
      decide
    · unfold callAnchor
      rw [String.toList_ofList, String.toList_ofList]
      decide
  · refine ⟨List.IsInfix.trans ?_ (line_of_createFn hcomment), ?_⟩
    · unfold marker
      rw [String.toList_ofList, String.toList_ofList]
      decide
    · unfold marker callAnchor
      rw [String.toList_ofList, String.toList_ofList]
      decide

theorem enterMemmap_ok {text new : Text} (h : enterMemmap text = .ok new) :
    text <+ new ∧ ('\r' ∉ text → '\r' ∉ new) ∧ contains new "[VIRT_AXIMUX]" = true := by
  rw [enterMemmap] at h
  split_ifs at h with hdone hneedle
  · obtain rfl := Except.ok.inj h
    exact ⟨.refl text, id, hdone⟩
  · obtain rfl := Except.ok.inj h
    obtain ⟨hne, hkeeps, hreturn, hword⟩ := memmap_shows
    refine ⟨sublist_replaceFirst hne hkeeps text, replaceFirst_clean hreturn, ?_⟩
    exact contains_iff.mpr (hword.trans (new_replaceFirst _ hne (contains_iff.mp hneedle)))

/-- The entry breaks no line of the file. -/
theorem enterMemmap_accepts {text : Text} (h : contains text memmapNeedle = true) :
    ∃ new, enterMemmap text = .ok new ∧ ∀ word : String, '\n' ∉ word.toList.dropLast →
      contains text word = true → contains new word = true := by
  rw [enterMemmap]
  split_ifs with hdone
  · exact ⟨text, rfl, fun _ _ hword => hword⟩
  · refine ⟨_, rfl, fun word hline hword => contains_iff.mpr ?_⟩
    exact infix_replaceFirst_behind memmap_shows.1 memmapNeedle_line hline (contains_iff.mp hword)

/-- Whatever stands in the new function stays in one piece when the call is added. -/
theorem addCreation_ok {text new : Text} (h : addCreation text = .ok new) :
    text <+ new ∧ ('\r' ∉ text → '\r' ∉ new) ∧ contains new marker = true ∧
      (contains text "[VIRT_AXIMUX]" = true → contains new "[VIRT_AXIMUX]" = true) := by
  simp only [addCreation] at h
  split_ifs at h with hdone hanchor hcall
  · obtain rfl := Except.ok.inj h
    exact ⟨.refl text, id, hdone, id⟩
  · obtain rfl := Except.ok.inj h
    obtain ⟨hne, -, hanchorReturn, -⟩ := anchor_shows
    obtain ⟨hcallNe, hcallKeeps, hcallReturn, -⟩ := call_shows
    have hnew := new_replaceFirst (createFn ++ anchor.toList) hne (contains_iff.mp hanchor)
    have hkept : ∀ word ∈ ["[VIRT_AXIMUX]", marker], contains (replaceFirst callAnchor.toList
        (createCall.toList ++ callAnchor.toList) (replaceFirst anchor.toList
          (createFn ++ anchor.toList) text)) word = true := by
      intro word hmem
      obtain ⟨hword, hapart⟩ := createFn_word hmem
      exact contains_iff.mpr (infix_replaceFirst_before createCall.toList hcallNe hapart
        ((List.infix_append_of_infix_left hword).trans hnew))
    rw [List.forall_mem_cons, List.forall_mem_singleton] at hkept
    refine ⟨?_, fun htext => ?_, hkept.2, fun _ => hkept.1⟩
    · exact (sublist_replaceFirst hne (List.sublist_append_right _ _) text).trans
        (sublist_replaceFirst hcallNe hcallKeeps _)
    · exact replaceFirst_clean hcallReturn (replaceFirst_clean
        (fun h => (List.mem_append.mp h).elim createFn_clean hanchorReturn) htext)

theorem addCreation_accepts {text : Text} (hanchor : contains text anchor = true)
    (hcall : contains text callAnchor = true) : ∃ new, addCreation text = .ok new := by
  have hadded : contains (replaceFirst anchor.toList (createFn ++ anchor.toList) text)
      callAnchor = true :=
    contains_iff.mpr (infix_replaceFirst_before createFn anchor_shows.1 callAnchor_apart
      (contains_iff.mp hcall))
  simp only [addCreation, hanchor, hadded, if_true]
  split_ifs
  · exact ⟨text, rfl⟩
  · exact ⟨_, rfl⟩

theorem patchVirtC_ok {text : Text} {r : Option Text} (h : patchVirtC text = .ok r) :
    ∃ entered new, enterMemmap text = .ok entered ∧ addCreation entered = .ok new ∧
      r = some new := by
  obtain ⟨entered, hentered, h⟩ := Fallible.bind_eq_ok.mp h
  obtain ⟨new, hnew, h⟩ := Fallible.bind_eq_ok.mp h
  exact ⟨entered, new, hentered, hnew, (Except.ok.inj h).symm⟩

theorem patchVirtC_done {text : Text} (hentry : contains text "[VIRT_AXIMUX]" = true)
    (hmarker : contains text marker = true) : patchVirtC text = .ok (some text) := by
  have hentered : enterMemmap text = .ok text := if_pos hentry
  have hadded : addCreation text = .ok text := if_pos hmarker
  rw [patchVirtC, hentered, Fallible.ok_bind, hadded]
  rfl

theorem patchVirtC_inserts : Inserts patchVirtC ["[VIRT_AXIMUX]", marker]
    [memmapNeedle, anchor, callAnchor] where
  keeps text r h := by
    obtain ⟨entered, new, hentered, hnew, rfl⟩ := patchVirtC_ok h
    exact (enterMemmap_ok hentered).1.trans (addCreation_ok hnew).1
  clean text r h hreturn := by
    obtain ⟨entered, new, hentered, hnew, rfl⟩ := patchVirtC_ok h
    exact (addCreation_ok hnew).2.1 ((enterMemmap_ok hentered).2.1 hreturn)
  marks text r h := by
    obtain ⟨entered, new, hentered, hnew, rfl⟩ := patchVirtC_ok h
    obtain ⟨-, -, hmarker, hentry⟩ := addCreation_ok hnew
    rw [List.forall_mem_cons, List.forall_mem_singleton]
    exact ⟨hentry (enterMemmap_ok hentered).2.2, hmarker⟩
  rests text h := by
    rw [List.forall_mem_cons, List.forall_mem_singleton] at h
    exact ⟨some text, patchVirtC_done h.1 h.2, rfl⟩
  accepts text h := by
    simp only [List.forall_mem_cons] at h
    obtain ⟨entered, hentered, hkept⟩ := enterMemmap_accepts h.1
    obtain ⟨new, hnew⟩ := addCreation_accepts (hkept anchor anchor_line h.2.1)
      (hkept callAnchor callAnchor_line h.2.2.1)
    refine ⟨some new, ?_⟩
    rw [patchVirtC, hentered, Fallible.ok_bind, hnew]
    rfl

/-! ### The run -/

/-- A patch function, with the words it leaves in its file and the needles it looks for. -/
structure FilePatch where
  edit : Edit String Char
  words : List String
  needles : List String
  inserts : Inserts edit words needles

/-- The calls of `main`, in order, with the paths below the source directory. -/
def patches : List (String × FilePatch) :=
  [("include/hw/arm/virt.h", ⟨patchVirtH, _, _, patchVirtH_inserts⟩),
    ("hw/arm/virt.c", ⟨patchVirtC, _, _, patchVirtC_inserts⟩),
    ("hw/misc/Kconfig", ⟨patchKconfigMisc, _, _, patchKconfigMisc_inserts⟩),
    ("hw/arm/Kconfig", ⟨patchKconfigArm, _, _, patchKconfigArm_inserts⟩),
    ("hw/misc/meson.build", ⟨patchMeson, _, _, patchMeson_inserts⟩)]

/-- A patch function reads its file before it looks into it. -/
def onFile (edit : Edit String Char) : Edit String Char := fun raw => edit (universalNewlines raw)

def edits : List (String × Edit String Char) := patches.map fun p => (p.1, onFile p.2.edit)

/-- `main`: the files below the source directory afterwards, and the paths reported as patched. -/
def main (src : String → Option Text) : Result String String Char := run edits src

theorem Inserts.settles {edit : Edit String Char} {words needles : List String}
    (h : Inserts edit words needles) : (onFile edit).Settles := by
  intro raw new hnew
  have hclean : '\r' ∉ new := h.clean _ _ hnew (return_notMem raw)
  obtain ⟨r, hr, hsame⟩ := h.rests new (h.marks _ _ hnew)
  refine ⟨r, ?_, hsame⟩
  rwa [onFile, universalNewlines_of_clean hclean]

theorem mem_edits {entry : String × Edit String Char} :
    entry ∈ edits ↔ ∃ p ∈ patches, entry = (p.1, onFile p.2.edit) := by
  rw [edits, List.mem_map]
  constructor
  · rintro ⟨p, hp, rfl⟩
    exact ⟨p, hp, rfl⟩
  · rintro ⟨p, hp, rfl⟩
    exact ⟨p, hp, rfl⟩

theorem edits_settle : ∀ entry ∈ edits, entry.2.Settles := by
  intro entry hentry
  obtain ⟨p, -, rfl⟩ := mem_edits.mp hentry
  exact p.2.inserts.settles

theorem edits_paths : (edits.map Prod.fst).Nodup := by decide

theorem completed_words {src : String → Option Text} (h : (main src).fault = none) :
    ∀ p ∈ patches, ∃ text, (main src).files p.1 = some text ∧
      ∀ word ∈ p.2.words, contains (universalNewlines text) word = true := by
  intro p hp
  obtain ⟨text, r, -, hr, hnew⟩ := run_completed edits_paths h _ (mem_edits.mpr ⟨p, hp, rfl⟩)
  have hmarks := p.2.inserts.marks _ _ hr
  refine ⟨_, hnew, ?_⟩
  cases r with
  | none => exact hmarks
  | some new =>
    have hclean : '\r' ∉ new := p.2.inserts.clean _ _ hr (return_notMem text)
    rwa [Option.getD_some, universalNewlines_of_clean hclean]

/-- Over a tree that has been patched, the board file alone is written again. -/
theorem written_again {src : String → Option Text} (h : (main src).fault = none) :
    (main (main src).files).written = ["hw/arm/virt.c"] := by
  have hwords := completed_words h
  simp only [patches, List.forall_mem_cons, List.not_mem_nil, false_implies,
    implies_true, and_true] at hwords
  obtain ⟨⟨t₁, hf₁, hw₁⟩, ⟨t₂, hf₂, hw₂⟩, ⟨t₃, hf₃, hw₃⟩, ⟨t₄, hf₄, hw₄⟩, ⟨t₅, hf₅, hw₅⟩⟩ := hwords
  have he₁ : onFile patchVirtH t₁ = .ok none := patchOnce_done hw₁
  have he₂ : onFile patchVirtC t₂ = .ok (some (universalNewlines t₂)) :=
    patchVirtC_done hw₂.1 hw₂.2
  have he₃ : onFile patchKconfigMisc t₃ = .ok none := if_pos hw₃
  have he₄ : onFile patchKconfigArm t₄ = .ok none := patchOnce_done hw₄
  have he₅ : onFile patchMeson t₅ = .ok none := patchOnce_done hw₅
  generalize (main src).files = files at hf₁ hf₂ hf₃ hf₄ hf₅ ⊢
  simp [main, edits, patches, run, hf₁, hf₂, hf₃, hf₄, hf₅, he₁, he₂, he₃, he₄, he₅]

/-- What the script promises for the files it is run over. -/
structure Repeatable (src : String → Option Text) : Prop where
  again : (main (main src).files).ending = (main src).ending
  resumes : ∀ fault, (main src).fault = some fault → ∀ exchanged,
    (main (Function.update (main src).files fault.path exchanged)).ending =
      (main (Function.update src fault.path exchanged)).ending
  rewrites : (main src).fault = none → (main (main src).files).written = ["hw/arm/virt.c"]
  keeps : ∀ path text, src path = some text → ∃ new, (main src).files path = some new ∧
    (new = text ∨ universalNewlines text <+ new)
  absent : ∀ path, src path = none → (main src).files path = none
  others : ∀ path ∉ patches.map Prod.fst, (main src).files path = src path
  completes : (∀ p ∈ patches, ∃ text, src p.1 = some text ∧
    ∀ needle ∈ p.2.needles, contains (universalNewlines text) needle = true) →
    (main src).fault = none
  marked : (main src).fault = none → ∀ p ∈ patches, ∃ text, (main src).files p.1 = some text ∧
    ∀ word ∈ p.2.words, contains (universalNewlines text) word = true

/-- Whatever the files are, the script may be run again: after a run that completed, after one
that stopped, and after the file it stopped at has been put right. -/
theorem patch_repeatable (src : String → Option Text) : Repeatable src where
  again := run_repeats edits_settle edits_paths src
  resumes fault h exchanged := run_resumes edits_settle edits_paths h exchanged
  rewrites := written_again
  keeps path text h := by
    rcases run_file edits_paths src path with hsame | ⟨edit, old, new, hmem, hfile, hedit, hnew⟩
    · exact ⟨text, hsame.trans h, .inl rfl⟩
    · obtain ⟨p, -, hp⟩ := mem_edits.mp hmem
      obtain ⟨rfl, rfl⟩ := Prod.mk.inj hp
      obtain rfl := Option.some.inj (hfile.symm.trans h)
      exact ⟨new, hnew, .inr (p.2.inserts.keeps _ _ hedit)⟩
  absent path h := by
    rcases run_file edits_paths src path with hsame | ⟨edit, old, new, -, hfile, -, -⟩
    · exact hsame.trans h
    · cases hfile.symm.trans h
  others path h := run_frame (by rwa [edits, List.map_map]) src
  completes h := by
    apply run_completes edits_paths
    intro entry hentry
    obtain ⟨p, hp, rfl⟩ := mem_edits.mp hentry
    obtain ⟨text, hfile, hneedles⟩ := h p hp
    obtain ⟨r, hr⟩ := p.2.inserts.accepts _ hneedles
    exact ⟨text, r, hfile, hr⟩
  marked := completed_words

end AximuxSystem.Qemu.BoardPatch
