import AximuxSystem.Tool.Nodes
import AximuxSystem.Driver.Binding
import AximuxSystem.Driver.Routing

/-!
# Emitted nodes as the driver sees them

The kernel hands the driver one child for every child of an emitted controller
node, with the values of the properties decoded from their text. A pin node
becomes the entry of a pin table that the generator means, a group node the
extra group.
-/

namespace AximuxSystem.Tool

open Collections Text Dts Driver Fallible

/-! ### From source text to the flattened tree -/

def decodeValue (value : String) : PropValue :=
  match readStrings value with
  | some xs => .strings xs
  | none =>
    match readCells value with
    | some xs => .cells xs
    | none => .raw

/-- The child of the flattened tree for a node of the source. -/
structure Represents (node : Node) (child : OfNode) : Prop where
  nodeName : child.nodeName = node.name
  available : node.props.lookup "status" = none → child.available = true
  prop : ∀ p, child.prop p = (node.props.lookup p).map decodeValue

/-- A child that represents a node. -/
def toChild (node : Node) : OfNode :=
  .ofProps node.name true (node.props.map fun p => (p.1, decodeValue p.2))

theorem represents_toChild (node : Node) : Represents node (toChild node) where
  nodeName := rfl
  available := fun _ => rfl
  prop := by
    intro p
    change (node.props.map fun p => (p.1, decodeValue p.2)).lookup p = _
    induction node.props with
    | nil => rfl
    | cons q qs ih =>
      rw [List.map_cons, List.lookup_cons, List.lookup_cons, ih]
      cases p == q.1 <;> rfl

theorem decodeValue_strings {value : String} {xs : List String} (h : Spells value.toList xs) :
    decodeValue value = .strings xs := by
  rw [decodeValue, readStrings_of_spells h]

theorem decodeValue_quote {s : String} (h : ∀ c ∈ s.toList, isPlain c = true) :
    decodeValue (quote s) = .strings [s] := decodeValue_strings (Spells.quote h)

theorem decodeValue_cells {xs : List ℕ} (hne : xs ≠ []) :
    decodeValue ("<" ++ " ".intercalate (xs.map toString) ++ ">") = .cells xs := by
  have hstrings : readStrings ("<" ++ " ".intercalate (xs.map toString) ++ ">") = none := by
    rw [readStrings, String.append_assoc, String.toList_append]
    rfl
  rw [decodeValue, hstrings, readCells_toString hne]

theorem decodeValue_cell (n : ℕ) : decodeValue ("<" ++ toString n ++ ">") = .cells [n] := by
  have hcells := decodeValue_cells (List.cons_ne_nil n [])
  rwa [List.map_singleton, String.intercalate_singleton] at hcells

theorem toNat_of_isWordChar {c : Char} (h : isWordChar c = true) :
    48 ≤ c.toNat ∧ c.toNat ≤ 57 ∨ 65 ≤ c.toNat ∧ c.toNat ≤ 90 ∨ c.toNat = 95 ∨
      97 ≤ c.toNat ∧ c.toNat ≤ 122 := by
  rw [isWordChar, Bool.or_eq_true, beq_iff_eq] at h
  rcases h with h | rfl
  · unfold Char.isAlphanum Char.isAlpha Char.isUpper Char.isLower Char.isDigit at h
    simp only [Bool.or_eq_true, Bool.and_eq_true, decide_eq_true_eq, UInt32.le_iff_toNat_le,
      ge_iff_le] at h
    change ((65 ≤ c.toNat ∧ c.toNat ≤ 90) ∨ (97 ≤ c.toNat ∧ c.toNat ≤ 122)) ∨
      (48 ≤ c.toNat ∧ c.toNat ≤ 57) at h
    omega
  · decide

/-- An identifier stands for itself in a string literal. -/
theorem isPlain_of_isWordChar {c : Char} (h : isWordChar c = true) : isPlain c = true := by
  have hrange := toNat_of_isWordChar h
  have hquote : c ≠ '"' := by
    rintro rfl
    exact absurd h (by decide)
  have hslash : c ≠ '\\' := by
    rintro rfl
    exact absurd h (by decide)
  rw [isPlain, bne_iff_ne.mpr hquote, bne_iff_ne.mpr hslash, Bool.true_and, Bool.true_and,
    decide_eq_true_eq]
  omega

theorem isPlain_pinName (n : ℕ) : ∀ c ∈ (pinName n).toList, isPlain c = true := by
  intro c hc
  rw [pinName, String.toList_append, List.mem_append] at hc
  rcases hc with hc | hc
  · fin_cases hc <;> rfl
  · refine isPlain_of_isWordChar ?_
    rw [isWordChar, Char.isAlphanum, isDigit_of_mem_toString hc, Bool.or_true, Bool.true_or]

/-! ### Pin nodes -/

section Pins

variable {re : Regex} {naming : Naming} {mux : Mux} {pin : Pin} {child : OfNode}

def pinRecord (re : Regex) (naming : Naming) (mux : Mux) (pin : Pin) : AximuxPin :=
  ⟨pin.index, pinName pin.index, (functionNames re naming mux pin).length,
    functionNames re naming mux pin⟩

theorem functionNames_ne (re : Regex) (naming : Naming) (mux : Mux) (pin : Pin) :
    functionNames re naming mux pin ≠ [] := by
  rw [functionNames, List.range_succ_eq_map]
  exact List.cons_ne_nil _ _

theorem getElem?_functionNames {a : ℕ} (ha : a ≤ pin.maxAlt) :
    (functionNames re naming mux pin)[a]? = some (fnFor re mux pin.index a naming) := by
  rw [functionNames, List.getElem?_map, List.getElem?_range (by omega)]
  rfl

theorem Represents.pin_names (h : Represents (pinNode re naming mux pin) child)
    (hplain : ∀ name ∈ functionNames re naming mux pin, ∀ c ∈ name.toList, isPlain c = true) :
    child.prop "function-names" = some (.strings (functionNames re naming mux pin)) := by
  have hspells := spells_csvStrings (functionNames_ne re naming mux pin) hplain 20
  rw [h.prop, ← decodeValue_strings hspells]
  rfl

/-- An emitted pin is a pin child of the binding. -/
theorem Represents.bindingPin (h : Represents (pinNode re naming mux pin) child)
    (hplain : ∀ name ∈ functionNames re naming mux pin, ∀ c ∈ name.toList, isPlain c = true) :
    BindingPin child pin.index where
  name := by
    refine ⟨(toString pin.index).toList, ?_, fun c hc => .inl (isDigit_of_mem_toString hc), ?_⟩
    · rw [Nat.toString_eq_repr, Nat.toList_repr]
      exact Nat.toDigits_ne_nil
    · rw [h.nodeName, String.ofList_append, String.ofList_toList, String.ofList_toList]
      rfl
  reg_cells := by
    rw [h.prop, ← decodeValue_cell]
    rfl
  functionNames := by
    obtain ⟨x, xs, hxs⟩ := List.exists_cons_of_ne_nil (functionNames_ne re naming mux pin)
    exact .inr ⟨x, xs, hxs ▸ h.pin_names hplain⟩
  alternateNames := .inl (h.prop _)
  noPins := h.prop _

theorem Represents.isPinNode (h : Represents (pinNode re naming mux pin) child)
    (hplain : ∀ name ∈ functionNames re naming mux pin, ∀ c ∈ name.toList, isPlain c = true) :
    isPinNode child = true :=
  isPinNode_eq_true.mpr ⟨h.available rfl, by rw [OfNode.findProperty, h.prop]; rfl, _,
    (h.bindingPin hplain).readU32⟩

/-- The driver's entry for an emitted pin. -/
theorem Represents.pinEntry {hwPins : ℕ} (h : Represents (pinNode re naming mux pin) child)
    (hplain : ∀ name ∈ functionNames re naming mux pin, ∀ c ∈ name.toList, isPlain c = true)
    (hindex : pin.index < hwPins) : pinEntry hwPins child = .ok (pinRecord re naming mux pin) := by
  have hprop := h.pin_names hplain
  obtain ⟨x, xs, hxs⟩ := List.exists_cons_of_ne_nil (functionNames_ne re naming mux pin)
  obtain ⟨v, hv, hlist⟩ := child.readStringArray_strings _ _ _ hprop le_rfl
  have hfind : child.findProperty "function-names" = true := by rw [OfNode.findProperty, hprop]; rfl
  have hcount : child.countStrings "function-names" =
      .ok (functionNames re naming mux pin).length := by
    rw [hxs] at hprop ⊢
    exact child.countStrings_strings _ x xs hprop
  have hnames : nodeNames child = .ok (functionNames re naming mux pin) := by
    simp only [nodeNames, namesProp, hfind, if_true, hcount, ok_bind, hv, hlist, List.take_length]
  exact pinEntry_eq_ok.mpr ⟨_, _, (h.bindingPin hplain).readU32, hindex, hnames, rfl⟩

end Pins

/-! ### Group nodes -/

section Groups

variable {name : String} {entries : List (ℕ × ℕ)} {child : OfNode}

/-- The extra group the driver registers for a node of a group or an alias. -/
def groupRecord (grp : String × List (ℕ × ℕ)) : ExtraGroup :=
  ⟨groupNodeName grp.1, grp.1, grp.2.map Prod.fst, grp.2.map Prod.snd, by simp⟩

theorem Represents.group_pins (h : Represents (groupNode (name, entries)) child)
    (hne : entries ≠ []) : child.prop "brunosmmm,pins" =
      some (.strings (entries.map fun e => pinName e.1)) := by
  have hplain : ∀ x ∈ entries.map fun e => pinName e.1, ∀ c ∈ x.toList, isPlain c = true :=
    List.forall_mem_map.mpr fun e _ => isPlain_pinName e.1
  have hspells := spells_csvRow (by simpa using hne) hplain
  rw [h.prop, ← decodeValue_strings hspells, csvRow, List.map_map]
  rfl

theorem Represents.group_mux (h : Represents (groupNode (name, entries)) child)
    (hne : entries ≠ []) : child.prop "brunosmmm,mux" =
      some (.cells (entries.map Prod.snd)) := by
  rw [h.prop, ← decodeValue_cells (by simpa using hne), List.map_map]
  rfl

theorem Represents.group_function (h : Represents (groupNode (name, entries)) child)
    (hname : ∀ c ∈ name.toList, isWordChar c = true) :
    child.prop "brunosmmm,function" = some (.strings [name]) := by
  rw [h.prop, ← decodeValue_quote fun c hc => isPlain_of_isWordChar (hname c hc)]
  rfl

/-- An emitted group is a group child of the binding, but for the names of its pins. -/
theorem Represents.bindingGroup (h : Represents (groupNode (name, entries)) child)
    (hne : entries ≠ []) (hname : ∀ c ∈ name.toList, isWordChar c = true) :
    BindingGroup child (entries.map fun e => pinName e.1) where
  name := ⟨name, h.nodeName⟩
  pins := h.group_pins hne
  pins_ne := by simpa using hne
  mux := .inr ⟨_, h.group_mux hne⟩
  function := .inr ⟨name, [], h.group_function hname⟩
  noReg := h.prop _

/-- The kernel's name of an emitted group is its whole node name. -/
theorem Represents.group_name (h : Represents (groupNode (name, entries)) child)
    (hname : ∀ c ∈ name.toList, isWordChar c = true) : child.name = groupNodeName name := by
  have hchars : ∀ c ∈ (groupNodeName name).toList, (c != '@') = true := by
    intro c hc
    rw [groupNodeName, String.toList_append, List.mem_append] at hc
    rw [bne_iff_ne]
    rintro rfl
    rcases hc with hc | hc
    · exact absurd (hname _ hc) (by decide)
    · exact absurd hc (by decide)
  rw [OfNode.name, h.nodeName]
  change String.ofList ((groupNodeName name).toList.takeWhile _) = _
  rw [List.takeWhile_eq_self_iff.mpr hchars, String.ofList_toList]

theorem Represents.isGroupNode (h : Represents (groupNode (name, entries)) child)
    (hne : entries ≠ []) (hname : ∀ c ∈ name.toList, isWordChar c = true) :
    isGroupNode child = true := by
  have hlen : entries.length ≠ 0 := by simpa using hne
  simp [Driver.isGroupNode, h.available rfl, (h.bindingGroup hne hname).size, hlen]

/-- The driver's entry for an emitted group whose pins it knows. -/
theorem Represents.extraEntry {pins : List AximuxPin}
    (h : Represents (groupNode (name, entries)) child) (hne : entries ≠ [])
    (hname : ∀ c ∈ name.toList, isWordChar c = true)
    (hpins : ∀ e ∈ entries, findPin pins (pinName e.1) = .ok e.1) :
    extraEntry pins child = .ok (groupRecord (name, entries)) := by
  have hmembers : groupPins pins child = .ok (entries.map Prod.fst) := by
    rw [groupPins, (h.bindingGroup hne hname).size, mapM_eq_ok, List.forall₂_iff_get]
    refine ⟨by simp, fun j hj hj' => ?_⟩
    have hlt : j < entries.length := by simpa using hj'
    have hstring := child.readStringIndex_strings _ _ j _ (h.group_pins hne)
      (List.getElem?_eq_getElem (by simpa using hlt))
    simp only [List.get_eq_getElem, List.getElem_range, List.getElem_map] at hstring ⊢
    rw [hstring, ok_bind, hpins _ (List.getElem_mem hlt)]
  have hsources : TreeSources child (entries.map Prod.fst).length (entries.map Prod.snd) :=
    .inr ⟨_, h.group_mux hne, by simp, by simp⟩
  have hfunction : TreeFunction child name := .inr ⟨[], h.group_function hname⟩
  simp only [Driver.extraEntry, hmembers, ok_bind, hsources.groupMux, hfunction.groupFunction,
    h.group_name hname]
  rfl

end Groups

/-! ### Children of a controller node -/

section Children

variable {re : Regex} {naming : Naming} {mux : Mux} {np : List OfNode}

/-- The children of the kernel's node are those of the pins, followed by those of the groups. -/
theorem controller_children
    (h : List.Forall₂ Represents (controllerNode re naming mux).children np) :
    ∃ ps gs, np = ps ++ gs ∧
      List.Forall₂ (fun pin child => Represents (pinNode re naming mux pin) child) mux.pins ps ∧
      List.Forall₂ (fun grp child => Represents (groupNode grp) child)
        (mux.emittedGroups re naming) gs := by
  change List.Forall₂ Represents
    (mux.pins.map (pinNode re naming mux) ++ (mux.emittedGroups re naming).map groupNode) np at h
  have hpins := List.forall₂_take (mux.pins.map (pinNode re naming mux)).length h
  have hgroups := List.forall₂_drop (mux.pins.map (pinNode re naming mux)).length h
  rw [List.take_left, List.forall₂_map_left_iff] at hpins
  rw [List.drop_left, List.forall₂_map_left_iff] at hgroups
  exact ⟨_, _, (List.take_append_drop _ np).symm, hpins, hgroups⟩

end Children

end AximuxSystem.Tool
