import AximuxSystem.Driver.Tables

/-!
# Children of the controller node

The open-firmware accessors are kernel code outside the driver. A child node
therefore carries, next to its properties, the result of every accessor the
driver may call on it, and the documented behaviour of the accessors as fields.
Nothing is assumed about reading a value that is neither a list of cells nor a
list of strings, nor about reading a value at the wrong type.
-/

namespace AximuxSystem.Driver

/-- Value of a property in the flattened tree. -/
inductive PropValue where
  | cells (xs : List ℕ)
  | strings (xs : List String)
  | raw
  deriving DecidableEq, Repr

structure OfNode where
  /-- Node name with its unit address. -/
  nodeName : String
  /-- `for_each_available_child_of_node` visits the node. -/
  available : Bool
  prop : String → Option PropValue
  /-- `of_property_read_u32` -/
  readU32 : String → Except Errno ℕ
  /-- `of_property_read_u32_array` into an array of `n` elements -/
  readU32Array : String → (n : ℕ) → Except Errno (Vector ℕ n)
  /-- `of_property_count_strings` -/
  countStrings : String → Except Errno ℕ
  /-- `of_property_read_string_index` -/
  readStringIndex : String → ℕ → Except Errno String
  /-- `of_property_read_string` -/
  readString : String → Except Errno String
  /-- `of_property_read_string_array` into an array of `n` elements -/
  readStringArray : String → (n : ℕ) → Except Errno (Vector String n)
  readU32_absent : ∀ p, prop p = none → readU32 p = .error .EINVAL
  readU32_cells : ∀ p x xs, prop p = some (.cells (x :: xs)) → readU32 p = .ok x
  readU32Array_absent : ∀ p n, prop p = none → readU32Array p n = .error .EINVAL
  readU32Array_short : ∀ p n xs, prop p = some (.cells xs) → xs.length < n →
    ∃ e, readU32Array p n = .error e
  readU32Array_cells : ∀ p n xs, prop p = some (.cells xs) → n ≤ xs.length →
    ∃ v, readU32Array p n = .ok v ∧ v.toList = xs.take n
  countStrings_absent : ∀ p, prop p = none → countStrings p = .error .EINVAL
  countStrings_strings : ∀ p x xs, prop p = some (.strings (x :: xs)) →
    countStrings p = .ok (x :: xs).length
  readStringIndex_strings : ∀ p xs i x, prop p = some (.strings xs) → xs[i]? = some x →
    readStringIndex p i = .ok x
  readString_absent : ∀ p, prop p = none → readString p = .error .EINVAL
  readString_strings : ∀ p x xs, prop p = some (.strings (x :: xs)) → readString p = .ok x
  readStringArray_strings : ∀ p n xs, prop p = some (.strings xs) → n ≤ xs.length →
    ∃ v, readStringArray p n = .ok v ∧ v.toList = xs.take n

namespace OfNode

/-- `child->name`: the node name up to its unit address. -/
def name (child : OfNode) : String :=
  String.ofList (child.nodeName.toList.takeWhile (· != '@'))

/-- `of_find_property` finds the property. -/
def findProperty (child : OfNode) (p : String) : Bool := (child.prop p).isSome

/-- The documented reading of a list of elements into an array of `n`. -/
def readArray {α : Type} (xs : List α) (n : ℕ) : Except Errno (Vector α n) :=
  if h : n ≤ xs.length then .ok ⟨(xs.take n).toArray, by simp [h]⟩ else .error .EOVERFLOW

theorem readArray_of_le {α : Type} {xs : List α} {n : ℕ} (h : n ≤ xs.length) :
    ∃ v, readArray xs n = .ok v ∧ v.toList = xs.take n := by
  refine ⟨⟨(xs.take n).toArray, by simp [h]⟩, ?_, rfl⟩
  rw [readArray, dif_pos h]

/-- A node with given properties whose accessors decline every value of another type. -/
def ofProps (nodeName : String) (available : Bool) (props : List (String × PropValue)) :
    OfNode where
  nodeName := nodeName
  available := available
  prop p := props.lookup p
  readU32 p :=
    match props.lookup p with
    | none => .error .EINVAL
    | some (.cells (x :: _)) => .ok x
    | some _ => .error .EOVERFLOW
  readU32Array p n :=
    match props.lookup p with
    | none => .error .EINVAL
    | some (.cells xs) => readArray xs n
    | some _ => .error .EOVERFLOW
  countStrings p :=
    match props.lookup p with
    | none => .error .EINVAL
    | some (.strings (x :: xs)) => .ok (x :: xs).length
    | some _ => .error .ENODATA
  readStringIndex p i :=
    match props.lookup p with
    | none => .error .EINVAL
    | some (.strings xs) => match xs[i]? with | some x => .ok x | none => .error .ENODATA
    | some _ => .error .EILSEQ
  readString p :=
    match props.lookup p with
    | none => .error .EINVAL
    | some (.strings (x :: _)) => .ok x
    | some _ => .error .ENODATA
  readStringArray p n :=
    match props.lookup p with
    | none => .error .EINVAL
    | some (.strings xs) => readArray xs n
    | some _ => .error .EILSEQ
  readU32_absent p h := by simp [h]
  readU32_cells p x xs h := by simp [h]
  readU32Array_absent p n h := by simp [h]
  readU32Array_short p n xs h hlt := ⟨.EOVERFLOW, by simp [h, readArray, not_le.mpr hlt]⟩
  readU32Array_cells p n xs h hle := by simpa [h] using readArray_of_le hle
  countStrings_absent p h := by simp [h]
  countStrings_strings p x xs h := by simp [h]
  readStringIndex_strings p xs i x h hi := by simp [h, hi]
  readString_absent p h := by simp [h]
  readString_strings p x xs h := by simp [h]
  readStringArray_strings p n xs h hle := by simpa [h] using readArray_of_le hle

end OfNode

/-- Two pins that share a function, and a group over both. -/
def sampleNodes : List OfNode :=
  [.ofProps "pin@0" true
    [("reg", .cells [0]), ("function-names", .strings ["gpio", "spi"])],
   .ofProps "pin@2" true
    [("reg", .cells [2]), ("function-names", .strings ["gpio", "uart"])],
   .ofProps "serial" true
    [("brunosmmm,pins", .strings ["pin2", "pin0"]), ("brunosmmm,mux", .cells [1, 0]),
     ("brunosmmm,function", .strings ["uart"])]]

end AximuxSystem.Driver
