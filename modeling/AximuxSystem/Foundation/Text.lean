import Mathlib.Data.List.TakeWhile
import Mathlib.Tactic

/-!
# Text operations of a scripting language

Splitting, prefix and suffix tests and the few shapes of pattern substitution
the tools use, as functions on character lists: a pattern anchored at the
start, a pattern anchored at the end, and one character class. The end anchor
also matches before a final newline, and a decimal digit is any character of
the Unicode category Nd.
-/

namespace Text

/-! ### Decimal digits -/

/-- The zeros of the runs of ten decimal digits of Unicode 14. -/
def decimalZeros : List ℕ :=
  [0x30, 0x660, 0x6f0, 0x7c0, 0x966, 0x9e6, 0xa66, 0xae6, 0xb66, 0xbe6, 0xc66, 0xce6, 0xd66, 0xde6,
    0xe50, 0xed0, 0xf20, 0x1040, 0x1090, 0x17e0, 0x1810, 0x1946, 0x19d0, 0x1a80, 0x1a90, 0x1b50,
    0x1bb0, 0x1c40, 0x1c50, 0xa620, 0xa8d0, 0xa900, 0xa9d0, 0xa9f0, 0xaa50, 0xabf0, 0xff10,
    0x104a0, 0x10d30, 0x11066, 0x110f0, 0x11136, 0x111d0, 0x112f0, 0x11450, 0x114d0, 0x11650,
    0x116c0, 0x11730, 0x118e0, 0x11950, 0x11c50, 0x11d50, 0x11da0, 0x16a60, 0x16ac0, 0x16b50,
    0x1d7ce, 0x1d7d8, 0x1d7e2, 0x1d7ec, 0x1d7f6, 0x1e140, 0x1e2f0, 0x1e950, 0x1fbf0]

/-- The value of a decimal digit. -/
def decimal (c : Char) : Option ℕ :=
  (decimalZeros.find? fun z => decide (z ≤ c.toNat ∧ c.toNat < z + 10)).map (c.toNat - ·)

/-- `\d` -/
def isDecimal (c : Char) : Bool := (decimal c).isSome

/-- `int(digits)` -/
def decimalValue (digits : List Char) : ℕ :=
  digits.foldl (fun n c => 10 * n + (decimal c).getD 0) 0

/-! ### Numbers in a text -/

theorem isDigit_of_mem_toString {n : ℕ} {c : Char} (h : c ∈ (toString n).toList) :
    c.isDigit = true := by
  rw [Nat.toString_eq_repr, Nat.toList_repr] at h
  exact Nat.isDigit_of_mem_toDigits (by decide) (by decide) h

theorem toString_ne_nil (n : ℕ) : (toString n).toList ≠ [] := by
  rw [Nat.toString_eq_repr, Nat.toList_repr]
  exact Nat.toDigits_ne_nil

theorem decimal_of_isDigit {c : Char} (h : c.isDigit = true) :
    decimal c = some (c.toNat - '0'.toNat) := by
  obtain ⟨hlo, hhi⟩ := Char.isDigit_iff_toNat.mp h
  have hrange : 0x30 ≤ c.toNat ∧ c.toNat < 0x30 + 10 := ⟨hlo, Nat.lt_succ_of_le hhi⟩
  have hfound : decimalZeros.find? (fun z => decide (z ≤ c.toNat ∧ c.toNat < z + 10)) =
      some 0x30 := List.find?_cons_of_pos (decide_eq_true hrange)
  rw [decimal, hfound]
  rfl

theorem isDecimal_of_isDigit {c : Char} (h : c.isDigit = true) : isDecimal c = true := by
  rw [isDecimal, decimal_of_isDigit h]
  rfl

theorem isDecimal_of_mem_toString {n : ℕ} {c : Char} (h : c ∈ (toString n).toList) :
    isDecimal c = true :=
  isDecimal_of_isDigit (isDigit_of_mem_toString h)

/-- `int(str(n)) == n` -/
theorem decimalValue_toString (n : ℕ) : decimalValue (toString n).toList = n := by
  have hvalue : decimalValue (toString n).toList = Nat.ofDigitChars 10 (toString n).toList 0 := by
    refine List.foldl_ext _ _ _ fun v c hc => ?_
    rw [decimal_of_isDigit (isDigit_of_mem_toString hc)]
    rfl
  rw [hvalue, Nat.toString_eq_repr, Nat.toList_repr, Nat.ofDigitChars_ten_toDigits]

/-- A number ends where something else begins. -/
theorem splitDigits_toString {rest : List Char} (h : ∀ c ∈ rest.head?, isDecimal c = false)
    (n : ℕ) : ((toString n).toList ++ rest).takeWhile isDecimal = (toString n).toList ∧
      ((toString n).toList ++ rest).dropWhile isDecimal = rest := by
  have hdigits : ∀ c ∈ (toString n).toList, isDecimal c = true := fun c hc =>
    isDecimal_of_mem_toString hc
  rw [List.takeWhile_append_of_pos hdigits, List.dropWhile_append_of_pos hdigits]
  cases rest with
  | nil => simp
  | cons c cs =>
    have hc : ¬ isDecimal c = true := by simp [h c rfl]
    rw [List.takeWhile_cons_of_neg hc, List.dropWhile_cons_of_neg hc, List.append_nil]
    exact ⟨rfl, rfl⟩

theorem toString_injective : Function.Injective (toString : ℕ → String) := by
  intro m n h
  have hdigits : Nat.toDigits 10 m = Nat.toDigits 10 n := by
    rw [← Nat.toList_repr, ← Nat.toList_repr, ← Nat.toString_eq_repr, ← Nat.toString_eq_repr, h]
  rw [← Nat.ofDigitChars_ten_toDigits (n := m), hdigits, Nat.ofDigitChars_ten_toDigits]

/-- The text does not end in a digit. -/
def EndsPlain (s : String) : Prop := ∀ c ∈ s.toList.getLast?, c.isDigit = false

theorem dropDigits_append {s : String} (hs : EndsPlain s) (n : ℕ) :
    (s ++ toString n).toList.reverse.dropWhile Char.isDigit = s.toList.reverse := by
  have hdigits : ∀ c ∈ (toString n).toList.reverse, c.isDigit = true := fun c hc =>
    isDigit_of_mem_toString (List.mem_reverse.mp hc)
  rw [String.toList_append, List.reverse_append, List.dropWhile_append_of_pos hdigits]
  cases hrev : s.toList.reverse with
  | nil => rfl
  | cons c cs =>
    have hlast : s.toList.getLast? = some c := by
      rw [← List.reverse_reverse s.toList, hrev, List.getLast?_reverse, List.head?_cons]
    rw [List.dropWhile_cons_of_neg]
    simp [hs c (Option.mem_def.mpr hlast)]

/-- A text that ends in a number ends in a digit. -/
theorem append_number_ne {t : String} (ht : EndsPlain t) (s : String) (n : ℕ) :
    s ++ toString n ≠ t := by
  rintro rfl
  have hne := toString_ne_nil n
  have hlast : (s ++ toString n).toList.getLast? = some ((toString n).toList.getLast hne) := by
    rw [String.toList_append, List.getLast?_append_of_ne_nil _ hne,
      List.getLast?_eq_getLast_of_ne_nil hne]
  have hdigit := isDigit_of_mem_toString (List.getLast_mem hne)
  rw [ht _ (Option.mem_def.mpr hlast)] at hdigit
  cases hdigit

/-- A number behind a text that does not end in a digit can be told from the text. -/
theorem append_number_inj {s t : String} (hs : EndsPlain s) (ht : EndsPlain t) {m n : ℕ}
    (h : s ++ toString m = t ++ toString n) : s = t ∧ m = n := by
  have htext : s.toList.reverse = t.toList.reverse := by
    rw [← dropDigits_append hs m, h, dropDigits_append ht n]
  have hst : s = t := String.toList_injective (List.reverse_injective htext)
  subst t
  exact ⟨rfl, toString_injective (String.append_right_inj s |>.mp h)⟩

/-! ### Parts of a text -/

/-- `s.startswith(prefix)` -/
def startsWith (s start : String) : Bool := start.toList.isPrefixOf s.toList

/-- `s.split(c, 1)[0]` -/
def beforeFirst (c : Char) (s : String) : String := String.ofList (s.toList.takeWhile (· != c))

/-- `s.rsplit(c, 1)[0]` -/
def beforeLast (c : Char) (s : String) : String :=
  match s.toList.reverse.dropWhile (· != c) with
  | [] => s
  | _ :: front => String.ofList front.reverse

/-- A start without the separator is one of the first part. -/
theorem startsWith_beforeFirst {c : Char} {start : String} (h : c ∉ start.toList) (s : String) :
    startsWith (beforeFirst c s) start = startsWith s start := by
  rw [Bool.eq_iff_iff, startsWith, startsWith, beforeFirst, String.toList_ofList,
    List.isPrefixOf_iff_prefix, List.isPrefixOf_iff_prefix]
  constructor
  · exact fun hpre => hpre.trans (List.takeWhile_prefix _)
  · rintro ⟨rest, hrest⟩
    have hall : ∀ a ∈ start.toList, (a != c) = true := fun a ha =>
      bne_iff_ne.mpr fun heq => h (heq ▸ ha)
    rw [← hrest, List.takeWhile_append_of_pos hall]
    exact List.prefix_append _ _

/-- What follows the separator does not count. -/
theorem beforeFirst_append (c : Char) (s t : String) :
    beforeFirst c (s ++ (String.ofList [c] ++ t)) = beforeFirst c s := by
  have hstop : (c :: t.toList).takeWhile (· != c) = [] := List.takeWhile_cons_of_neg (by simp)
  rw [beforeFirst, beforeFirst, String.toList_append, String.toList_append, String.toList_ofList,
    List.singleton_append, List.takeWhile_append, hstop, List.append_nil]
  split_ifs with hlen
  · rw [(List.takeWhile_prefix _).eq_of_length hlen]
  · rfl

/-- What the end anchor leaves behind the match: nothing, or a final newline. -/
def splitFinalNewline (cs : List Char) : List Char × List Char :=
  if cs.getLast? = some '\n' then (cs.dropLast, ['\n']) else (cs, [])

/-- The text without a suffix of it. -/
def dropSuffix? (suffix cs : List Char) : Option (List Char) :=
  if suffix.isSuffixOf cs then some (cs.take (cs.length - suffix.length)) else none

/-- The text and the longest run of digits at its end. -/
def splitFinalDigits (cs : List Char) : List Char × List Char :=
  ((cs.reverse.dropWhile isDecimal).reverse, (cs.reverse.takeWhile isDecimal).reverse)

/-! ### Substitutions -/

/-- `re.sub("^" + start + r"(\d+)\.", new + r"\1.", s)` -/
def subNumbered (start new s : String) : String :=
  if startsWith s start then
    let rest := s.toList.drop start.length
    let digits := rest.takeWhile isDecimal
    let tail := rest.dropWhile isDecimal
    if digits ≠ [] ∧ tail.head? = some '.' then String.ofList (new.toList ++ digits ++ tail) else s
  else s

/-- `re.sub(old + "$", new, s)` -/
def subFinal (old new s : String) : String :=
  let (body, rest) := splitFinalNewline s.toList
  match dropSuffix? old.toList body with
  | some front => String.ofList (front ++ new.toList ++ rest)
  | none => s

/-- `re.sub(old + r"(\d+)$", new + r"\1", s)`, where `old` does not end in a digit -/
def subFinalNumber (old new s : String) : String :=
  let (body, rest) := splitFinalNewline s.toList
  let (front, digits) := splitFinalDigits body
  match dropSuffix? old.toList front with
  | some front =>
    if digits ≠ [] then String.ofList (front ++ new.toList ++ digits ++ rest) else s
  | none => s

def isWordChar (c : Char) : Bool := c.isAlphanum || c == '_'

/-- `re.sub(r"[^A-Za-z0-9_]", "_", s)` -/
def sanitize (s : String) : String :=
  String.ofList (s.toList.map fun c => if isWordChar c then c else '_')

theorem sanitize_chars (s : String) : ∀ c ∈ (sanitize s).toList, isWordChar c = true := by
  intro c hc
  rw [sanitize, String.toList_ofList, List.mem_map] at hc
  obtain ⟨a, -, rfl⟩ := hc
  split_ifs with ha
  · exact ha
  · decide

example : subFinalNumber ".capturetrig" ".pwm_cap" "axi_timer_3.capturetrig12" =
    "axi_timer_3.pwm_cap12" := by decide +kernel

example : subNumbered "axi_iic_" "i2c" "axi_iic_0.scl" = "i2c0.scl" := by decide +kernel

end Text
