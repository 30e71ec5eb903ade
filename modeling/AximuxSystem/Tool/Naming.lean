import AximuxSystem.Tool.Netlist

/-!
# Naming of mux functions

The naming table and the functions that turn the label of a slot into the name
of a pin function or the name of a group. The rules of a table are patterns of
the scripting language's own library; what a rule makes of a label is a
parameter.
-/

namespace AximuxSystem.Tool

open Collections Text

/-- An entry of `rules`; a rule without a pattern or a replacement is passed over. -/
structure Rule where
  pattern : Option String
  replacement : Option String
  deriving DecidableEq, Repr

structure Naming where
  gpioPrefix : Option String
  gpioBases : Dict String ℤ
  overrides : Dict String String
  rules : List Rule
  consumerLabels : Dict String String
  groupAliases : Dict String String
  skipConsumers : List String

/-- The pattern library: `re.sub(pat, repl, label)` where `re.search(pat, label)` finds a match. -/
abbrev Regex := (pat repl label : String) → Option String

def gpioName (muxInst : String) (pin : ℕ) (naming : Naming) : String :=
  let gpio := naming.gpioPrefix.getD "gpio0"
  let base := (naming.gpioBases.get? muxInst).getD 0
  gpio ++ "." ++ toString (base + pin)

/-- The first rule that applies to the label. -/
def applyRules (re : Regex) (rules : List Rule) (label : String) : Option String :=
  rules.findSome? fun rule =>
    match rule.pattern, rule.replacement with
    | some pat, some repl => if pat ≠ "" then re pat repl label else none
    | _, _ => none

/-- The renamings every label without an override or a rule goes through. -/
def builtinRules (label : String) : String :=
  let out := subNumbered "axi_iic_" "i2c" label
  let out := subNumbered "axi_quad_spi_" "spi" out
  let out := subNumbered "axi_uart16550_" "uart" out
  let out := subNumbered "axi_timer_" "tmr" out
  let out := subNumbered "hwpulsecap_" "pulsecap" out
  let out := subFinalNumber ".capturetrig" ".pwm_cap" out
  let out := subFinal ".sin" ".rxd" out
  subFinal ".sout" ".txd" out

/-- The instance part of a label. -/
def labelInst (label : String) : String := beforeFirst '.' label

def applyNaming (re : Regex) (label : Option String) (pin alt : ℕ) (naming : Naming)
    (muxInst : String) : String :=
  match label.filter (· ≠ "") with
  | none =>
    if alt = 0 then gpioName muxInst pin naming
    else "unused" ++ toString pin ++ "." ++ toString alt
  | some label =>
    match naming.overrides.get? label with
    | some name => name
    | none =>
      match applyRules re naming.rules label with
      | some name => name
      | none =>
        if alt = 0 ∧ isNoise (labelInst label) then gpioName muxInst pin naming
        else builtinRules label

/-- The label of a connection; an empty one counts as none. -/
def netLabel (net : Option Net) : Option String :=
  (net.bind Net.label).filter (· ≠ "")

theorem netLabel_ne {net : Option Net} {label : String} (h : netLabel net = some label) :
    label ≠ "" :=
  of_decide_eq_true (Option.filter_eq_some_iff.mp h).2

/-- The label belongs to a module that is no noise. -/
def isReal (label : String) : Bool := !isNoise (labelInst label)

/-- Prefer the incoming peer, fall back to the outgoing one; noise only if there is nothing else. -/
def slotLabel (slot : Option Slot) : Option String :=
  match slot with
  | none => none
  | some slot =>
    let labels := [netLabel slot.incoming, netLabel slot.outgoing].filterMap id
    (labels.find? fun lab => !isNoise (labelInst lab)).or labels.head?

def Mux.pin? (mux : Mux) (pin : ℕ) : Option Pin := mux.pins.find? (·.index == pin)

def Pin.slot? (p : Pin) (alt : ℕ) : Option Slot := p.alts.find? (·.alt == alt)

theorem Mux.pin?_eq_some {mux : Mux} {i : ℕ} {pin : Pin} :
    mux.pin? i = some pin ↔ pin ∈ mux.pins ∧ pin.index = i :=
  find?_key_eq_some mux.indices_nodup

theorem Pin.slot?_eq_some {pin : Pin} {alt : ℕ} {a : Slot} :
    pin.slot? alt = some a ↔ a ∈ pin.alts ∧ a.alt = alt :=
  find?_key_eq_some pin.alts_nodup

/-- The name of an alternate of a pin; the pin is one of the mux. -/
def fnFor (re : Regex) (mux : Mux) (pin alt : ℕ) (naming : Naming) : String :=
  applyNaming re (slotLabel ((mux.pin? pin).bind (·.slot? alt))) pin alt naming mux.inst

/-- `nice.rsplit(".", 1)[0] if "." in nice else nice` -/
def cutAtLastDot (nice : String) : String := beforeLast '.' nice

/-- `load_naming(None)`, with every table it does not name empty. -/
def defaultNaming : Naming where
  gpioPrefix := some "gpio0"
  gpioBases := Dict.empty
  overrides := Dict.empty
  rules := []
  consumerLabels := Dict.empty
  groupAliases := Dict.empty
  skipConsumers := []

/-- The pattern library on tables without rules. -/
def noRules : Regex := fun _ _ _ => none

/-- One alias for the bus of the sample design. -/
def sampleNaming : Naming := { defaultNaming with groupAliases := Dict.empty.set "i2c0" "bus 0" }

end AximuxSystem.Tool
