import AximuxSystem.Driver.Calls
import AximuxSystem.Driver.Containment

/-!
# Requests to the driver

Everything a user of the driver can ask for: the calls that change registers,
the two configuration reads and the register dump. A request on tables that
satisfy the invariant keeps any contract on register contents that the single
field writes keep.
-/

namespace AximuxSystem.Driver

open Registers

inductive Request where
  | call (c : Call)
  | pinconfGet (pin : ℕ) (config : BitVec 32)
  | pinconfGroupGet (group : ℕ) (config : BitVec 32)
  | srcselShow

/-- What a request that does not fail hands back. -/
inductive Reply where
  | done
  | config (word : BitVec 32)
  | dump (text : String)
  deriving DecidableEq, Repr

namespace Request

variable (amx : Aximux)

def prog : Request → RegProg Reply
  | call c => c.prog amx >>= fun _ => .ret .done
  | pinconfGet pin config => aximuxPinconfGet pin config >>= fun word => .ret (.config word)
  | pinconfGroupGet g config =>
    aximuxPinconfGroupGet amx g config >>= fun word => .ret (.config word)
  | srcselShow => Driver.srcselShow amx >>= fun text => .ret (.dump text)

/-- The call of a request that is one. -/
def call? : Request → Option Call
  | call c => some c
  | _ => none

/-- Selectors are in range and pins are registered. -/
def Valid : Request → Prop
  | call c => c.Valid amx
  | pinconfGet pin _ => amx.Registered pin
  | pinconfGroupGet g _ => g < amx.ngroups
  | srcselShow => True

end Request

variable {hwPins : ℕ} {amx : Aximux} {P : ℕ → BitVec 32 → Prop}

theorem Call.contained (h : TableInvariant hwPins amx)
    (hsrc : ∀ pin src, amx.Registered pin → src ≤ amx.nalts → Keeps P (srcWrite pin src))
    (hcfg : ∀ pin config w, amx.Registered pin → configWrite pin config = some w → Keeps P w)
    {c : Call} (hc : c.Valid amx) : Contained amx P (c.prog amx) := by
  cases c with
  | setMux f g => exact aximuxSetMux_contained h hc.1 hc.2 hsrc
  | pinconfSet pin configs =>
    exact aximuxPinconfSet_contained hc (fun config w => hcfg pin config w hc) configs
  | pinconfGroupSet g configs => exact aximuxPinconfGroupSet_contained h hc hcfg configs

theorem Request.contained (h : TableInvariant hwPins amx)
    (hsrc : ∀ pin src, amx.Registered pin → src ≤ amx.nalts → Keeps P (srcWrite pin src))
    (hcfg : ∀ pin config w, amx.Registered pin → configWrite pin config = some w → Keeps P w)
    {req : Request} (hreq : req.Valid amx) : Contained amx P (req.prog amx) := by
  cases req with
  | call c => exact (Call.contained h hsrc hcfg hreq).bind fun _ => trivial
  | pinconfGet pin config => exact (aximuxPinconfGet_contained hreq config).bind fun _ => trivial
  | pinconfGroupGet g config =>
    exact (aximuxPinconfGroupGet_contained h hreq config).bind fun _ => trivial
  | srcselShow => exact (srcselShow_contained h).bind fun _ => trivial

end AximuxSystem.Driver
