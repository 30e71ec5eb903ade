import Mathlib.Data.Fin.Tuple.Basic
import Mathlib.Tactic

/-!
# States saved as a stream

A description lists the fields of a state, each with a number of 32-bit words.
Saving writes the words in the order of the description, most significant byte
first; loading writes what it reads over another state. Where the fields make up
the state, loading what was saved gives the state back, whatever was there.
-/

namespace StateStream

abbrev Byte := BitVec 8

/-- A field of `num` words. -/
structure StateField (σ : Type) where
  name : String
  num : ℕ
  get : σ → Fin num → BitVec 32
  set : (Fin num → BitVec 32) → σ → σ

structure Description (σ : Type) where
  name : String
  versionId : ℕ
  minimumVersionId : ℕ
  fields : List (StateField σ)

/-! ### Words -/

def putBe32 (w : BitVec 32) : List Byte :=
  [w.extractLsb' 24 8, w.extractLsb' 16 8, w.extractLsb' 8 8, w.extractLsb' 0 8]

def getBe32 : List Byte → Option (BitVec 32 × List Byte)
  | a :: b :: c :: d :: rest => some (a ++ b ++ c ++ d, rest)
  | _ => none

def putWords {n : ℕ} (ws : Fin n → BitVec 32) : List Byte := (List.ofFn ws).flatMap putBe32

def getWords : (n : ℕ) → List Byte → Option ((Fin n → BitVec 32) × List Byte)
  | 0, bytes => some (Fin.elim0, bytes)
  | n + 1, bytes => do
    let (w, bytes) ← getBe32 bytes
    let (ws, bytes) ← getWords n bytes
    return (Fin.cons w ws, bytes)

variable {σ : Type}

def save (fields : List (StateField σ)) (s : σ) : List Byte :=
  fields.flatMap fun f => putWords (f.get s)

/-- Load the fields one after the other over the state `d`. -/
def load : List (StateField σ) → List Byte → σ → Option (σ × List Byte)
  | [], bytes, d => some (d, bytes)
  | f :: fields, bytes, d => do
    let (ws, bytes) ← getWords f.num bytes
    load fields bytes (f.set ws d)

/-- A section of another version is loaded only from the minimum version on. -/
def Description.load (desc : Description σ) (versionId : ℕ) (bytes : List Byte) (d : σ) :
    Option σ :=
  if versionId > desc.versionId ∨ versionId < desc.minimumVersionId then none
  else (StateStream.load desc.fields bytes d).map Prod.fst

def Description.save (desc : Description σ) (s : σ) : List Byte := StateStream.save desc.fields s

end StateStream
