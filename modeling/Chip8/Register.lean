import Chip8.Numeral

namespace Chip8

abbrev Register := Fin 16

namespace Register

-- Literals of `Fin 16` look for it with this zero.
instance neZero : @NeZero Nat Zero.ofOfNat0 16 :=
  ⟨by decide⟩

-- The register that carries flags.
def flag : Register := 15

-- A byte names a register by its low nibble.
def ofByte (b : UInt8) : Register :=
  Fin.ofNat 16 b.toNat

def name (r : Register) : String :=
  "V" ++ Numeral.ofDigits [r]

-- In ascending order, both ends included; empty if `last` comes before `first`.
def through (first last : Register) : List Register :=
  (List.finRange 16).filter fun r => first ≤ r ∧ r ≤ last

theorem mem_through {first last r : Register} :
    r ∈ through first last ↔ first ≤ r ∧ r ≤ last := by
  simp [through]

end Register

@[ext]
structure Registers where
  bytes : Vector UInt8 16
  deriving DecidableEq

namespace Registers

def zero : Registers :=
  ⟨Vector.replicate 16 0⟩

def get (v : Registers) (r : Register) : UInt8 :=
  v.bytes[r]

def set (v : Registers) (r : Register) (b : UInt8) : Registers :=
  ⟨v.bytes.set r b⟩

-- The bytes of `V0` up to and including `last`.
def firstThrough (v : Registers) (last : Register) : List UInt8 :=
  (Register.through 0 last).map v.get

-- The registers from `V0` on take the bytes of the list, one each; those beyond it stay.
def overwrite (v : Registers) (bs : List UInt8) : Registers :=
  ⟨Vector.ofFn fun r => bs[r.val]?.getD (v.get r)⟩

-- Two register files are told apart by what `get` finds.
theorem ext_get {v w : Registers} (h : ∀ r, v.get r = w.get r) : v = w :=
  Registers.ext <| Vector.ext fun i hi => h ⟨i, hi⟩

theorem get_zero (r : Register) : zero.get r = 0 := by
  simp [get, zero]

theorem get_set_self (v : Registers) (r : Register) (b : UInt8) : (v.set r b).get r = b := by
  simp [get, set]

theorem get_set_of_ne (v : Registers) {r s : Register} (h : r ≠ s) (b : UInt8) :
    (v.set s b).get r = v.get r := by
  simpa [get, set] using Vector.getElem_set_ne _ _ (fun e => h (Fin.ext e.symm))

theorem get_set (v : Registers) (r s : Register) (b : UInt8) :
    (v.set s b).get r = if r = s then b else v.get r := by
  split
  next h => exact h ▸ get_set_self v r b
  next h => exact get_set_of_ne v h b

theorem get_overwrite (v : Registers) (bs : List UInt8) (r : Register) :
    (v.overwrite bs).get r = bs[r.val]?.getD (v.get r) := by
  simp [get, overwrite]

end Registers
end Chip8
