import Chip8.Memory
import Chip8.Register

namespace Chip8

abbrev Word := UInt16

abbrev Nibble := Fin 16

namespace Word

-- The number that `count` digits make, from the digit `first` on. The leading digit is the
-- first.
def digits (w : Word) (first count : Nat) : Nat :=
  w.toNat / Nat.pow 16 (5 - first - count) % Nat.pow 16 count

theorem digits_lt (w : Word) (first count : Nat) : w.digits first count < Nat.pow 16 count :=
  Nat.mod_lt _ (Nat.pow_pos (by decide))

-- The operand `nnn`, an address.
def nnn (w : Word) : Address :=
  ⟨w.digits 2 3, w.digits_lt 2 3⟩

-- The operand `x`, a register.
def x (w : Word) : Register :=
  ⟨w.digits 2 1, w.digits_lt 2 1⟩

-- The operand `y`, a register.
def y (w : Word) : Register :=
  ⟨w.digits 3 1, w.digits_lt 3 1⟩

-- The operand `n`.
def n (w : Word) : Nibble :=
  ⟨w.digits 4 1, w.digits_lt 4 1⟩

-- The operand `kk`, a byte.
def kk (w : Word) : UInt8 :=
  UInt8.ofNat (w.digits 3 2)

end Word
end Chip8
