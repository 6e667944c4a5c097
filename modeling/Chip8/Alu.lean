import Chip8.Dialect

namespace Chip8

-- The operations of two registers that leave their result in the first.
inductive Alu
  | copy | or | and | xor | add | sub | shr | subn | shl
  deriving DecidableEq

namespace Dialect

-- The flag of the logical operations.
def logicFlag : Dialect → Option UInt8
  | modern => none
  | compatible => some 0

-- Which of its two registers a shift works on.
def shifted (d : Dialect) (a b : UInt8) : UInt8 :=
  match d with
  | modern => a
  | compatible => b

end Dialect

namespace Alu

-- The result, modulo 256, and the flag, if the operation has one. A sum raises it on a carry, a
-- difference if nothing had to be borrowed and the operands differ, and a shift if it drops a bit.
def eval (op : Alu) (d : Dialect) (a b : UInt8) : UInt8 × Option UInt8 :=
  match op with
  | copy => (b, none)
  | or => (a ||| b, d.logicFlag)
  | and => (a &&& b, d.logicFlag)
  | xor => (a ^^^ b, d.logicFlag)
  | add => (a + b, some (decide (255 < a.toNat + b.toNat)).toUInt8)
  | sub => (a - b, some (decide (b < a)).toUInt8)
  | subn => (b - a, some (decide (a < b)).toUInt8)
  | shr => (d.shifted a b >>> 1, some (d.shifted a b &&& 1))
  | shl => (d.shifted a b <<< 1, some (d.shifted a b >>> 7))

end Alu
end Chip8
