import Chip8.Numeral

namespace Chip8

-- Where the fault names a `pc`, it is the address of the offending instruction itself.
inductive Fault
  | stackOverflow (pc : UInt16)
  | stackUnderflow (pc : UInt16)
  | outOfBounds (address : Nat)
  | invalidInstruction (word pc : UInt16)
  deriving DecidableEq

namespace Fault

def name : Fault → String
  | stackOverflow _ => "StackOverflow"
  | stackUnderflow _ => "StackUnderflow"
  | outOfBounds _ => "MemoryOutOfBounds"
  | invalidInstruction .. => "InvalidInstruction"

def message : Fault → String
  | stackOverflow pc =>
    "call stack overflow at " ++ Numeral.hex 4 pc.toNat ++ ": more than 16 nested calls"
  | stackUnderflow pc =>
    "call stack underflow at " ++ Numeral.hex 4 pc.toNat ++ ": return with an empty call stack"
  | outOfBounds address =>
    "memory access out of bounds at address " ++ Numeral.hex 4 address
  | invalidInstruction word pc =>
    "invalid instruction " ++ Numeral.hex 4 word.toNat ++ " at " ++ Numeral.hex 4 pc.toNat

-- The fault as a record, its numbers in decimal.
def inspect (f : Fault) : String :=
  f.name ++ " \x7b " ++ fields ++ " \x7d"
where
  fields := match f with
    | stackOverflow pc | stackUnderflow pc => "pc: " ++ Numeral.decimal pc.toNat
    | outOfBounds address => "address: " ++ Numeral.decimal address
    | invalidInstruction word pc =>
      "word: " ++ Numeral.decimal word.toNat ++ ", pc: " ++ Numeral.decimal pc.toNat

end Fault
end Chip8
