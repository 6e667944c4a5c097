import Chip8.CallStack
import Chip8.Countdown
import Chip8.Instruction
import Chip8.Register

namespace Chip8

@[ext]
structure Cpu where
  registers : Registers := .zero
  pc : UInt16 := 0x200
  index : UInt16 := 0
  delay : Countdown := {}
  sound : Countdown := {}
  stack : CallStack := {}
  running : Bool := false
  -- Instructions completed.
  cycles : UInt64 := 0
  -- The instruction fetched last.
  last : Option Instruction := none
  fault : Option Fault := none
  deriving DecidableEq

namespace Cpu

-- Bytes per instruction.
def stride : UInt16 := 2

def advance (c : Cpu) : Cpu :=
  { c with pc := c.pc + stride }

-- One step of both countdowns.
def countDown (c : Cpu) : Cpu :=
  { c with delay := c.delay.tick, sound := c.sound.tick }

def halt (c : Cpu) (f : Fault) : Cpu :=
  { c with fault := some f, running := false }

end Cpu
end Chip8
