import Chip8.Limiter
import Chip8.Memory
import Chip8.Noise
import Chip8.Report
import Chip8.Sprite

namespace Chip8

@[ext]
structure Machine where
  cpu : Cpu := {}
  memory : Memory := .blank
  screen : Screen := .blank
  keypad : Keypad := {}
  speaker : Speaker
  dialect : Dialect
  limiter : Limiter
  noise : Noise

namespace Machine

-- A machine that has just been switched on, without a program.
def fresh (speaker : Speaker) (dialect : Dialect) (limiter : Limiter) (noise : Noise) : Machine :=
  { speaker, dialect, limiter, noise }

def reg (m : Machine) (r : Register) : UInt8 :=
  m.cpu.registers.get r

def setReg (m : Machine) (r : Register) (b : UInt8) : Machine :=
  { m with cpu.registers := m.cpu.registers.set r b }

-- The speaker takes a call, which is reported.
def tell (m : Machine) (call : Speaker.Call) : Reported Machine :=
  ⟨{ m with speaker := m.speaker.receive call }, [.sound call]⟩

-- The processor starts anew and the speaker falls silent.
def resetCpu (m : Machine) : Reported Machine :=
  { m with cpu := {} }.tell .stop

-- All but memory, the dialect and the random bytes starts anew; a pause goes on.
def clear (m : Machine) : Reported Machine :=
  { m with screen := .blank, keypad := {}, limiter := m.limiter.restart }.resetCpu

-- Runs the staged program from its beginning, if there is one.
def reset (m : Machine) : Reported Machine :=
  m.clear.map fun m =>
    { m with memory := m.memory.reset, cpu.running := m.memory.staged.isSome }

-- A program that does not fit is cut, which is put on record.
def cutReports (program : Array UInt8) : List Report :=
  if Rom.capacity < program.size then [.log (.programCut program.size)] else []

-- Runs a program from its beginning.
def load (m : Machine) (program : Array UInt8) : Reported Machine :=
  m.clear.andThen fun m =>
    ⟨{ m with memory := .load program, cpu.running := true }, cutReports program⟩

-- The processor stops at a fault.
def halt (m : Machine) (f : Fault) : Reported Machine :=
  ⟨{ m with cpu := m.cpu.halt f }, [.log (.halted m.cpu.cycles f)]⟩

-- From now on the register waits for a key.
def awaitKey (m : Machine) (r : Register) : Reported Machine where
  value := { m with keypad := m.keypad.await r }
  reports := if m.keypad.wait.isSome then [.log .waitReplaced] else []

-- If a wait can end, it ends: the key is given, and the register holds its number.
def checkKey (m : Machine) : Option Key × Machine :=
  match m.keypad.resolve? with
  | none => (none, m)
  | some (r, k, keypad) => (some k, { m with keypad := keypad }.setReg r k.toByte)

def togglePause (m : Machine) : Machine :=
  { m with limiter := m.limiter.toggle m.cpu.cycles }

-- The picture in two colours, if it may have changed since it was last taken.
def frame? (m : Machine) (on off : UInt32) : Option (Vector UInt32 2048) :=
  if m.screen.changed then some (m.screen.pixels on off) else none

def frameTaken (m : Machine) : Machine :=
  { m with screen := m.screen.unchanged }

end Machine
end Chip8
