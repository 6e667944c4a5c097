import Chip8.Machine.Execute

namespace Chip8

-- What the processor does with a tick.
inductive Turn
  -- A register waits for a key.
  | poll
  -- Nothing, as the machine is stopped or has come as far as it may.
  | rest
  -- There is no instruction to run.
  | stuck (fault : Fault)
  | run (word : Word) (instruction : Instruction)
  deriving DecidableEq

namespace Machine

-- The instruction at the program counter.
def fetch (m : Machine) : Except Fault (Word × Instruction) :=
  match m.memory.readWord m.cpu.pc with
  | .error f => .error f
  | .ok w =>
    match Instruction.ofWord? w with
    | none => .error (.invalidInstruction w m.cpu.pc)
    | some i => .ok (w, i)

-- A wait goes first, also in a machine that is stopped or paused.
def turn (m : Machine) : Turn :=
  if m.keypad.wait.isSome then .poll
  else if m.cpu.running ∧ m.limiter.allows m.cpu.cycles then
    match m.fetch with
    | .error f => .stuck f
    | .ok (w, i) => .run w i
  else .rest

-- Looks for a key that ends the wait. No instruction runs.
def poll (m : Machine) : Reported Machine :=
  match m.checkKey with
  | (some k, m) => ⟨m, [.log (.waitResolved k)]⟩
  | (none, m) => ⟨m, [.log .waiting]⟩

-- The instruction counts as fetched, and the program counter is past it.
def start (m : Machine) (i : Instruction) : Machine :=
  { m with cpu := { m.cpu.advance with last := some i } }

-- The instruction counts as completed, and key releases from before it are forgotten.
def complete (m : Machine) : Machine :=
  { m with cpu.cycles := m.cpu.cycles + 1, keypad := m.keypad.forgetPrevious }

-- An instruction that a fault cuts short keeps what it has done so far, but does not count.
def finish (o : Outcome) : Reported Machine :=
  match o.fault with
  | none => ⟨o.machine.complete, []⟩
  | some f => o.machine.halt f

def runInstruction (m : Machine) (w : Word) (i : Instruction) : Reported Machine :=
  let o := (m.start i).execute i
  let r := finish o
  ⟨r.value, .log (.fetched w i) :: o.reports ++ r.reports⟩

def cpuTick (m : Machine) : Reported Machine :=
  match m.turn with
  | .poll => m.poll
  | .rest => ⟨m, []⟩
  | .stuck f => m.halt f
  | .run w i => m.runInstruction w i

-- The call that a tick of the countdowns makes: the tone lasts for the tick that takes the sound
-- countdown to zero, and ends with the next.
def tone (m : Machine) : Speaker.Call :=
  if m.cpu.sound.isActive then .start else .stop

def timerTick (m : Machine) : Reported Machine :=
  (m.tell m.tone).andThen fun m =>
    let cpu := m.cpu.countDown
    ⟨{ m with cpu := cpu }, [.log (.countedDown cpu.delay.count cpu.sound.count)]⟩

-- Whether ticks of the processor change nothing any more, as long as no key moves.
def isIdle (m : Machine) : Bool :=
  match m.turn with
  | .poll => m.keypad.released?.isNone
  | .rest => true
  | .stuck _ | .run .. => false

-- Ticks of the processor until it is idle, at most `budget`.
def runToIdle (m : Machine) : Nat → Machine
  | 0 => m
  | budget + 1 => if m.isIdle then m else m.cpuTick.value.runToIdle budget

-- Ticks of the countdowns until both are at zero and the speaker is silent, at most `budget`.
def countOut (m : Machine) : Nat → Machine
  | 0 => m
  | budget + 1 =>
    if m.cpu.delay.isActive ∨ m.cpu.sound.isActive ∨ m.speaker.isOn then
      m.timerTick.value.countOut budget
    else m

end Machine
end Chip8
