import Chip8.Machine.Event
import Chip8.RunLoop

namespace Chip8

-- A hook that looks at the machine, and that holds or fails when it is called.
inductive Sampler
  | steady
  | failing
  deriving DecidableEq

@[ext]
structure Emulator where
  machine : Machine
  loop : RunLoop Sampler

namespace Emulator

-- Takes a machine as it is; only the rates of the settings matter.
def ofMachine (s : Settings) (m : Machine) : Emulator :=
  ⟨m, .ofSettings s⟩

def ofSettings (s : Settings) (speaker : Speaker) (noise : Noise) : Emulator :=
  ofMachine s (.fresh speaker s.dialect s.limiter noise)

-- What is put on record about an event, ahead of what the machine itself reports.
def announce (m : Machine) : Event → List Report
  | .load program => [.log (.loading program.size)]
  | .reset => [.log .reset]
  | .togglePause =>
    [.log (if m.limiter.paused then .resumed m.cpu.cycles else .paused m.cpu.cycles)]
  | _ => []

def handle (em : Emulator) (e : Event) : Reported Emulator :=
  let r := em.machine.handle e
  ⟨{ em with machine := r.value }, announce em.machine e ++ r.reports⟩

def isStarted (em : Emulator) : Bool :=
  em.loop.isStarted

def start (em : Emulator) (granted : Bool) : Reported Emulator :=
  (em.loop.start granted).map ({ em with loop := · })

def stop (em : Emulator) : Reported Emulator :=
  em.loop.stop.map ({ em with loop := · })

-- Stops the loop and is done with the speaker.
def cleanup (em : Emulator) : Reported Emulator :=
  em.stop.andThen (·.handle .release)

def setSampler (em : Emulator) (s : Sampler) : Emulator :=
  { em with loop := em.loop.setSampler s }

def frame? (em : Emulator) (on off : UInt32) : Option (Vector UInt32 2048) :=
  em.machine.frame? on off

-- The loop has been left alone for long enough to leave the machine idle and silent. The
-- countdowns take at most 256 ticks; `budget` bounds those of the processor. What the worker
-- reports is not seen by the host.
def settle (em : Emulator) (budget : Nat) : Emulator :=
  if em.loop.isTicking then { em with machine := (em.machine.runToIdle budget).countOut 256 }
  else em

-- The loop has been left alone for long enough to call its sampler.
def sample (em : Emulator) : Emulator :=
  match em.loop.sampling? with
  | some .failing => { em with loop := em.loop.crash }
  | some .steady | none => em

end Emulator
end Chip8
