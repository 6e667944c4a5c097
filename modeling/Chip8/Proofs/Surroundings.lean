import Chip8.Proofs.Indifference

namespace Chip8

@[ext]
structure Surroundings where
  speaker  : Speaker
  delay    : Countdown
  sound    : Countdown
  down     : Vector Bool 16
  previous : Vector Bool 16

namespace Instruction

-- Whether an instruction looks at a countdown or a key, now or later.
def senses : Instruction → Bool
  | skipDown _ | skipUp _ | readDelay _ | awaitKey _ => true
  | _                                                => false

def setsCountdown : Instruction → Bool
  | setDelay _ | setSound _ => true
  | _                       => false

end Instruction

namespace Machine

def surroundings (m : Machine) : Surroundings where
  speaker  := m.speaker
  delay    := m.cpu.delay
  sound    := m.cpu.sound
  down     := m.keypad.down
  previous := m.keypad.previous

-- The machine in other surroundings. A register that waits for a key goes on waiting.
def surround (m : Machine) (s : Surroundings) : Machine :=
  { m with
    speaker         := s.speaker
    cpu.delay       := s.delay
    cpu.sound       := s.sound
    keypad.down     := s.down
    keypad.previous := s.previous }

end Machine

def Outcome.surround (o : Outcome) (s : Surroundings) : Outcome :=
  { o with machine := o.machine.surround s }

namespace Machine

variable (m : Machine) (s : Surroundings) {i : Instruction}

theorem execute_surround (hs : i.senses = false) (hc : i.setsCountdown = false) :
    (m.surround s).execute i = (m.execute i).surround s := by
  let change (k : Kept) : Kept := { k with
    speaker := s.speaker
    delay   := s.delay
    sound   := s.sound
    keypad  := { k.keypad with
      down     := s.down
      previous := s.previous } }
  cases hu : i.usesKept
  case false => exact execute_mapKept change hu fun _ _ => rfl
  case true  =>
    cases i
    case ret | call =>
      simp only [execute, surround, origin]
      split <;> rfl
    case random                                   => rfl
    case skipDown | skipUp | readDelay | awaitKey => cases hs
    case setDelay | setSound                      => cases hc
    all_goals cases hu

theorem execute_preserves_surroundings (hs : i.senses = false) (hc : i.setsCountdown = false) :
    (m.execute i).machine.surroundings = m.surroundings := by
  have hspeaker : (m.execute i).machine.speaker = m.speaker :=
    execute_preserves Kept.speaker (fun _ _ _ _ _ _ => rfl) m i
  have hkeypad : (m.execute i).machine.keypad = m.keypad :=
    execute_preserves_keypad fun _ hi => by rw [hi] at hs; cases hs
  have hdelay : (m.execute i).machine.cpu.delay = m.cpu.delay :=
    execute_preserves_delay fun _ hi => by rw [hi] at hc; cases hc
  have hsound : (m.execute i).machine.cpu.sound = m.cpu.sound :=
    execute_preserves_sound fun _ hi => by rw [hi] at hc; cases hc
  simp only [surroundings, hspeaker, hkeypad, hdelay, hsound]

end Machine
end Chip8
