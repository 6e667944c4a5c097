import Chip8.Countdown
import Chip8.Dialect
import Chip8.Limiter
import Chip8.Period

namespace Chip8

-- Rates are in ticks per second.
@[ext]
structure Settings where
  cpuRate : UInt32 := 500
  timerRate : UInt32 := 60
  dialect : Dialect := .modern
  -- No more instructions than this.
  cycleCap : Option UInt64 := none
  samplingRate : Option UInt32 := none
  deriving DecidableEq

namespace Settings

def cpuPeriod (s : Settings) : Period :=
  .ofRate s.cpuRate

def timerPeriod (s : Settings) : Period :=
  .ofRate s.timerRate

def samplingPeriod (s : Settings) : Option Period :=
  s.samplingRate.map .ofRate

def limiter (s : Settings) : Limiter :=
  match s.cycleCap with
  | none => .unlimited
  | some cap => .capped cap

end Settings
end Chip8
