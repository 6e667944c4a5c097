namespace Chip8

-- A machine without a tone takes the same calls and is never heard.
inductive Speaker
  | mute
  | tone (on : Bool)
  deriving DecidableEq

namespace Speaker

inductive Call
  | start
  | stop
  -- The host is done with the speaker; it falls silent.
  | release
  deriving DecidableEq

def isOn : Speaker → Bool
  | mute => false
  | tone on => on

def receive : Speaker → Call → Speaker
  | mute, _ => mute
  | tone _, .start => tone true
  | tone _, .stop => tone false
  | tone _, .release => tone false

end Speaker
end Chip8
