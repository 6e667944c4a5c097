namespace Chip8

inductive Dialect
  -- A shift works on `Vx` itself, the logical operations leave `VF` alone, and storing or loading
  -- registers leaves `I` where it was.
  | modern
  -- A shift works on `Vy`, the logical operations clear `VF`, and storing or loading registers
  -- moves `I` past the last one.
  | compatible
  deriving DecidableEq

namespace Dialect

def other : Dialect → Dialect
  | modern => compatible
  | compatible => modern

def name : Dialect → String
  | modern => "modern"
  | compatible => "compatible"

theorem other_other (d : Dialect) : d.other.other = d := by
  cases d <;> rfl

end Dialect
end Chip8
