import Chip8.Numeral

namespace Chip8

@[ext]
structure Period where
  micros : Nat
  deriving DecidableEq

namespace Period

-- Rounded down; a rate of nothing counts as once a second.
def ofRate (hz : UInt32) : Period :=
  ⟨1000000 / max hz.toNat 1⟩

-- A number of `unit`s with as many decimal places as it takes, of which `unit` allows `places`.
def amount (micros unit places : Nat) : String :=
  Numeral.decimal (micros / unit) ++ fraction
where
  fraction : String :=
    let digits := (Numeral.digits 10 (micros % unit)).leftpad places 0
    match (digits.reverse.dropWhile (· = 0)).reverse with
    | [] => ""
    | ds => "." ++ Numeral.ofDigits ds

-- In the greatest unit that it fills.
def text (p : Period) : String :=
  if 1000000 ≤ p.micros then amount p.micros 1000000 6 ++ "s"
  else if 1000 ≤ p.micros then amount p.micros 1000 3 ++ "ms"
  else if 0 < p.micros then amount p.micros 1 0 ++ "µs"
  else "0ns"

end Period
end Chip8
