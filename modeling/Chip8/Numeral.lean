namespace Chip8.Numeral

-- The digits of a number, most significant first. Zero has one digit.
def digits (base n : Nat) : List Nat :=
  if _ : 2 ≤ base ∧ base ≤ n then digits base (n / base) ++ [n % base] else [n]
termination_by n
decreasing_by exact Nat.div_lt_self (by omega) (by omega)

-- Digits above nine are upper-case letters.
def digitChar (d : Nat) : Char :=
  if d < 10 then Char.ofNat (48 + d) else Char.ofNat (55 + d)

def ofDigits (ds : List Nat) : String :=
  String.ofList (ds.map digitChar)

def decimal (n : Nat) : String :=
  ofDigits (digits 10 n)

-- Marked by `0x`, and filled up with zeros to `width` digits; a longer number is never cut.
def hex (width n : Nat) : String :=
  "0x" ++ ofDigits ((digits 16 n).leftpad width 0)

theorem digits_of_lt {base n : Nat} (h : n < base) : digits base n = [n] := by
  rw [digits, dif_neg (by omega)]

theorem digits_of_le {base n : Nat} (hb : 2 ≤ base) (h : base ≤ n) :
    digits base n = digits base (n / base) ++ [n % base] := by
  rw [digits, dif_pos ⟨hb, h⟩]

end Chip8.Numeral
