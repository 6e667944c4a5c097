import Chip8.Screen

namespace Chip8.Sprite

-- The columns, counted from the left, of the set bits of a row.
def columns (row : UInt8) : List Nat :=
  (List.range 8).filter fun j => row.toNat.testBit (7 - j)

-- The cells under the set bits of the rows, with the top left corner at `x`, `y`.
def cells (x y : Nat) : List UInt8 → List Cell
  | [] => []
  | row :: rows => (columns row).map (fun j => Cell.wrap (x + j) y) ++ cells x (y + 1) rows

end Sprite

namespace Screen

-- Toggles the cells of a sprite, and tells whether a lit one was switched off.
def paint (s : Screen) (x y : UInt8) (rows : List UInt8) : Screen × Bool :=
  s.toggleAll (Sprite.cells x.toNat y.toNat rows)

end Screen
end Chip8
