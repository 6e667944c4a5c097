import Chip8.Register

namespace Chip8

abbrev Key := Fin 16

namespace Key

-- A byte names a key by its low nibble.
def ofByte (b : UInt8) : Key :=
  Fin.ofNat 16 b.toNat

def toByte (k : Key) : UInt8 :=
  UInt8.ofNat k

theorem toNat_toByte (k : Key) : k.toByte.toNat = k :=
  UInt8.toNat_ofNat_of_lt <| Nat.lt_trans k.isLt (by decide)

def name (k : Key) : String :=
  "K" ++ Numeral.ofDigits [k]

-- The left-hand block of four rows and four columns of a keyboard, in either case.
def ofChar? (c : Char) : Option Key :=
  match c.toLower with
  | '1' => some 0x1 | '2' => some 0x2 | '3' => some 0x3 | '4' => some 0xC
  | 'q' => some 0x4 | 'w' => some 0x5 | 'e' => some 0x6 | 'r' => some 0xD
  | 'a' => some 0x7 | 's' => some 0x8 | 'd' => some 0x9 | 'f' => some 0xE
  | 'z' => some 0xA | 'x' => some 0x0 | 'c' => some 0xB | 'v' => some 0xF
  | _ => none

end Key

-- `previous` holds, for a key that has moved since it was last forgotten, whether it was down
-- before its latest move.
@[ext]
structure Keypad where
  down : Vector Bool 16 := Vector.replicate 16 false
  previous : Vector Bool 16 := Vector.replicate 16 false
  -- The register that waits for a key.
  wait : Option Register := none
  deriving DecidableEq

namespace Keypad

def isDown (p : Keypad) (k : Key) : Bool :=
  p.down[k]

def wasDown (p : Keypad) (k : Key) : Bool :=
  p.previous[k]

-- The key's former state is remembered, also where it does not change.
def move (p : Keypad) (k : Key) (down : Bool) : Keypad :=
  { p with previous := p.previous.set k p.down[k], down := p.down.set k down }

def keysDown (p : Keypad) : List Key :=
  (List.finRange 16).filter p.isDown

-- The lowest key that was down and is now up.
def released? (p : Keypad) : Option Key :=
  (List.finRange 16).find? fun k => p.wasDown k && !p.isDown k

def forgetPrevious (p : Keypad) : Keypad :=
  { p with previous := Vector.replicate 16 false }

-- A register that waits already is given up.
def await (p : Keypad) (r : Register) : Keypad :=
  { p with wait := some r }

-- If a register waits and a key has been let go, the wait is over: the key, and the register that
-- receives it. The key still counts as released afterwards.
def resolve? (p : Keypad) : Option (Register × Key × Keypad) := do
  let r ← p.wait
  let k ← p.released?
  return (r, k, { p with wait := none })

theorem isDown_move (p : Keypad) (j k : Key) (down : Bool) :
    (p.move k down).isDown j = if j = k then down else p.isDown j := by
  split
  next h => simp [h, isDown, move]
  next h => simpa [isDown, move] using Vector.getElem_set_ne _ _ (fun e => h (Fin.ext e.symm))

theorem wasDown_move (p : Keypad) (j k : Key) (down : Bool) :
    (p.move k down).wasDown j = if j = k then p.isDown k else p.wasDown j := by
  split
  next h => simp [h, wasDown, isDown, move]
  next h => simpa [wasDown, move] using Vector.getElem_set_ne _ _ (fun e => h (Fin.ext e.symm))

theorem isDown_forgetPrevious (p : Keypad) (k : Key) :
    p.forgetPrevious.isDown k = p.isDown k :=
  rfl

theorem wasDown_forgetPrevious (p : Keypad) (k : Key) :
    p.forgetPrevious.wasDown k = false := by
  simp [wasDown, forgetPrevious]

end Keypad
end Chip8
