import Chip8.Numeral

namespace Chip8

-- The cells are numbered row by row.
abbrev Cell := Fin 2048

namespace Cell

def ofPosition (column : Fin 64) (row : Fin 32) : Cell :=
  ⟨row * 64 + column, by omega⟩

def column (c : Cell) : Fin 64 :=
  ⟨c % 64, by omega⟩

def row (c : Cell) : Fin 32 :=
  ⟨c / 64, by omega⟩

-- Each coordinate wraps around on its own.
def wrap (x y : Nat) : Cell :=
  ofPosition (Fin.ofNat 64 x) (Fin.ofNat 32 y)

theorem column_ofPosition (x : Fin 64) (y : Fin 32) : (ofPosition x y).column = x := by
  ext
  simp [column, ofPosition]

theorem row_ofPosition (x : Fin 64) (y : Fin 32) : (ofPosition x y).row = y := by
  ext
  simp [row, ofPosition]
  omega

theorem ofPosition_column_row (c : Cell) : ofPosition c.column c.row = c := by
  ext
  simp [column, row, ofPosition]
  omega

end Cell

-- A host asked for the cell with this number, and there is none.
structure NoSuchCell where
  number : Nat
  deriving DecidableEq

def NoSuchCell.message (e : NoSuchCell) : String :=
  "index out of bounds: the len is 2048 but the index is " ++ Numeral.decimal e.number

@[ext]
structure Screen where
  cells : Vector Bool 2048
  changed : Bool
  deriving DecidableEq

namespace Screen

def width : Nat := 64
def height : Nat := 32

-- The bytes that stand for a lit and for a dark cell.
def litByte : UInt8 := 0xFF
def darkByte : UInt8 := 0x00

-- A new screen counts as changed, so that a host draws it once.
def blank : Screen :=
  ⟨Vector.replicate 2048 false, true⟩

-- Every cell lit.
def full : Screen :=
  ⟨Vector.replicate 2048 true, true⟩

def lit (s : Screen) (c : Cell) : Bool :=
  s.cells[c]

def put (s : Screen) (c : Cell) (on : Bool) : Screen :=
  ⟨s.cells.set c on, true⟩

def toggle (s : Screen) (c : Cell) : Screen :=
  let on := s.lit c
  s.put c (!on)

-- Toggles the cells one after the other, and tells whether one of them was lit when its turn
-- came.
def toggleAll (s : Screen) : List Cell → Screen × Bool
  | [] => (s, false)
  | c :: cs =>
    let on := s.lit c
    let (s, hit) := (s.toggle c).toggleAll cs
    (s, on || hit)

-- The cell of a position; only its number is checked, so a column past the edge reaches into the
-- rows below.
def cellAt (x y : Nat) : Except NoSuchCell Cell :=
  let number := y * 64 + x
  if h : number < 2048 then .ok ⟨number, h⟩ else .error ⟨number⟩

def get (s : Screen) (x y : Nat) : Except NoSuchCell Bool :=
  return s.lit (← cellAt x y)

def set (s : Screen) (x y : Nat) (on : Bool) : Except NoSuchCell Screen :=
  return s.put (← cellAt x y) on

-- The picture, row by row.
def snapshot (s : Screen) : Vector (Vector Bool 64) 32 :=
  Vector.ofFn fun y => Vector.ofFn fun x => s.lit (.ofPosition x y)

-- The picture in two colours, row by row in one run.
def pixels (s : Screen) (on off : UInt32) : Vector UInt32 2048 :=
  s.cells.map fun lit => if lit then on else off

def litCount (s : Screen) : Nat :=
  s.cells.count true

def unchanged (s : Screen) : Screen :=
  { s with changed := false }

-- Two screens are told apart by their cells and by the mark.
theorem ext_lit {s t : Screen} (hc : ∀ c, s.lit c = t.lit c) (h : s.changed = t.changed) :
    s = t := by
  ext1
  · ext1 i hi
    exact hc ⟨i, hi⟩
  · exact h

theorem lit_put_self (s : Screen) (c : Cell) (on : Bool) : (s.put c on).lit c = on := by
  simp [lit, put]

theorem lit_put_of_ne (s : Screen) {c d : Cell} (h : c ≠ d) (on : Bool) :
    (s.put d on).lit c = s.lit c := by
  simpa [lit, put] using Vector.getElem_set_ne _ _ (fun e => h (Fin.ext e.symm))

theorem lit_toggle (s : Screen) (c d : Cell) :
    (s.toggle d).lit c = (s.lit c ^^ decide (c = d)) := by
  by_cases h : c = d
  · subst h
    simp [toggle, lit_put_self]
  · simp [toggle, lit_put_of_ne s h, h]

theorem lit_blank (c : Cell) : blank.lit c = false := by
  simp [lit, blank]

end Screen
end Chip8
