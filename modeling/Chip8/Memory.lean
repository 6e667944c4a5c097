import Chip8.Fault

namespace Chip8

namespace Glyph

-- Bytes per glyph, one for each row.
def height : Nat := 5

-- Where the glyphs lie in memory, first and last byte.
def first : Nat := 0x050
def last : Nat := 0x09F

-- The glyphs of `0` to `F`.
def bytes : Vector UInt8 80 := #v[
  0xF0, 0x90, 0x90, 0x90, 0xF0,
  0x20, 0x60, 0x20, 0x20, 0x70,
  0xF0, 0x10, 0xF0, 0x80, 0xF0,
  0xF0, 0x10, 0xF0, 0x10, 0xF0,
  0x90, 0x90, 0xF0, 0x10, 0x10,
  0xF0, 0x80, 0xF0, 0x10, 0xF0,
  0xF0, 0x80, 0xF0, 0x90, 0xF0,
  0xF0, 0x10, 0x20, 0x40, 0x40,
  0xF0, 0x90, 0xF0, 0x90, 0xF0,
  0xF0, 0x90, 0xF0, 0x10, 0xF0,
  0xF0, 0x90, 0xF0, 0x90, 0x90,
  0xE0, 0x90, 0xE0, 0x90, 0xE0,
  0xF0, 0x80, 0x80, 0x80, 0xF0,
  0xE0, 0x90, 0x90, 0x90, 0xE0,
  0xF0, 0x80, 0xF0, 0x80, 0xF0,
  0xF0, 0x80, 0xF0, 0x80, 0x80]

end Glyph

-- A program as it is staged: no longer than the space above `0x200`.
@[ext]
structure Rom where
  bytes : Array UInt8
  size_le : bytes.size ≤ 3584
  deriving DecidableEq

namespace Rom

-- Where a program lies in memory, first and last byte.
def first : Nat := 0x200
def last : Nat := 0xFFF

-- The greatest size of a program.
def capacity : Nat := 3584

-- What does not fit is dropped from the end.
def ofBytes (bytes : Array UInt8) : Rom where
  bytes := bytes.take capacity
  size_le := by
    rw [Array.take_eq_extract, Array.size_extract]
    exact Nat.min_le_left ..

theorem first_add_length_le (rom : Rom) : first + rom.bytes.toList.length ≤ 4096 := by
  have := rom.size_le
  simp only [first, Array.length_toList]
  omega

end Rom

-- A place in memory; also the operand `nnn` of an instruction.
abbrev Address := Fin 4096

-- The program loaded last is staged apart, so that a reset can put it in again.
@[ext]
structure Memory where
  bytes : Vector UInt8 4096
  staged : Option Rom
  deriving DecidableEq

namespace Memory

-- The bytes with others in place of those from `a` on.
def overlay (bytes : Vector UInt8 4096) (a : Nat) (block : List UInt8)
    (fits : a + block.length ≤ 4096) : Vector UInt8 4096 :=
  ⟨(bytes.toList.take a ++ block ++ bytes.toList.drop (a + block.length)).toArray, by simp; omega⟩

-- All zero but for the glyphs.
def glyphs : Vector UInt8 4096 :=
  overlay (Vector.replicate 4096 0) Glyph.first Glyph.bytes.toList (by decide)

-- Memory as it stands before the staged program runs: the program is copied to its place, and
-- nothing is left of what was there before.
def image (staged : Option Rom) : Memory where
  bytes := match staged with
    | none     => glyphs
    | some rom => overlay glyphs Rom.first rom.bytes.toList rom.first_add_length_le
  staged := staged

def blank : Memory :=
  image none

def load (program : Array UInt8) : Memory :=
  image (some (Rom.ofBytes program))

def reset (m : Memory) : Memory :=
  image m.staged

def read (m : Memory) (a : Nat) : Except Fault UInt8 :=
  if h : a < 4096 then .ok m.bytes[a] else .error (.outOfBounds a)

def write (m : Memory) (a : Nat) (b : UInt8) : Except Fault Memory :=
  if h : a < 4096 then .ok { m with bytes := m.bytes.set a b } else .error (.outOfBounds a)

-- The high byte comes first.
def readWord (m : Memory) (a : UInt16) : Except Fault UInt16 := do
  let high ← m.read a.toNat
  let low ← m.read (a.toNat + 1)
  return high.toUInt16 <<< 8 ||| low.toUInt16

-- The bytes from `a` upwards, at most `n`: those before the first that is out of bounds, and the
-- fault found there.
def readBlock (m : Memory) (a : Nat) : Nat → List UInt8 × Option Fault
  | 0 => ([], none)
  | n + 1 =>
    match m.read a with
    | .error f => ([], some f)
    | .ok b =>
      let (bs, f) := m.readBlock (a + 1) n
      (b :: bs, f)

-- Writes upwards from `a`, and stops at the first fault; what is written before it stays.
def writeBlock (m : Memory) (a : Nat) : List UInt8 → Memory × Option Fault
  | [] => (m, none)
  | b :: bs =>
    match m.write a b with
    | .error f => (m, some f)
    | .ok m => m.writeBlock (a + 1) bs

-- Both ends are included; no byte at all if `first` is the place after `last`. The fault names
-- the last address, whichever end is at fault.
def slice (m : Memory) (first last : UInt16) : Except Fault (List UInt8) :=
  if last.toNat < 4096 ∧ first.toNat ≤ last.toNat + 1 then
    .ok (m.bytes.toArray.extract first.toNat (last.toNat + 1)).toList
  else
    .error (.outOfBounds last.toNat)

theorem image_staged (staged : Option Rom) : (image staged).staged = staged :=
  rfl

theorem reset_load (program : Array UInt8) : (load program).reset = load program :=
  rfl

theorem write_preserves_staged {m m' : Memory} {a : Nat} {b : UInt8} (h : m.write a b = .ok m') :
    m'.staged = m.staged := by
  simp only [write] at h
  split at h <;> cases h
  rfl

theorem writeBlock_preserves_staged (m : Memory) (a : Nat) (bs : List UInt8) :
    (m.writeBlock a bs).1.staged = m.staged := by
  induction bs generalizing m a with
  | nil => rfl
  | cons b bs ih =>
    simp only [writeBlock]
    split
    · rfl
    next h => exact (ih ..).trans (write_preserves_staged h)

end Memory
end Chip8
