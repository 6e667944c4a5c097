import Chip8.Word

namespace Chip8

inductive Opcode
  | cls | ret | sys | jp | call | seByte | sneByte | se | ldByte | addByte
  | ld | or | and | xor | add | sub | shr | subn | shl | sne
  | ldIndex | jpOffset | rnd | drw | skp | sknp
  | ldFromDelay | ldKey | ldToDelay | ldToSound | addIndex | ldGlyph | ldDecimal | ldToMemory
  | ldFromMemory
  deriving DecidableEq

-- A word fits if it has these bits wherever the mask is set.
structure Pattern where
  bits : Word
  mask : Word
  deriving DecidableEq

def Pattern.fits (p : Pattern) (w : Word) : Bool :=
  w &&& p.mask == p.bits

namespace Opcode

-- In the order in which words are tried: an exact pattern stands before `sys`, whose pattern the
-- same words fit.
def all : List Opcode :=
  [cls, ret, sys, jp, call, seByte, sneByte, se, ldByte, addByte,
   ld, or, and, xor, add, sub, shr, subn, shl, sne,
   ldIndex, jpOffset, rnd, drw, skp, sknp,
   ldFromDelay, ldKey, ldToDelay, ldToSound, addIndex, ldGlyph, ldDecimal, ldToMemory,
   ldFromMemory]

def pattern : Opcode → Pattern
  | cls => ⟨0x00E0, 0xFFFF⟩
  | ret => ⟨0x00EE, 0xFFFF⟩
  | sys => ⟨0x0000, 0xF000⟩
  | jp => ⟨0x1000, 0xF000⟩
  | call => ⟨0x2000, 0xF000⟩
  | seByte => ⟨0x3000, 0xF000⟩
  | sneByte => ⟨0x4000, 0xF000⟩
  | se => ⟨0x5000, 0xF00F⟩
  | ldByte => ⟨0x6000, 0xF000⟩
  | addByte => ⟨0x7000, 0xF000⟩
  | ld => ⟨0x8000, 0xF00F⟩
  | or => ⟨0x8001, 0xF00F⟩
  | and => ⟨0x8002, 0xF00F⟩
  | xor => ⟨0x8003, 0xF00F⟩
  | add => ⟨0x8004, 0xF00F⟩
  | sub => ⟨0x8005, 0xF00F⟩
  | shr => ⟨0x8006, 0xF00F⟩
  | subn => ⟨0x8007, 0xF00F⟩
  | shl => ⟨0x800E, 0xF00F⟩
  | sne => ⟨0x9000, 0xF00F⟩
  | ldIndex => ⟨0xA000, 0xF000⟩
  | jpOffset => ⟨0xB000, 0xF000⟩
  | rnd => ⟨0xC000, 0xF000⟩
  | drw => ⟨0xD000, 0xF000⟩
  | skp => ⟨0xE09E, 0xF0FF⟩
  | sknp => ⟨0xE0A1, 0xF0FF⟩
  | ldFromDelay => ⟨0xF007, 0xF0FF⟩
  | ldKey => ⟨0xF00A, 0xF0FF⟩
  | ldToDelay => ⟨0xF015, 0xF0FF⟩
  | ldToSound => ⟨0xF018, 0xF0FF⟩
  | addIndex => ⟨0xF01E, 0xF0FF⟩
  | ldGlyph => ⟨0xF029, 0xF0FF⟩
  | ldDecimal => ⟨0xF033, 0xF0FF⟩
  | ldToMemory => ⟨0xF055, 0xF0FF⟩
  | ldFromMemory => ⟨0xF065, 0xF0FF⟩

def name : Opcode → String
  | cls => "CLS"
  | ret => "RET"
  | sys => "SYS"
  | jp => "JP"
  | call => "CALL"
  | seByte => "SE_VX_BYTE"
  | sneByte => "SNE_VX_BYTE"
  | se => "SE_VX_VY"
  | ldByte => "LD_VX_BYTE"
  | addByte => "ADD_VX_BYTE"
  | ld => "LD_VX_VY"
  | or => "OR_VX_VY"
  | and => "AND_VX_VY"
  | xor => "XOR_VX_VY"
  | add => "ADD_VX_VY"
  | sub => "SUB_VX_VY"
  | shr => "SHR_VX"
  | subn => "SUBN_VX_VY"
  | shl => "SHL_VX"
  | sne => "SNE_VX_VY"
  | ldIndex => "LD_I"
  | jpOffset => "JP_V0"
  | rnd => "RND_VX"
  | drw => "DRW_VX_VY"
  | skp => "SKP_VX"
  | sknp => "SKNP_VX"
  | ldFromDelay => "LD_VX_DT"
  | ldKey => "LD_VX_K"
  | ldToDelay => "LD_DT_VX"
  | ldToSound => "LD_ST_VX"
  | addIndex => "ADD_I_VX"
  | ldGlyph => "LD_F_VX"
  | ldDecimal => "LD_B_VX"
  | ldToMemory => "LD_I_VX"
  | ldFromMemory => "LD_VX_I"

-- The first pattern of the table that the word fits decides.
def ofWord? (w : Word) : Option Opcode :=
  all.find? (·.pattern.fits w)

-- How many words from `first` to `last` are of each kind, in the order of the table and without
-- the kinds that do not occur, and how many are no instruction.
def census (first last : Word) : List (Opcode × Nat) × Nat :=
  let kinds := (List.range' first.toNat (last.toNat + 1 - first.toNat)).map
    fun w => ofWord? (UInt16.ofNat w)
  let counts := all.map fun op => (op, kinds.count (some op))
  (counts.filter (·.2 ≠ 0), kinds.count none)

theorem mem_all (op : Opcode) : op ∈ all := by
  cases op <;> decide

theorem ofWord?_eq_none_iff {w : Word} :
    ofWord? w = none ↔ ∀ op : Opcode, op.pattern.fits w = false := by
  simp [ofWord?, mem_all]

theorem fits_of_ofWord? {w : Word} {op : Opcode} (h : ofWord? w = some op) :
    op.pattern.fits w = true := by
  have fits := List.find?_some h
  exact fits

end Opcode
end Chip8
