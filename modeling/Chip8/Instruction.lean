import Chip8.Alu
import Chip8.Opcode

namespace Chip8

-- The operands come out of a word, which has three digits for an address and one for a height. An
-- instruction that is only written down may have wider ones.
inductive Instruction (α : Type := Address) (ν : Type := Nibble)
  | clear
  | ret
  -- A call of a routine of the host's own, which has no effect here.
  | sys (nnn : α)
  | jump (nnn : α)
  | call (nnn : α)
  | skipEqByte (x : Register) (kk : UInt8)
  | skipNeByte (x : Register) (kk : UInt8)
  | skipEq (x y : Register)
  | setByte (x : Register) (kk : UInt8)
  | addByte (x : Register) (kk : UInt8)
  | alu (op : Alu) (x y : Register)
  | skipNe (x y : Register)
  | setIndex (nnn : α)
  -- A jump to the sum of `nnn` and `V0`.
  | jumpOffset (nnn : α)
  | random (x : Register) (kk : UInt8)
  | draw (x y : Register) (n : ν)
  | skipDown (x : Register)
  | skipUp (x : Register)
  | readDelay (x : Register)
  | awaitKey (x : Register)
  | setDelay (x : Register)
  | setSound (x : Register)
  | addIndex (x : Register)
  | pointGlyph (x : Register)
  | storeDecimal (x : Register)
  -- `V0` to `Vx` into memory.
  | store (x : Register)
  -- `V0` to `Vx` out of memory.
  | load (x : Register)
  deriving DecidableEq

def Alu.opcode : Alu → Opcode
  | copy => .ld
  | or => .or
  | and => .and
  | xor => .xor
  | add => .add
  | sub => .sub
  | shr => .shr
  | subn => .subn
  | shl => .shl

namespace Instruction

def opcode : Instruction → Opcode
  | clear => .cls
  | ret => .ret
  | sys _ => .sys
  | jump _ => .jp
  | call _ => .call
  | skipEqByte .. => .seByte
  | skipNeByte .. => .sneByte
  | skipEq .. => .se
  | setByte .. => .ldByte
  | addByte .. => .addByte
  | alu op _ _ => op.opcode
  | skipNe .. => .sne
  | setIndex _ => .ldIndex
  | jumpOffset _ => .jpOffset
  | random .. => .rnd
  | draw .. => .drw
  | skipDown _ => .skp
  | skipUp _ => .sknp
  | readDelay _ => .ldFromDelay
  | awaitKey _ => .ldKey
  | setDelay _ => .ldToDelay
  | setSound _ => .ldToSound
  | addIndex _ => .addIndex
  | pointGlyph _ => .ldGlyph
  | storeDecimal _ => .ldDecimal
  | store _ => .ldToMemory
  | load _ => .ldFromMemory

-- The instruction of a given kind whose operands stand in the word.
def ofFields (op : Opcode) (w : Word) : Instruction :=
  match op with
  | .cls => clear
  | .ret => ret
  | .sys => sys w.nnn
  | .jp => jump w.nnn
  | .call => call w.nnn
  | .seByte => skipEqByte w.x w.kk
  | .sneByte => skipNeByte w.x w.kk
  | .se => skipEq w.x w.y
  | .ldByte => setByte w.x w.kk
  | .addByte => addByte w.x w.kk
  | .ld => alu .copy w.x w.y
  | .or => alu .or w.x w.y
  | .and => alu .and w.x w.y
  | .xor => alu .xor w.x w.y
  | .add => alu .add w.x w.y
  | .sub => alu .sub w.x w.y
  | .shr => alu .shr w.x w.y
  | .subn => alu .subn w.x w.y
  | .shl => alu .shl w.x w.y
  | .sne => skipNe w.x w.y
  | .ldIndex => setIndex w.nnn
  | .jpOffset => jumpOffset w.nnn
  | .rnd => random w.x w.kk
  | .drw => draw w.x w.y w.n
  | .skp => skipDown w.x
  | .sknp => skipUp w.x
  | .ldFromDelay => readDelay w.x
  | .ldKey => awaitKey w.x
  | .ldToDelay => setDelay w.x
  | .ldToSound => setSound w.x
  | .addIndex => addIndex w.x
  | .ldGlyph => pointGlyph w.x
  | .ldDecimal => storeDecimal w.x
  | .ldToMemory => store w.x
  | .ldFromMemory => load w.x

def ofWord? (w : Word) : Option Instruction :=
  (Opcode.ofWord? w).map (ofFields · w)

-- The same instruction with another address and another height.
def map {α β ν μ : Type} (f : α → β) (g : ν → μ) : Instruction α ν → Instruction β μ
  | clear => clear
  | ret => ret
  | sys nnn => sys (f nnn)
  | jump nnn => jump (f nnn)
  | call nnn => call (f nnn)
  | skipEqByte x kk => skipEqByte x kk
  | skipNeByte x kk => skipNeByte x kk
  | skipEq x y => skipEq x y
  | setByte x kk => setByte x kk
  | addByte x kk => addByte x kk
  | alu op x y => alu op x y
  | skipNe x y => skipNe x y
  | setIndex nnn => setIndex (f nnn)
  | jumpOffset nnn => jumpOffset (f nnn)
  | random x kk => random x kk
  | draw x y n => draw x y (g n)
  | skipDown x => skipDown x
  | skipUp x => skipUp x
  | readDelay x => readDelay x
  | awaitKey x => awaitKey x
  | setDelay x => setDelay x
  | setSound x => setSound x
  | addIndex x => addIndex x
  | pointGlyph x => pointGlyph x
  | storeDecimal x => storeDecimal x
  | store x => store x
  | load x => load x

-- With room for any word as the address, and for any byte as the height.
def widen : Instruction → Instruction UInt16 UInt8 :=
  map (fun a => UInt16.ofNat a) (fun n => UInt8.ofNat n)

-- The operands, each in its digits of a word.
def operandBits : Instruction → Nat
  | clear | ret => 0
  | sys nnn | jump nnn | call nnn | setIndex nnn | jumpOffset nnn => nnn
  | skipEqByte x kk | skipNeByte x kk | setByte x kk | addByte x kk | random x kk =>
    x * 0x100 + kk.toNat
  | skipEq x y | alu _ x y | skipNe x y => x * 0x100 + y * 0x10
  | draw x y n => x * 0x100 + y * 0x10 + n
  | skipDown x | skipUp x | readDelay x | awaitKey x | setDelay x | setSound x | addIndex x
  | pointGlyph x | storeDecimal x | store x | load x => x * 0x100

def encode (i : Instruction) : Word :=
  i.opcode.pattern.bits ||| UInt16.ofNat i.operandBits

theorem opcode_ofFields (op : Opcode) (w : Word) : (ofFields op w).opcode = op := by
  cases op <;> rfl

theorem map_opcode_ofWord? (w : Word) : (ofWord? w).map opcode = Opcode.ofWord? w := by
  simp [ofWord?, Function.comp_def, opcode_ofFields]

end Instruction
end Chip8
