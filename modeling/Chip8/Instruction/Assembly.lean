import Chip8.Instruction

namespace Chip8

-- What can stand behind a mnemonic.
inductive Operand
  | register (r : Register)
  -- It has at least `width` digits.
  | number (width n : Nat)
  | index
  | memory
  | delay
  | sound
  | key
  | glyph
  | decimal
  deriving DecidableEq

def Operand.text : Operand → String
  | register r => r.name
  | number width n => Numeral.hex width n
  | index => "I"
  | memory => "[I]"
  | delay => "DT"
  | sound => "ST"
  | key => "K"
  | glyph => "F"
  | decimal => "B"

def Alu.mnemonic : Alu → String
  | copy => "LD"
  | or => "OR"
  | and => "AND"
  | xor => "XOR"
  | add => "ADD"
  | sub => "SUB"
  | shr => "SHR"
  | subn => "SUBN"
  | shl => "SHL"

def Alu.name : Alu → String
  | copy => "CopyRegister"
  | or => "Or"
  | and => "And"
  | xor => "XOr"
  | add => "Add"
  | sub => "SubtractForward"
  | shr => "RightShift"
  | subn => "SubtractBackward"
  | shl => "LeftShift"

namespace Instruction

def mnemonic {α ν : Type} : Instruction α ν → String
  | clear => "CLS"
  | ret => "RET"
  | sys _ => "SYS"
  | jump _ | jumpOffset _ => "JP"
  | call _ => "CALL"
  | skipEqByte .. | skipEq .. => "SE"
  | skipNeByte .. | skipNe .. => "SNE"
  | setByte .. | setIndex _ => "LD"
  | addByte .. | addIndex _ => "ADD"
  | alu op _ _ => op.mnemonic
  | random .. => "RND"
  | draw .. => "DRW"
  | skipDown _ => "SKP"
  | skipUp _ => "SKNP"
  | readDelay _ | awaitKey _ | setDelay _ | setSound _ | pointGlyph _ | storeDecimal _ | store _
  | load _ => "LD"

-- A shift shows only the register that it writes.
def operands : Instruction UInt16 UInt8 → List Operand
  | clear | ret => []
  | sys nnn | jump nnn | call nnn => [.number 3 nnn.toNat]
  | skipEqByte x kk | skipNeByte x kk | setByte x kk | addByte x kk | random x kk =>
    [.register x, .number 2 kk.toNat]
  | skipEq x y | skipNe x y => [.register x, .register y]
  | alu .shr x _ | alu .shl x _ => [.register x]
  | alu _ x y => [.register x, .register y]
  | setIndex nnn => [.index, .number 3 nnn.toNat]
  | jumpOffset nnn => [.register 0, .number 3 nnn.toNat]
  | draw x y n => [.register x, .register y, .number 1 n.toNat]
  | skipDown x | skipUp x => [.register x]
  | readDelay x => [.register x, .delay]
  | awaitKey x => [.register x, .key]
  | setDelay x => [.delay, .register x]
  | setSound x => [.sound, .register x]
  | addIndex x => [.index, .register x]
  | pointGlyph x => [.glyph, .register x]
  | storeDecimal x => [.decimal, .register x]
  | store x => [.memory, .register x]
  | load x => [.register x, .memory]

def text (i : Instruction UInt16 UInt8) : String :=
  match i.operands with
  | [] => i.mnemonic
  | ops => i.mnemonic ++ " " ++ String.intercalate ", " (ops.map Operand.text)

def assembly (i : Instruction) : String :=
  i.widen.text

def name : Instruction → String
  | clear => "ClearScreen"
  | ret => "PopSubroutine"
  | sys _ => "System"
  | jump _ => "Jump"
  | call _ => "PushSubroutine"
  | skipEqByte .. => "SkipEqualConstant"
  | skipNeByte .. => "SkipNotEqualConstant"
  | skipEq .. => "SkipEqualRegister"
  | setByte .. => "SetRegister"
  | addByte .. => "AddToRegister"
  | alu op _ _ => op.name
  | skipNe .. => "SkipNotEqualRegister"
  | setIndex _ => "SetIndexRegister"
  | jumpOffset _ => "JumpWithOffset"
  | random .. => "Random"
  | draw .. => "Display"
  | skipDown _ => "SkipIfPressed"
  | skipUp _ => "SkipIfNotPressed"
  | readDelay _ => "CopyDelayToRegister"
  | awaitKey _ => "GetKey"
  | setDelay _ => "CopyRegisterToDelay"
  | setSound _ => "CopyRegisterToSound"
  | addIndex _ => "AddToIndex"
  | pointGlyph _ => "PointChar"
  | storeDecimal _ => "ToDecimal"
  | store _ => "StoreRegisterToMemory"
  | load _ => "LoadRegisterFromMemory"

-- All operands, the unshown ones of assembly too: registers by name, numbers in decimal.
def arguments : Instruction → List String
  | clear | ret => []
  | sys nnn | jump nnn | call nnn | setIndex nnn | jumpOffset nnn => [Numeral.decimal nnn]
  | skipEqByte x kk | skipNeByte x kk | setByte x kk | addByte x kk | random x kk =>
    [x.name, Numeral.decimal kk.toNat]
  | skipEq x y | alu _ x y | skipNe x y => [x.name, y.name]
  | draw x y n => [x.name, y.name, Numeral.decimal n]
  | skipDown x | skipUp x | readDelay x | awaitKey x | setDelay x | setSound x | addIndex x
  | pointGlyph x | storeDecimal x | store x | load x => [x.name]

def inspect (i : Instruction) : String :=
  match i.arguments with
  | [] => i.name
  | args => i.name ++ "(" ++ String.intercalate ", " args ++ ")"

end Instruction
end Chip8
