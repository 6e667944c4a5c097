import Chip8.Machine

namespace Chip8

-- The machine that an instruction leaves, and the fault that cut it short, if one did.
@[ext]
structure Outcome where
  machine : Machine
  fault : Option Fault := none
  reports : List Report := []

namespace Machine

-- The address of the instruction that is running.
def origin (m : Machine) : UInt16 :=
  m.cpu.pc - Cpu.stride

def jumpTo (m : Machine) (a : UInt16) : Machine :=
  { m with cpu.pc := a }

def skipIf (m : Machine) (c : Prop) [Decidable c] : Machine :=
  if c then { m with cpu := m.cpu.advance } else m

def pointTo (m : Machine) (a : UInt16) : Machine :=
  { m with cpu.index := a }

-- After storing or loading registers.
def pointPast (m : Machine) (last : Register) : Machine :=
  match m.dialect with
  | .modern => m
  | .compatible => m.pointTo (m.cpu.index + UInt16.ofNat last + 1)

-- The flag is written last, so it wins where it shares a register with the result.
def setResult (m : Machine) (x : Register) : UInt8 × Option UInt8 → Machine
  | (b, none) => m.setReg x b
  | (b, some flag) => (m.setReg x b).setReg .flag flag

-- The sprite is read as a whole before any of it is drawn.
def draw (m : Machine) (x y : Register) (n : Nibble) : Outcome :=
  match m.memory.readBlock m.cpu.index.toNat n with
  | (_, some f) => ⟨m, some f, []⟩
  | (rows, none) =>
    let (screen, hit) := m.screen.paint (m.reg x) (m.reg y) rows
    { machine := { m with screen := screen }.setReg .flag hit.toUInt8 }

-- Writes bytes from `I` on, then goes on with `next` if all of them fit.
def storeBytes (m : Machine) (bs : List UInt8) (next : Machine → Machine) : Outcome :=
  match m.memory.writeBlock m.cpu.index.toNat bs with
  | (memory, some f) => ⟨{ m with memory := memory }, some f, []⟩
  | (memory, none) => { machine := next { m with memory := memory } }

-- The registers before the first byte out of bounds are loaded even so.
def loadRegisters (m : Machine) (last : Register) : Outcome :=
  match m.memory.readBlock m.cpu.index.toNat (last + 1) with
  | (bs, some f) => ⟨{ m with cpu.registers := m.cpu.registers.overwrite bs }, some f, []⟩
  | (bs, none) =>
    { machine := { m with cpu.registers := m.cpu.registers.overwrite bs }.pointPast last }

-- The hundreds, tens and ones of a byte.
def decimalDigits (b : UInt8) : List UInt8 :=
  [b / 100, b / 10 % 10, b % 10]

theorem decimalDigits_spec (b : UInt8) :
    ∃ hundreds tens ones, decimalDigits b = [hundreds, tens, ones] ∧
      tens.toNat < 10 ∧ ones.toNat < 10 ∧
      hundreds.toNat * 100 + tens.toNat * 10 + ones.toNat = b.toNat := by
  refine ⟨_, _, _, rfl, ?_⟩
  simp only [UInt8.toNat_mod, UInt8.toNat_div, UInt8.reduceToNat]
  omega

-- The program counter has moved past the instruction before it runs, so a call returns behind itself
-- and a skip leaves out the next instruction.
def execute (m : Machine) : Instruction → Outcome
  | .clear => { machine := { m with screen := .blank } }
  | .ret =>
    match m.cpu.stack.pop m.origin with
    | .error f => ⟨m, some f, []⟩
    | .ok (a, stack) => { machine := { m with cpu.stack := stack }.jumpTo a }
  | .sys _ => { machine := m }
  | .jump nnn => { machine := m.jumpTo (UInt16.ofNat nnn) }
  | .call nnn =>
    match m.cpu.stack.push m.cpu.pc m.origin with
    | .error f => ⟨m, some f, []⟩
    | .ok stack => { machine := { m with cpu.stack := stack }.jumpTo (UInt16.ofNat nnn) }
  | .skipEqByte x kk => { machine := m.skipIf (m.reg x = kk) }
  | .skipNeByte x kk => { machine := m.skipIf (m.reg x ≠ kk) }
  | .skipEq x y => { machine := m.skipIf (m.reg x = m.reg y) }
  | .setByte x kk => { machine := m.setReg x kk }
  | .addByte x kk => { machine := m.setReg x (m.reg x + kk) }
  | .alu op x y => { machine := m.setResult x (op.eval m.dialect (m.reg x) (m.reg y)) }
  | .skipNe x y => { machine := m.skipIf (m.reg x ≠ m.reg y) }
  | .setIndex nnn => { machine := m.pointTo (UInt16.ofNat nnn) }
  | .jumpOffset nnn => { machine := m.jumpTo (UInt16.ofNat nnn + (m.reg 0).toUInt16) }
  | .random x kk =>
    { machine := { m with noise := m.noise.next }.setReg x (m.noise.current &&& kk) }
  | .draw x y n => m.draw x y n
  | .skipDown x => { machine := m.skipIf (m.keypad.isDown (Key.ofByte (m.reg x))) }
  | .skipUp x => { machine := m.skipIf (¬m.keypad.isDown (Key.ofByte (m.reg x))) }
  | .readDelay x => { machine := m.setReg x m.cpu.delay.count }
  | .awaitKey x => { machine := (m.awaitKey x).value, reports := (m.awaitKey x).reports }
  | .setDelay x => { machine := { m with cpu.delay := ⟨m.reg x⟩ } }
  | .setSound x => { machine := { m with cpu.sound := ⟨m.reg x⟩ } }
  | .addIndex x => { machine := m.pointTo (m.cpu.index + (m.reg x).toUInt16) }
  | .pointGlyph x =>
    { machine := m.pointTo (UInt16.ofNat (Glyph.first + Glyph.height * (m.reg x).toNat)) }
  | .storeDecimal x => m.storeBytes (decimalDigits (m.reg x)) id
  | .store x => m.storeBytes (m.cpu.registers.firstThrough x) (·.pointPast x)
  | .load x => m.loadRegisters x

end Machine
end Chip8
