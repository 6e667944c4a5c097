import Chip8.Cpu
import Chip8.Instruction.Assembly

namespace Chip8

namespace Registers

-- A row of the report, for the registers in it.
def reportRow (v : Registers) (rs : List Register) : String :=
  String.join (rs.map fun r => r.name ++ "  " ++ Numeral.hex 2 (v.get r).toNat ++ "    ") ++ "\n"

-- Four rows of four.
def report (v : Registers) : String :=
  v.reportRow (Register.through 0x0 0x3) ++ v.reportRow (Register.through 0x4 0x7) ++
    v.reportRow (Register.through 0x8 0xB) ++ v.reportRow (Register.through 0xC 0xF)

end Registers

namespace Cpu

-- What a person who debugs a program is shown of the processor.
@[ext]
structure View where
  pc : UInt16
  index : UInt16
  delay : UInt8
  sound : UInt8
  -- The return address of the outermost call comes first.
  stack : List UInt16
  registers : Registers
  cycles : UInt64
  running : Bool
  last : Option (Instruction UInt16 UInt8)
  fault : Option Fault
  deriving DecidableEq

def view (c : Cpu) : View where
  pc := c.pc
  index := c.index
  delay := c.delay.count
  sound := c.sound.count
  stack := c.stack.toList
  registers := c.registers
  cycles := c.cycles
  running := c.running
  last := c.last.map Instruction.widen
  fault := c.fault

namespace View

def reportState (v : View) : String :=
  "PC " ++ Numeral.hex 4 v.pc.toNat ++ "  I " ++ Numeral.hex 4 v.index.toNat ++
    "  DT " ++ Numeral.hex 2 v.delay.toNat ++ "  ST " ++ Numeral.hex 2 v.sound.toNat ++
    "  cycles " ++ Numeral.decimal v.cycles.toNat ++
    (if v.running then "" else "  (stopped)") ++ "\n"

def reportStack (v : View) : String :=
  "stack [" ++ String.intercalate ", " (v.stack.map (Numeral.hex 4 ·.toNat)) ++ "]\n"

def reportLast (v : View) : String :=
  match v.last with
  | none => ""
  | some i => "last  " ++ i.text ++ "\n"

def reportFault (v : View) : String :=
  match v.fault with
  | none => ""
  | some f => "fault " ++ f.message ++ "\n"

-- The lines on the last instruction and on the fault stand there only if there is one.
def report (v : View) : String :=
  v.reportState ++ v.registers.report ++ v.reportStack ++ v.reportLast ++ v.reportFault

end View

def report (c : Cpu) : String :=
  c.view.report

-- All numbers in decimal. The last instruction is left out.
def inspect (c : Cpu) : String :=
  "Cpu \x7b registers: Registers \x7b registers: " ++
    numbers (c.registers.bytes.toList.map (·.toNat)) ++
    " \x7d, pc: ProgramCounter(" ++ Numeral.decimal c.pc.toNat ++
    "), index: IndexRegister(" ++ Numeral.decimal c.index.toNat ++
    "), delay_timer: " ++ timer c.delay ++ ", sound_timer: " ++ timer c.sound ++
    ", stack: Stack \x7b addresses: " ++ numbers (c.stack.toList.map (·.toNat)) ++
    " \x7d, running: " ++ (if c.running then "true" else "false") ++
    ", cycles: " ++ Numeral.decimal c.cycles.toNat ++ ", fault: " ++ fault ++ ", .. \x7d"
where
  numbers (ns : List Nat) : String :=
    "[" ++ String.intercalate ", " (ns.map Numeral.decimal) ++ "]"
  timer (t : Countdown) : String :=
    "Timer \x7b count: " ++ Numeral.decimal t.count.toNat ++ " \x7d"
  fault : String :=
    match c.fault with
    | none => "None"
    | some f => "Some(" ++ f.inspect ++ ")"

end Cpu
end Chip8
