import Chip8.Cpu
import Chip8.Instruction.Assembly
import Chip8.Keypad
import Chip8.Period

namespace Chip8.Log

inductive Level
  | error | warn | info | debug | trace
  deriving DecidableEq

namespace Level

-- The most severe level comes first.
def rank : Level → Nat
  | error => 0
  | warn => 1
  | info => 2
  | debug => 3
  | trace => 4

def name : Level → String
  | error => "ERROR"
  | warn => "WARN"
  | info => "INFO"
  | debug => "DEBUG"
  | trace => "TRACE"

end Level

inductive Entry
  -- An instruction was fetched, and is about to run.
  | fetched (word : Word) (instruction : Instruction)
  | countedDown (delay sound : UInt8)
  | halted (cycles : UInt64) (fault : Fault)
  | waiting
  | waitResolved (key : Key)
  | waitReplaced
  | programCut (size : Nat)
  | loading (size : Nat)
  | reset
  | paused (cycles : UInt64)
  | resumed (cycles : UInt64)
  | started (cpu timers : Period)
  | alreadyStarted
  | crashed
  | stopped
  deriving DecidableEq

namespace Entry

def level : Entry → Level
  | fetched .. | waitResolved _ => .debug
  | countedDown .. | waiting => .trace
  | halted .. | crashed => .error
  | waitReplaced | programCut _ | alreadyStarted => .warn
  | loading _ | reset | paused _ | resumed _ | started .. | stopped => .info

def text : Entry → String
  | fetched word i => "[" ++ Numeral.hex 4 word.toNat ++ "] " ++ i.assembly
  | countedDown delay sound =>
    "timers: DT=" ++ Numeral.decimal delay.toNat ++ " ST=" ++ Numeral.decimal sound.toNat
  | halted cycles f =>
    "halting after " ++ Numeral.decimal cycles.toNat ++ " cycles: " ++ f.message
  | waiting => "waiting for key release"
  | waitResolved k => "key wait resolved by " ++ k.name
  | waitReplaced => "key wait already pending, replacing it"
  | programCut size =>
    "ROM is " ++ Numeral.decimal size ++ " bytes, truncating to " ++ Numeral.decimal Rom.capacity ++
      " bytes"
  | loading size => "loading " ++ Numeral.decimal size ++ " byte ROM"
  | reset => "reset"
  | paused cycles => "paused at cycle " ++ Numeral.decimal cycles.toNat
  | resumed cycles => "resumed at cycle " ++ Numeral.decimal cycles.toNat
  | started cpu timers =>
    "run loop started: cpu every " ++ cpu.text ++ ", timers every " ++ timers.text
  | alreadyStarted => "run loop already started"
  | crashed => "run loop thread panicked"
  | stopped => "run loop stopped"

def line (e : Entry) : String :=
  e.level.name ++ " " ++ e.text

-- A log that is kept at some level has the entries of that level and the more severe ones.
def isKept (e : Entry) (l : Level) : Bool :=
  e.level.rank ≤ l.rank

end Entry
end Chip8.Log
