import Chip8.Machine.Tick

namespace Chip8

-- The parts of a machine that most instructions leave as they are. The few that do not are told apart
-- in `kept_execute`.
structure Kept where
  speaker : Speaker
  dialect : Dialect
  limiter : Limiter
  noise   : Noise
  keypad  : Keypad
  staged  : Option Rom
  stack   : CallStack
  delay   : Countdown
  sound   : Countdown
  running : Bool
  cycles  : UInt64
  last    : Option Instruction
  fault   : Option Fault

namespace Machine

def kept (m : Machine) : Kept where
  speaker := m.speaker
  dialect := m.dialect
  limiter := m.limiter
  noise   := m.noise
  keypad  := m.keypad
  staged  := m.memory.staged
  stack   := m.cpu.stack
  delay   := m.cpu.delay
  sound   := m.cpu.sound
  running := m.cpu.running
  cycles  := m.cpu.cycles
  last    := m.cpu.last
  fault   := m.cpu.fault

section

-- A part that a jump leaves as it is, a skip leaves as it is, and so on.
variable {α : Type} (part : Machine → α)

theorem skipIf_preserves (h : ∀ m a, part (jumpTo m a) = part m) (m : Machine) (c : Prop)
    [Decidable c] : part (m.skipIf c) = part m := by
  unfold skipIf
  split
  · exact h ..
  · rfl

theorem pointPast_preserves (h : ∀ m a, part (pointTo m a) = part m) (m : Machine)
    (x : Register) : part (m.pointPast x) = part m := by
  unfold pointPast
  split
  · rfl
  · exact h ..

theorem setResult_preserves (h : ∀ (m : Machine) v, part { m with cpu.registers := v } = part m)
    (m : Machine) (x : Register) :
    (r : UInt8 × Option UInt8) → part (m.setResult x r) = part m
  | (_, none)   => h ..
  | (_, some _) => (h ..).trans (h ..)

theorem draw_preserves (h : ∀ (m : Machine) v, part { m with cpu.registers := v } = part m)
    (hs : ∀ (m : Machine) s, part { m with screen := s } = part m) (m : Machine) (x y : Register)
    (n : Nibble) : part (m.draw x y n).machine = part m := by
  unfold draw
  split
  · rfl
  · exact (h ..).trans (hs ..)

theorem storeBytes_preserves (h : ∀ (m : Machine) b, part { m with memory.bytes := b } = part m)
    (m : Machine) (bs : List UInt8) {next : Machine → Machine}
    (hn : ∀ m, part (next m) = part m) : part (m.storeBytes bs next).machine = part m := by
  have hs := m.memory.writeBlock_preserves_staged m.cpu.index.toNat bs
  have hw (memory : Memory) (hs : memory.staged = m.memory.staged) :
      part { m with memory } = part m := by
    have hm : memory = { m.memory with bytes := memory.bytes } := Memory.ext rfl hs
    rw [hm]
    exact h ..
  unfold storeBytes
  split
  all_goals simp only [*] at hs
  · exact hw _ hs
  · exact (hn _).trans (hw _ hs)

theorem loadRegisters_preserves
    (h : ∀ (m : Machine) v, part { m with cpu.registers := v } = part m)
    (hi : ∀ m a, part (pointTo m a) = part m) (m : Machine) (x : Register) :
    part (m.loadRegisters x).machine = part m := by
  unfold loadRegisters
  split
  · exact h ..
  · exact (pointPast_preserves part hi ..).trans (h ..)

end

theorem kept_execute (m : Machine) (i : Instruction) :
    (m.execute i).machine.kept = match i with
      | .ret => { m.kept with
          stack := ((m.cpu.stack.pop m.origin).map Prod.snd).toOption.getD m.cpu.stack }
      | .call _ => { m.kept with
          stack := (m.cpu.stack.push m.cpu.pc m.origin).toOption.getD m.cpu.stack }
      | .random _ _ => { m.kept with noise := m.noise.next }
      | .awaitKey x => { m.kept with keypad := m.keypad.await x }
      | .setDelay x => { m.kept with delay := ⟨m.reg x⟩ }
      | .setSound x => { m.kept with sound := ⟨m.reg x⟩ }
      | _ => m.kept := by
  cases i
  case ret | call =>
    simp only [execute]
    split
    all_goals simp only [*]; rfl
  case skipEqByte | skipNeByte | skipEq | skipNe | skipDown | skipUp =>
    exact skipIf_preserves kept (fun _ _ => rfl) ..
  case alu          => exact setResult_preserves kept (fun _ _ => rfl) ..
  case draw         => exact draw_preserves kept (fun _ _ => rfl) (fun _ _ => rfl) ..
  case storeDecimal => exact storeBytes_preserves kept (fun _ _ => rfl) _ _ fun _ => rfl
  case store        => exact storeBytes_preserves kept (fun _ _ => rfl) _ _ <|
    (pointPast_preserves kept (fun _ _ => rfl) · _)
  case load         => exact loadRegisters_preserves kept (fun _ _ => rfl) (fun _ _ => rfl) ..
  all_goals rfl

-- What none of the few instructions above touches, no instruction touches.
theorem execute_preserves {α : Type} (part : Kept → α)
    (h : ∀ (k : Kept) stack noise keypad delay sound,
      part { k with stack, noise, keypad, delay, sound } = part k)
    (m : Machine) (i : Instruction) : part (m.execute i).machine.kept = part m.kept := by
  rw [kept_execute]
  cases i <;> exact h m.kept _ _ _ _ _

theorem execute_preserves_running (m : Machine) (i : Instruction) :
    (m.execute i).machine.cpu.running = m.cpu.running :=
  execute_preserves Kept.running (fun _ _ _ _ _ _ => rfl) m i

theorem execute_preserves_cycles (m : Machine) (i : Instruction) :
    (m.execute i).machine.cpu.cycles = m.cpu.cycles :=
  execute_preserves Kept.cycles (fun _ _ _ _ _ _ => rfl) m i

theorem execute_preserves_fault (m : Machine) (i : Instruction) :
    (m.execute i).machine.cpu.fault = m.cpu.fault :=
  execute_preserves Kept.fault (fun _ _ _ _ _ _ => rfl) m i

theorem execute_preserves_limiter (m : Machine) (i : Instruction) :
    (m.execute i).machine.limiter = m.limiter :=
  execute_preserves Kept.limiter (fun _ _ _ _ _ _ => rfl) m i

theorem execute_preserves_staged (m : Machine) (i : Instruction) :
    (m.execute i).machine.memory.staged = m.memory.staged :=
  execute_preserves Kept.staged (fun _ _ _ _ _ _ => rfl) m i

theorem execute_preserves_keypad {m : Machine} {i : Instruction} (h : ∀ x, i ≠ .awaitKey x) :
    (m.execute i).machine.keypad = m.keypad := by
  have hk := congrArg Kept.keypad <| m.kept_execute i
  cases i
  case awaitKey x => exact absurd rfl (h x)
  all_goals exact hk

theorem execute_preserves_stack {m : Machine} {i : Instruction} (hr : i ≠ .ret)
    (hc : ∀ nnn, i ≠ .call nnn) : (m.execute i).machine.cpu.stack = m.cpu.stack := by
  have h := congrArg Kept.stack <| m.kept_execute i
  cases i
  case ret      => exact absurd rfl hr
  case call nnn => exact absurd rfl (hc nnn)
  all_goals exact h

theorem execute_preserves_delay {m : Machine} {i : Instruction} (h : ∀ x, i ≠ .setDelay x) :
    (m.execute i).machine.cpu.delay = m.cpu.delay := by
  have hk := congrArg Kept.delay <| m.kept_execute i
  cases i
  case setDelay x => exact absurd rfl (h x)
  all_goals exact hk

theorem execute_preserves_sound {m : Machine} {i : Instruction} (h : ∀ x, i ≠ .setSound x) :
    (m.execute i).machine.cpu.sound = m.cpu.sound := by
  have hk := congrArg Kept.sound <| m.kept_execute i
  cases i
  case setSound x => exact absurd rfl (h x)
  all_goals exact hk

theorem execute_preserves_noise {m : Machine} {i : Instruction} (h : ∀ x kk, i ≠ .random x kk) :
    (m.execute i).machine.noise = m.noise := by
  have hk := congrArg Kept.noise <| m.kept_execute i
  cases i
  case random x kk => exact absurd rfl (h x kk)
  all_goals exact hk

end Machine
end Chip8
