import Chip8.Proofs.Block
import Chip8.Proofs.Kept

namespace Chip8.Machine

inductive Tick (m : Machine) : Machine → Prop
  -- A register waits, and no key has been let go.
  | wait (turn : m.turn = .poll) (unreleased : m.keypad.released? = none) : Tick m m
  | resolve {x k} (wait : m.keypad.wait = some x) (released : m.keypad.released? = some k) :
    Tick m ({ m with keypad.wait := none }.setReg x k.toByte)
  | rest (turn : m.turn = .rest) : Tick m m
  | stuck {f} (turn : m.turn = .stuck f) : Tick m { m with cpu := m.cpu.halt f }
  | complete {w i} (turn : m.turn = .run w i) (done : ((m.start i).execute i).fault = none) :
    Tick m ((m.start i).execute i).machine.complete
  | fail {w i f} (turn : m.turn = .run w i) (fault : ((m.start i).execute i).fault = some f) :
    Tick m (((m.start i).execute i).machine.halt f).value

variable {m m' : Machine}

theorem fetch_eq_ok_iff {w : Word} {i : Instruction} :
    m.fetch = .ok (w, i) ↔ m.memory.WordAt m.cpu.pc.toNat w ∧ Instruction.ofWord? w = some i := by
  rw [← Memory.readWord_eq_ok_iff, fetch]
  cases hw : m.memory.readWord m.cpu.pc
  case error => simp
  case ok w' => cases hi : Instruction.ofWord? w' <;> grind

theorem fetch_eq_error_iff {f : Fault} :
    m.fetch = .error f ↔
      (0xFFF ≤ m.cpu.pc.toNat ∧ f = .outOfBounds (max m.cpu.pc.toNat 0x1000)) ∨
      ∃ w, m.memory.WordAt m.cpu.pc.toNat w ∧ Instruction.ofWord? w = none ∧
        f = .invalidInstruction w m.cpu.pc := by
  rw [← Memory.readWord_eq_error_iff, fetch]
  simp only [← Memory.readWord_eq_ok_iff]
  cases hw : m.memory.readWord m.cpu.pc
  case error => simp
  case ok w  => cases hi : Instruction.ofWord? w <;> simp [hi, eq_comm]

theorem turn_eq_poll_iff : m.turn = .poll ↔ m.keypad.wait.isSome := by
  unfold turn
  repeat' split
  all_goals simp_all

-- A processor that neither waits nor rests does what it fetches.
theorem turn_of_ready (hw : m.keypad.wait = none) (hr : m.cpu.running = true)
    (hl : m.limiter.allows m.cpu.cycles = true) :
    m.turn = match m.fetch with
      | .error f    => .stuck f
      | .ok (w, i) => .run w i := by
  simp only [turn, hw, hr, hl]
  rfl

theorem turn_eq_run_iff {w : Word} {i : Instruction} :
    m.turn = .run w i ↔
      m.keypad.wait = none ∧ m.cpu.running = true ∧ m.limiter.allows m.cpu.cycles = true ∧
      m.fetch = .ok (w, i) := by
  constructor
  case mp =>
    intro h
    unfold turn at h
    repeat' split at h
    all_goals simp_all
  case mpr =>
    intro ⟨hw, hr, hl, hf⟩
    rw [turn_of_ready hw hr hl, hf]

theorem tick_poll (h : m.turn = .poll) : Tick m m.poll.value := by
  obtain ⟨x, hx⟩ := Option.isSome_iff_exists.mp <| turn_eq_poll_iff.mp h
  cases hk : m.keypad.released?
  case none =>
    have hm : m.poll.value = m := by simp [poll, checkKey, Keypad.resolve?, hx, hk]
    rw [hm]
    exact .wait h hk
  case some k =>
    have hm : m.poll.value = { m with keypad.wait := none }.setReg x k.toByte := by
      simp [poll, checkKey, Keypad.resolve?, hx, hk]
    rw [hm]
    exact .resolve hx hk

theorem tick_runInstruction {w : Word} {i : Instruction} (h : m.turn = .run w i) :
    Tick m (m.runInstruction w i).value := by
  simp only [runInstruction, finish]
  split
  case h_1 hf => exact .complete h hf
  case h_2 hf => exact .fail h hf

theorem tick (m : Machine) : Tick m m.cpuTick.value := by
  unfold cpuTick
  split
  case h_1 h => exact tick_poll h
  case h_2 h => exact .rest h
  case h_3 h => exact .stuck h
  case h_4 h => exact tick_runInstruction h

namespace Tick

theorem preserves_staged : Tick m m' → m'.memory.staged = m.memory.staged
  | wait .. | resolve .. | rest _ | stuck _ => rfl
  | complete .. | fail ..                   => execute_preserves_staged ..

theorem preserves_dialect : Tick m m' → m'.dialect = m.dialect
  | wait .. | resolve .. | rest _ | stuck _ => rfl
  | complete .. | fail ..                   =>
    execute_preserves Kept.dialect (fun _ _ _ _ _ _ => rfl) ..

end Tick
end Chip8.Machine
