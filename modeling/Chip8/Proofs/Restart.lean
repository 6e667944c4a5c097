import Chip8.Proofs.Speaker
import Chip8.Proofs.Tick

namespace Chip8

namespace Limiter

theorem restart_congr {l₁ l₂ : Limiter} (hp : l₁.paused = l₂.paused)
    (hc : l₁.ceiling = l₂.ceiling) : l₁.restart = l₂.restart := by
  simp [restart, hp, hc]

end Limiter

namespace Machine

variable {m : Machine}

-- Only a load stages a program.
theorem staged_handle (m : Machine) (e : Event) :
    (m.handle e).value.memory.staged = (e.program?.map Rom.ofBytes).or m.memory.staged := by
  cases e
  case load    => exact Memory.image_staged _
  case reset   => exact Memory.image_staged _
  case cpuTick => exact m.tick.preserves_staged
  all_goals rfl

theorem staged_after (m : Machine) (es : List Event) :
    (m.after es).memory.staged = ((Event.lastProgram? es).map Rom.ofBytes).or m.memory.staged := by
  induction es generalizing m
  case nil => rfl
  case cons e es ih =>
    rw [after_cons, ih, staged_handle, Event.lastProgram?_cons]
    cases Event.lastProgram? es <;> rfl

-- What is left of a machine when it begins a program: the speaker, the dialect, the pause with its
-- ceiling and the random bytes.
theorem load_value (m : Machine) (program : Array UInt8) :
    (m.load program).value = {
      cpu.running := true
      memory  := .load program
      speaker := m.speaker.receive .stop
      dialect := m.dialect
      limiter := m.limiter.restart
      noise   := m.noise } :=
  rfl

theorem reset_value (m : Machine) :
    m.reset.value = {
      cpu.running := m.memory.staged.isSome
      memory  := m.memory.reset
      speaker := m.speaker.receive .stop
      dialect := m.dialect
      limiter := m.limiter.restart
      noise   := m.noise } :=
  rfl

theorem reset_value_of_staged {program : Array UInt8}
    (h : m.memory.staged = some (Rom.ofBytes program)) :
    m.reset.value = (m.load program).value := by
  have hm : m.memory.reset = Memory.load program := by rw [Memory.reset, h, Memory.load]
  have hr : m.memory.staged.isSome = true := by rw [h]; rfl
  simp only [load_value, reset_value, hm, hr]

theorem isOn_load (m : Machine) (program : Array UInt8) :
    (m.load program).value.speaker.isOn = false := by
  rw [load_value]
  cases m.speaker <;> rfl

variable {m₁ m₂ : Machine}

theorem load_congr (hd : m₁.dialect = m₂.dialect) (hp : m₁.limiter.paused = m₂.limiter.paused)
    (hc : m₁.limiter.ceiling = m₂.limiter.ceiling) (hn : m₁.noise = m₂.noise)
    (program : Array UInt8) :
    (m₁.load program).value =
      (m₂.load program).value.attach (m₁.load program).value.speaker := by
  simp only [load_value, attach, hd, Limiter.restart_congr hp hc, hn]

-- Of two machines, however they have come about, nothing but the dialect, the pause with its
-- ceiling and the random bytes can be told apart once a program is loaded. The speakers are both
-- silent, but may be of different kinds. Where the program is the last one that the first machine
-- was given, a reset does what loading it does, and whatever happens next shows the same.
theorem load_forgets_history (m₁ m₂ : Machine)
    (hd : m₁.dialect = m₂.dialect) (hp : m₁.limiter.paused = m₂.limiter.paused)
    (hc : m₁.limiter.ceiling = m₂.limiter.ceiling) (hn : m₁.noise = m₂.noise)
    (program : Array UInt8) :
    (m₁.load program).value =
      (m₂.load program).value.attach (m₁.load program).value.speaker ∧
    (m₁.load program).value.speaker.isOn = false ∧
    (m₂.load program).value.speaker.isOn = false ∧
    ∀ (start : Machine) (es : List Event), start.after es = m₁ →
      Event.lastProgram? es = some program →
        m₁.reset.value = (m₁.load program).value ∧
        ∀ fs, (m₁.reset.value.run fs).reports = ((m₂.load program).value.run fs).reports ∧
          m₁.reset.value.after fs =
            ((m₂.load program).value.after fs).attach (m₁.reset.value.after fs).speaker := by
  have hl := load_congr hd hp hc hn program
  refine ⟨hl, isOn_load .., isOn_load .., ?_⟩
  rintro start es rfl hes
  have hs : (start.after es).memory.staged = some (Rom.ofBytes program) := by
    rw [staged_after, hes]
    rfl
  have hr := reset_value_of_staged hs
  rw [hr, hl]
  refine ⟨rfl, fun fs => ⟨?reports, ?machine⟩⟩
  case reports => rw [run_attach]; rfl
  case machine => rw [after_attach]; rfl

-- The first machine has been left in the middle of a key wait with a key down, the second is new.
theorem load_forgets_wait : ∃ m₁ m₂ : Machine,
    (m₁.keypad.wait = some 5 ∧ m₁.keypad.isDown 3 ∧ m₁.cpu.cycles = 1) ∧
    (m₁.dialect = m₂.dialect ∧ m₁.limiter.paused = m₂.limiter.paused ∧
      m₁.limiter.ceiling = m₂.limiter.ceiling ∧ m₁.noise = m₂.noise) ∧
    m₁.reset.value = (m₁.load #[0xF5, 0x0A]).value ∧
    (m₁.load #[0xF5, 0x0A]).value =
      (m₂.load #[0xF5, 0x0A]).value.attach (m₁.load #[0xF5, 0x0A]).value.speaker := by
  let start := fresh (.tone false) .modern .unlimited ⟨fun _ => 0, 0⟩
  let es : List Event := [.load #[0xF5, 0x0A], .cpuTick, .key 3 true, .timerTick]
  let m₂ := fresh .mute .modern .unlimited (start.after es).noise
  have hd : (start.after es).dialect = .modern := by decide +kernel
  have hp : (start.after es).limiter.paused = false := by decide +kernel
  have hc : (start.after es).limiter.ceiling = Limiter.unlimited.ceiling := by decide +kernel
  have ⟨hl, _, _, hr⟩ := load_forgets_history (start.after es) m₂ hd hp hc rfl #[0xF5, 0x0A]
  exact ⟨start.after es, m₂, by decide +kernel, ⟨hd, hp, hc, rfl⟩, (hr start es rfl rfl).left, hl⟩

end Machine
end Chip8
