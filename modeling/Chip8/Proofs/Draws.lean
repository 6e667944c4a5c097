import Chip8.Proofs.Progress

namespace Chip8

namespace Machine

variable {m m' : Machine} {w : Word}

-- Whether an event runs a random instruction.
def draws (m : Machine) : Event → Bool
  | .cpuTick =>
    match m.turn with
    | .run _ (.random ..) => true
    | _                   => false
  | _        => false

-- How many random instructions a run has in it.
def drawn (m : Machine) (es : List Event) : Nat :=
  m.tally (fun _ => false) draws 0 es

theorem noise_execute_start {i : Instruction} (ht : m.turn = .run w i) :
    ((m.start i).execute i).machine.noise =
      if m.draws .cpuTick then m.noise.next else m.noise := by
  have hn := congrArg Kept.noise <| (m.start i).kept_execute i
  simp only [draws, ht]
  cases i
  all_goals exact hn

theorem Tick.noise (h : Tick m m') :
    m'.noise = if m.draws .cpuTick then m.noise.next else m.noise := by
  cases h
  case wait ht _ | rest ht | stuck ht => simp [draws, ht]
  case resolve hx _                   =>
    have ht : m.turn = .poll := turn_eq_poll_iff.mpr <| Option.isSome_of_eq_some hx
    simp [draws, ht, setReg]
  case complete ht _ | fail ht _      => exact noise_execute_start ht

theorem noise_handle (m : Machine) (e : Event) :
    (m.handle e).value.noise = if m.draws e then m.noise.next else m.noise := by
  cases e
  case cpuTick => exact m.tick.noise
  all_goals rfl

-- How far a run has come in the random bytes is how many random instructions are in it.
theorem noise_after (m : Machine) (es : List Event) :
    (m.after es).noise =
      { m.noise with drawn := m.tally (fun _ => false) draws m.noise.drawn es } := by
  induction es generalizing m
  case nil          => rfl
  case cons e es ih =>
    rw [after_cons, ih, noise_handle, tally]
    cases m.draws e <;> rfl

theorem reg_random {x : Register} {kk : UInt8} (ht : m.turn = .run w (.random x kk)) :
    m.cpuTick.value.reg x = m.noise.current &&& kk := by
  have hc : m.Completes (.random x kk) := ⟨w, ht, rfl⟩
  rw [hc.cpuTick_value]
  exact Registers.get_set_self ..

-- Whatever generator gives the random bytes of a seed, each random instruction in a run, one with
-- an empty mask like any other, takes from them the one whose place is the number of random
-- instructions before it, also across loads and resets. Nothing else uses them up.
theorem random_takes_next_byte (speaker : Speaker) (dialect : Dialect) (limiter : Limiter)
    (generate : UInt64 → Nat → UInt8) (seed : UInt64) (es : List Event) :
    let start := fresh speaker dialect limiter (.seeded generate seed)
    (∀ n w x kk, es[n]? = some .cpuTick → (start.upTo es n).turn = .run w (.random x kk) →
      (start.upTo es (n + 1)).reg x = generate seed (start.drawn (es.take n)) &&& kk) ∧
    (start.after es).noise = ⟨generate seed, start.drawn es⟩ := by
  intro start
  refine ⟨fun n w x kk he ht => ?byte, noise_after start es⟩
  case byte =>
    have hn : (start.upTo es n).noise = ⟨generate seed, start.drawn (es.take n)⟩ :=
      noise_after start _
    rw [upTo_succ he, handle, reg_random ht, hn]
    rfl

-- Two draws, the second with an empty mask, then a reset and a third.
theorem random_takes_next_byte_after_reset : ∃ (seed : UInt64) (es : List Event),
    let start := fresh .mute .modern .unlimited (.ofSeed seed)
    es[5]? = some .cpuTick ∧ (start.upTo es 5).turn = .run 0xC00F (.random 0 0x0F) ∧
    (start.upTo es 6).reg 0 = Noise.byteAt seed 2 &&& 0x0F := by
  let start := fresh .mute .modern .unlimited (.ofSeed 7)
  let es : List Event := [.load #[0xC0, 0x0F, 0xC1, 0x00], .cpuTick, .timerTick, .cpuTick, .reset,
    .cpuTick]
  have ht : (start.upTo es 5).turn = .run 0xC00F (.random 0 0x0F) := by decide +kernel
  have hn : start.drawn (es.take 5) = 2 := by decide +kernel
  have ⟨h, _⟩ := random_takes_next_byte .mute .modern .unlimited Noise.byteAt 7 es
  exact ⟨7, es, rfl, ht, hn ▸ h 5 _ _ _ rfl ht⟩

end Machine
end Chip8
