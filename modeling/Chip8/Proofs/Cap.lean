import Chip8.Proofs.Progress

namespace Chip8

namespace Limiter

variable {l : Limiter}

-- A limiter with a cap, after so many steps beyond the cap.
structure Capped (cap : UInt64) (l : Limiter) (beyond : Nat) : Prop where
  ceiling  : l.ceiling = cap
  unpaused : l.paused = false → l.bound = cap
  bound    : l.bound.toNat ≤ cap.toNat + beyond

namespace Capped

variable {cap : UInt64} {beyond : Nat}

theorem capped (cap : UInt64) : (capped cap).Capped cap 0 where
  ceiling    := rfl
  unpaused _ := rfl
  bound      := Nat.le_refl _

theorem restart (h : l.Capped cap beyond) : l.restart.Capped cap 0 where
  ceiling     := h.ceiling
  unpaused hp := by
    have hp : l.paused = false := hp
    simp [Limiter.restart, hp, h.ceiling]
  bound       := by cases hp : l.paused <;> simp [Limiter.restart, hp, h.ceiling]

theorem toggle (h : l.Capped cap beyond) {cycles : UInt64}
    (hc : cycles.toNat ≤ cap.toNat + beyond) : (l.toggle cycles).Capped cap beyond where
  ceiling     := h.ceiling
  unpaused hp := by
    have hp : l.paused = true := by simpa [Limiter.toggle] using hp
    simp [Limiter.toggle, hp, h.ceiling]
  bound       := by
    cases hp : l.paused <;> simp [Limiter.toggle, hp, h.ceiling]
    exact hc

theorem allowStep (h : l.Capped cap beyond) :
    l.allowStep.Capped cap (beyond + (l.paused && decide (cap ≤ l.bound)).toNat) := by
  cases hp : l.paused
  case false => simpa [allowStep_of_not_paused hp] using h
  case true  =>
    refine ⟨l.ceiling_allowStep.trans h.ceiling, fun hn => ?_, ?bound⟩
    · rw [paused_allowStep, hp] at hn
      cases hn
    case bound =>
      have hb := h.bound
      rw [toNat_bound_allowStep hp]
      by_cases hc : cap ≤ l.bound
      case pos => simp [hc]; omega
      case neg =>
        have hlt := UInt64.lt_iff_toNat_lt.mp <| UInt64.not_le.mp hc
        simp [hc]
        omega

end Capped
end Limiter

namespace Machine

variable {m : Machine} {e : Event} {cap : UInt64} {done beyond : Nat}

-- Whether an event is a step that moves the bound from the cap, or from beyond it, one further.
def stepsBeyond (cap : UInt64) (m : Machine) : Event → Bool
  | .allowStep => m.limiter.paused && decide (cap ≤ m.limiter.bound)
  | _          => false

-- A machine with a cap, after so many instructions and so many steps beyond the cap since its
-- program began.
structure Capped (cap : UInt64) (m : Machine) (done beyond : Nat) : Prop where
  limiter : m.limiter.Capped cap beyond
  cycles  : m.cpu.cycles.toNat ≤ cap.toNat + beyond
  done    : m.cpu.cycles.toNat = done

namespace Capped

theorem renew (he : e.restarts = true) (h : m.Capped cap done beyond) :
    (m.handle e).value.Capped cap 0 0 := by
  have hc := cycles_handle_of_restarts (m := m) he
  refine ⟨?limiter, by simp [hc], by simp [hc]⟩
  case limiter =>
    rw [limiter_handle]
    cases e
    case load | reset => exact h.limiter.restart
    all_goals cases he

theorem step (he : e.restarts = false) (h : m.Capped cap done beyond) :
    (m.handle e).value.Capped cap (done + (m.completing e).toNat)
      (beyond + (stepsBeyond cap m e).toNat) where
  limiter := by
    rw [limiter_handle]
    cases e
    case load | reset => cases he
    case togglePause  => exact h.limiter.toggle h.cycles
    case allowStep    => exact h.limiter.allowStep
    all_goals exact h.limiter
  cycles  := by
    have hle := toNat_cycles_handle_le (m := m) he
    have hc  := h.cycles
    have hb  := h.limiter.bound
    omega
  done    := by rw [toNat_cycles_handle he, h.done]

end Capped

-- An emulator with a cap has completed no more instructions since its program began than the cap
-- says, and one more for each step that was allowed, in a pause, at the cap or beyond it. Without a
-- pause no instruction goes beyond the cap.
theorem cycles_le_cap_add_stepsBeyond (s : Settings) (speaker : Speaker) (noise : Noise)
    (h : s.cycleCap = some cap) (es : List Event) :
    let start  := Emulator.ofSettings s speaker noise
    let m      := (start.after es).machine
    let done   := start.machine.tally Event.restarts completing 0 es
    let beyond := start.machine.tally Event.restarts (stepsBeyond cap) 0 es
    m.cpu.cycles.toNat = done ∧ done ≤ cap.toNat + beyond ∧
    (m.limiter.paused = false → m.completes = true → m.cpu.cycles < cap) := by
  intro start m done beyond
  have hl : start.machine.limiter = .capped cap := by
    simp [start, Emulator.ofSettings, Emulator.ofMachine, fresh, Settings.limiter, h]
  have hs : start.machine.Capped cap 0 0 := ⟨hl ▸ .capped cap, Nat.zero_le _, rfl⟩
  have hm : m.Capped cap done beyond := by
    have h := tally_preserves Capped.renew Capped.step es hs
    rwa [← start.machine_after] at h
  refine ⟨hm.done, hm.done ▸ hm.cycles, fun hp hc => ?_⟩
  rw [← hm.limiter.unpaused hp]
  exact lt_bound_of_completes hc

-- The cap is one instruction, and two are completed: the second by a step in a pause.
theorem cycles_le_cap_add_stepsBeyond_of_step :
    ∃ s : Settings, ∃ es : List Event, s.cycleCap = some 1 ∧
      let start := Emulator.ofSettings s .mute ⟨fun _ => 0, 0⟩
      (start.after es).machine.cpu.cycles = 2 ∧
      start.machine.tally Event.restarts completing 0 es ≤
        1 + start.machine.tally Event.restarts (stepsBeyond 1) 0 es := by
  let s : Settings := { cycleCap := some 1 }
  let es : List Event := [.load #[0x12, 0x00], .cpuTick, .togglePause, .allowStep, .cpuTick]
  have h := cycles_le_cap_add_stepsBeyond s .mute ⟨fun _ => 0, 0⟩ rfl es
  exact ⟨s, es, rfl, by decide +kernel, h.right.left⟩

-- So a cap of its own does not hold: a step in a pause goes beyond it.
theorem cycles_exceed_cap_by_step :
    ¬∀ (s : Settings) (speaker : Speaker) (noise : Noise) (cap : UInt64),
      s.cycleCap = some cap → ∀ es : List Event,
        ((Emulator.ofSettings s speaker noise).after es).machine.cpu.cycles ≤ cap := by
  intro h
  have hle := h { cycleCap := some 1 } .mute ⟨fun _ => 0, 0⟩ 1 rfl
    [.load #[0x12, 0x00], .cpuTick, .togglePause, .allowStep, .cpuTick]
  revert hle
  decide +kernel

end Machine
end Chip8
