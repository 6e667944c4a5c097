import Chip8.Proofs.KeyWait
import Chip8.Proofs.Progress

namespace Chip8

namespace Event

-- Whether an event puts the bound of the limiter where it belongs, wherever it has been.
def setsBound : Event → Bool
  | load _ | reset | togglePause => true
  | _                            => false

def isStep : Event → Bool
  | allowStep => true
  | _         => false

-- An event that leaves the limiter as it is.
structure LeavesLimiter (e : Event) : Prop where
  setsBound : e.setsBound = false
  isStep    : e.isStep = false

theorem LeavesLimiter.restarts {e : Event} (h : e.LeavesLimiter) : e.restarts = false := by
  have hs := h.setsBound
  cases e
  case load | reset => cases hs
  all_goals rfl

end Event

namespace Machine

variable {m m' : Machine} {e : Event} {fs : List Event} {cap : UInt64} {done steps : Nat}

-- How many instructions the limiter lets through as it stands.
def left (m : Machine) : Nat :=
  m.limiter.bound.toNat - m.cpu.cycles.toNat

-- Whether an event is a tick that meets neither a wait nor a fault, of a machine that is running.
def unhindered (m : Machine) : Event → Bool
  | .cpuTick => m.keypad.wait.isNone && m.cpuTick.value.cpu.running
  | _        => false

-- No step has moved the bound since it was put where it belongs.
def Unstepped (m : Machine) : Prop :=
  m.limiter.bound = if m.limiter.paused then m.cpu.cycles else m.limiter.ceiling

-- A machine in a pause, after so many instructions and steps. A step is lost where the bound cannot
-- grow any more.
structure Accounts (m : Machine) (done steps : Nat) : Prop where
  within  : m.cpu.cycles ≤ m.limiter.bound
  atMost  : done + m.left ≤ steps
  exactly : m.limiter.bound ≠ 0xFFFFFFFFFFFFFFFF → done + m.left = steps

-- A machine after so many instructions and steps since its bound was put where it belongs.
structure Metered (cap : UInt64) (m : Machine) (done steps : Nat) : Prop where
  ceiling  : m.limiter.ceiling = cap
  unpaused : m.limiter.paused = false → m.limiter.bound = cap
  paused   : m.limiter.paused = true → m.Accounts done steps

-- The processor does nothing with a tick, unless a register waits for a key.
structure Rests (m : Machine) : Prop where
  ready : m.keypad.wait = none → m.cpuTick.value = m
  waits : ∀ x, m.keypad.wait = some x → m.Blocked x

-- A tick of the processor that completes one instruction, or that halts with a fault.
inductive Advance (m m' : Machine) : Prop
  | complete {i} (completes : m.Completes i) (cycles : m'.cpu.cycles = m.cpu.cycles + 1)
  | halt {f} (fault : m'.cpu.fault = some f) (stopped : m'.cpu.running = false)
    (cycles : m'.cpu.cycles = m.cpu.cycles)

theorem handle_leaves_limiter (he : e.LeavesLimiter) :
    (m.handle e).value.limiter = m.limiter := by
  have ⟨hb, hs⟩ := he
  rw [limiter_handle]
  cases e
  case load | reset | togglePause => cases hb
  case allowStep                  => cases hs
  all_goals rfl

-- What the limiter lets through becomes less by the instruction that an event completes.
theorem completing_add_left (he : e.LeavesLimiter) :
    (m.completing e).toNat + (m.handle e).value.left = m.left := by
  rw [left, left, handle_leaves_limiter he, toNat_cycles_handle he.restarts]
  cases h : m.completing e
  case false => simp
  case true  =>
    have hlt := UInt64.lt_iff_toNat_lt.mp <| lt_bound_of_completing h
    simp only [Bool.toNat_true]
    omega

namespace Unstepped

theorem metered (h : m.Unstepped) : m.Metered m.limiter.ceiling 0 0 where
  ceiling     := rfl
  unpaused hp := by simpa [Unstepped, hp] using h
  paused hp   := by
    have hb : m.limiter.bound = m.cpu.cycles := by simpa [Unstepped, hp] using h
    have hl : m.left = 0 := by simp [left, hb]
    exact ⟨hb ▸ UInt64.le_refl _, by simp [hl], by simp [hl]⟩

theorem handle_of_setsBound (m : Machine) (he : e.setsBound = true) :
    (m.handle e).value.Unstepped := by
  cases e
  case load | reset => rfl
  case togglePause  =>
    cases hp : m.limiter.paused <;> simp [Unstepped, handle, togglePause, Limiter.toggle, hp]
  all_goals cases he

theorem ofSettings (s : Settings) (speaker : Speaker) (noise : Noise) :
    (Emulator.ofSettings s speaker noise).machine.Unstepped := by
  rcases s with ⟨_, _, _, _ | _, _⟩ <;> rfl

end Unstepped

namespace Accounts

theorem handle_of_leavesLimiter (he : e.LeavesLimiter) (h : m.Accounts done steps) :
    (m.handle e).value.Accounts (done + (m.completing e).toNat) steps := by
  have hl := completing_add_left (m := m) he
  have hb := handle_leaves_limiter (m := m) he
  refine ⟨?within, ?atMost, fun hn => ?exactly⟩
  case within =>
    have hc := toNat_cycles_handle_le (m := m) he.restarts
    have hw := UInt64.le_iff_toNat_le.mp h.within
    rw [UInt64.le_iff_toNat_le, hb]
    omega
  case atMost =>
    have := h.atMost
    omega
  case exactly =>
    have := h.exactly <| hb ▸ hn
    omega

theorem handle_allowStep (hp : m.limiter.paused = true) (h : m.Accounts done steps) :
    (m.handle .allowStep).value.Accounts done (steps + 1) := by
  have hb := Limiter.toNat_bound_allowStep hp
  have hw := UInt64.le_iff_toNat_le.mp h.within
  have hl : (m.handle .allowStep).value.left =
      m.limiter.allowStep.bound.toNat - m.cpu.cycles.toNat := rfl
  refine ⟨UInt64.le_iff_toNat_le.mpr ?within, ?atMost, fun hn => ?exactly⟩
  case within =>
    have hlt := m.limiter.bound.toNat_lt
    have hle : m.cpu.cycles.toNat ≤ m.limiter.allowStep.bound.toNat := by omega
    exact hle
  case atMost =>
    have := h.atMost
    rw [left] at this
    omega
  case exactly =>
    have hn : m.limiter.allowStep.bound.toNat ≠ 0xFFFFFFFFFFFFFFFF :=
      fun he => hn <| UInt64.toNat_inj.mp he
    have := h.exactly fun he => hn <| by simp [hb, he]
    rw [left] at this
    omega

end Accounts

namespace Metered

theorem renew (he : e.setsBound = true) (h : m.Metered cap done steps) :
    (m.handle e).value.Metered cap 0 0 := by
  have hc : (m.handle e).value.limiter.ceiling = cap := by
    rw [← h.ceiling, limiter_handle]
    cases e
    case load | reset | togglePause => rfl
    all_goals cases he
  exact hc ▸ (Unstepped.handle_of_setsBound m he).metered

theorem step (he : e.setsBound = false) (h : m.Metered cap done steps) :
    (m.handle e).value.Metered cap (done + (m.completing e).toNat) (steps + e.isStep.toNat) := by
  cases hs : e.isStep
  case false =>
    have hl := handle_leaves_limiter (m := m) ⟨he, hs⟩
    refine ⟨hl ▸ h.ceiling, fun hp => ?_, fun hp => ?_⟩
    · rw [hl] at hp ⊢
      exact h.unpaused hp
    · exact (h.paused <| hl ▸ hp).handle_of_leavesLimiter ⟨he, hs⟩
  case true =>
    obtain rfl : e = .allowStep := by
      cases e
      case allowStep => rfl
      all_goals cases hs
    have hl := m.limiter_handle .allowStep
    refine ⟨?_, fun hp => ?_, fun hp => ?_⟩
    · rw [hl, Limiter.ceiling_allowStep, h.ceiling]
    · rw [hl] at hp ⊢
      rw [Limiter.paused_allowStep] at hp
      rw [Limiter.allowStep_of_not_paused hp, h.unpaused hp]
    · rw [hl, Limiter.paused_allowStep] at hp
      exact (h.paused hp).handle_allowStep hp

end Metered

theorem rests (h : m.cpu.cycles = m.limiter.bound) : m.Rests where
  ready hw := by
    have ht : m.turn = .rest := by simp [turn, hw, Limiter.allows, h]
    simp only [cpuTick, ht]
  waits _  := blocked_of_wait

theorem turn_ne_rest (hw : m.keypad.wait = none) (hr : m.cpu.running = true)
    (hc : m.cpu.cycles < m.limiter.bound) : m.turn ≠ .rest := by
  have hl : m.limiter.allows m.cpu.cycles = true := decide_eq_true hc
  rw [turn_of_ready hw hr hl]
  split <;> exact Turn.noConfusion

namespace Tick

theorem advance (hw : m.keypad.wait = none) (hr : m.cpu.running = true)
    (hc : m.cpu.cycles < m.limiter.bound) : Tick m m' → m.Advance m'
  | wait ht _      => by simp [turn_eq_poll_iff, hw] at ht
  | resolve hx _   => nomatch hw.symm.trans hx
  | rest ht        => absurd ht <| turn_ne_rest hw hr hc
  | stuck _        => .halt rfl rfl rfl
  | complete ht hd =>
    .complete ⟨_, ht, hd⟩ <| congrArg (· + 1) <| execute_preserves_cycles ..
  | fail _ _       => .halt rfl rfl <| execute_preserves_cycles ..

-- A tick does not set a machine going again.
theorem running (h : m'.cpu.running = true) : Tick m m' → m.cpu.running = true
  | wait .. | resolve .. | rest _ => h
  | stuck _ | fail ..             => nomatch h
  | complete ht _                 =>
    have ⟨_, hr, _⟩ := turn_eq_run_iff.mp ht
    hr

end Tick

-- A tick without a wait and a fault completes an instruction if there is one left.
theorem completing_of_unhindered (h : m.unhindered e = true) :
    m.left = 0 ∨ m.completing e = true := by
  cases e
  case cpuTick =>
    have ⟨hw, hr⟩ := Bool.and_eq_true_iff.mp h
    by_cases hc : m.cpu.cycles < m.limiter.bound
    case neg =>
      have hle := UInt64.le_iff_toNat_le.mp <| UInt64.not_lt.mp hc
      exact .inl <| Nat.sub_eq_zero_of_le hle
    case pos =>
      have hm := m.tick.running hr
      cases m.tick.advance (Option.isNone_iff_eq_none.mp hw) hm hc
      case complete hi _ => exact .inr <| completes_iff.mpr ⟨_, hi⟩
      case halt _ hs _   => cases hr.symm.trans hs
  all_goals cases h

-- As long as the bound stays where it is, each tick without a wait and a fault spends one of the
-- instructions that are left, until there is none.
theorem left_spent {n d u : Nat} (hf : ∀ e ∈ fs, e.LeavesLimiter)
    (hd : d + m.left = steps) (hu : n + u ≤ d ∨ m.left = 0) :
    let d' := m.tally Event.setsBound completing d fs
    let u' := m.tally Event.setsBound unhindered u fs
    d' + (m.after fs).left = steps ∧ (n + u' ≤ d' ∨ (m.after fs).left = 0) := by
  induction fs generalizing m d u
  case nil          => exact ⟨hd, hu⟩
  case cons e fs ih =>
    have ⟨he, hf⟩ := List.forall_mem_cons.mp hf
    have hl := completing_add_left (m := m) he
    simp only [tally, he.setsBound, Bool.false_eq_true, if_false, after_cons]
    refine ih hf (by omega) ?_
    cases hc : m.unhindered e
    case false =>
      simp only [Bool.toNat_false]
      omega
    case true  =>
      rcases completing_of_unhindered hc with h | h
      · omega
      · simp only [h, Bool.toNat_true] at hl ⊢
        omega

theorem tally_completing_eq (hf : ∀ e ∈ fs, e.LeavesLimiter)
    (hd : done + m.left = steps) (hl : m.left ≤ m.tally Event.setsBound unhindered 0 fs) :
    m.tally Event.setsBound completing done fs = steps := by
  have ⟨hd', hu⟩ := left_spent (n := done) (u := 0) hf hd (.inl <| Nat.le_refl _)
  omega

-- Without a pause the bound of the limiter is its ceiling. In a pause the instructions completed
-- since it began, or since a program began in it, and those still left make up the steps allowed
-- since then: there are never more instructions than steps, and with enough ticks there are as
-- many. A tick that finds no step left changes nothing but, at most, a wait; a tick that finds one
-- completes an instruction or halts with a fault.
theorem steps_account_for_instructions {em : Emulator} (h : em.machine.Unstepped)
    (es : List Event) :
    let m     := (em.after es).machine
    let done  := em.machine.tally Event.setsBound completing 0
    let steps := em.machine.tally Event.setsBound (fun _ => Event.isStep) 0 es
    (m.limiter.paused = false → m.limiter.bound = em.machine.limiter.ceiling) ∧
    (m.limiter.paused = true →
      m.Accounts (done es) steps ∧
      (m.limiter.bound ≠ 0xFFFFFFFFFFFFFFFF → ∀ fs, (∀ e ∈ fs, e.LeavesLimiter) →
        m.left ≤ m.tally Event.setsBound unhindered 0 fs → done (es ++ fs) = steps) ∧
      (m.cpu.cycles = m.limiter.bound → m.Rests) ∧
      (m.cpu.cycles < m.limiter.bound → m.keypad.wait = none → m.cpu.running = true →
        m.Advance m.cpuTick.value)) := by
  intro m done steps
  have hm : m.Metered em.machine.limiter.ceiling (done es) steps := by
    have h := tally_preserves Metered.renew Metered.step es h.metered
    rwa [← em.machine_after] at h
  refine ⟨hm.unpaused, fun hp => ⟨hm.paused hp, fun hn fs hf hl => ?_, rests,
    fun hc hw hr => m.tick.advance hw hr hc⟩⟩
  have hd := tally_completing_eq hf ((hm.paused hp).exactly hn) hl
  simp only [m, em.machine_after] at hd
  rwa [← tally_append] at hd

-- A reset in a pause: the step before it is forgotten, and of the two after it one is left, until
-- the program goes on.
theorem steps_account_for_instructions_across_reset : ∃ em : Emulator, ∃ es fs : List Event,
    em.machine.Unstepped ∧
    let m    := (em.after es).machine
    let done := em.machine.tally Event.setsBound completing 0
    m.limiter.paused = true ∧ m.left = 1 ∧ m.Accounts 1 2 ∧ done es = 1 ∧ done (es ++ fs) = 2 := by
  let em := Emulator.ofSettings {} .mute ⟨fun _ => 0, 0⟩
  let es : List Event := [.load #[0x12, 0x00], .cpuTick, .togglePause, .allowStep, .reset,
    .allowStep, .cpuTick, .cpuTick, .allowStep]
  let fs : List Event := [.key 3 true, .cpuTick, .timerTick, .cpuTick]
  have hu : em.machine.Unstepped := .ofSettings ..
  have hp : (em.after es).machine.limiter.paused = true := by decide +kernel
  have hl : (em.after es).machine.left = 1 := by decide +kernel
  have hd : em.machine.tally Event.setsBound completing 0 es = 1 := by decide +kernel
  have hs : em.machine.tally Event.setsBound (fun _ => Event.isStep) 0 es = 2 := by decide +kernel
  have ⟨ha, hf, _⟩ := (steps_account_for_instructions hu es).right hp
  rw [hd, hs] at ha
  have hb : ∀ e ∈ fs, e.setsBound = false ∧ e.isStep = false := by decide
  have hf := hf (by decide +kernel) fs (fun e he => ⟨(hb e he).left, (hb e he).right⟩)
    (by decide +kernel)
  exact ⟨em, es, fs, hu, hp, hl, ha, hd, hf.trans hs⟩

end Machine
end Chip8
