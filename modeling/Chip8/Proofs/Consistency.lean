import Chip8.Proofs.KeyWait
import Chip8.Proofs.Record
import Chip8.Proofs.Restart

namespace Chip8.Machine

variable {m m' : Machine} {e : Event} {es : List Event} {x : Register}

-- A machine is running exactly if it has a program that no fault has stopped.
def RunsUnlessFaulted (m : Machine) : Prop :=
  m.cpu.running = true ↔ m.memory.staged.isSome = true ∧ m.cpu.fault = none

-- A register waits only while the machine is running, and only for the instruction fetched last.
def WaitsForLast (m : Machine) : Prop :=
  ∀ x, m.keypad.wait = some x → m.cpu.running = true ∧ m.cpu.last = some (.awaitKey x)

structure Consistent (m : Machine) : Prop where
  runs  : m.RunsUnlessFaulted
  waits : m.WaitsForLast

theorem Tick.runsUnlessFaulted (h : m.RunsUnlessFaulted) : Tick m m' → m'.RunsUnlessFaulted
  | wait .. | resolve .. | rest _ => h
  | stuck _ | fail ..             => by simp [RunsUnlessFaulted, halt, Cpu.halt]
  | @complete _ _ i _ _           => by
    have hr := (m.start i).execute_preserves_running i
    have hs := (m.start i).execute_preserves_staged i
    have hf := (m.start i).execute_preserves_fault i
    simp only [RunsUnlessFaulted, Machine.complete, hr, hs, hf]
    exact h

-- If a register waits after a tick, then either it has been waiting and nothing has happened, or
-- the tick has run the instruction that makes it wait.
theorem cpuTick_waits (h : m.cpuTick.value.keypad.wait = some x) :
    (m.keypad.wait = some x ∧ m.Unreleased ∧ m.cpuTick.value = m) ∨
    ∃ w, m.turn = .run w (.awaitKey x) := by
  by_cases hx : m.keypad.wait = some x
  case neg => exact .inr <| m.tick.begins_wait hx h
  case pos =>
    have hb := blocked_of_wait hx
    by_cases hu : m.Unreleased
    case pos => exact .inl ⟨hx, hu, hb.unreleased hu⟩
    case neg =>
      have ⟨_, _, hg⟩ := hb.released hu
      rw [hg.eq] at h
      cases h

theorem WaitsForLast.cpuTick (h : m.WaitsForLast) : m.cpuTick.value.WaitsForLast := by
  intro x hx
  rcases cpuTick_waits hx with ⟨hw, _, hm⟩ | ⟨w, ht⟩
  · rw [hm]
    exact h x hw
  · have ⟨_, hr, _⟩ := turn_eq_run_iff.mp ht
    rw [cpuTick_awaitKey ht]
    exact ⟨hr, rfl⟩

namespace Consistent

-- A machine that has nothing behind it yet is running exactly if it has a program.
theorem of_beginning (hr : m.cpu.running = m.memory.staged.isSome) (hf : m.cpu.fault = none)
    (hw : m.keypad.wait = none) : m.Consistent where
  runs  := by rw [RunsUnlessFaulted, hr, and_iff_left hf]
  waits := by
    intro x hx
    rw [hw] at hx
    cases hx

theorem of_isNew (h : m.IsNew) : m.Consistent := by
  rw [IsNew] at h
  rw [h]
  exact of_beginning rfl rfl rfl

theorem of_restarts (m : Machine) (he : e.restarts = true) :
    (m.handle e).value.Consistent := by
  cases e
  case load  => exact of_beginning (by rw [staged_handle]; rfl) rfl rfl
  case reset => exact of_beginning (by rw [staged_handle]; rfl) rfl rfl
  all_goals cases he

theorem handle (h : m.Consistent) (e : Event) : (m.handle e).value.Consistent := by
  cases e
  case load | reset => exact of_restarts m rfl
  case cpuTick      => exact ⟨m.tick.runsUnlessFaulted h.runs, h.waits.cpuTick⟩
  all_goals exact ⟨h.runs, h.waits⟩

theorem after (h : m.Consistent) (es : List Event) : (m.after es).Consistent := by
  induction es generalizing m
  case nil          => exact h
  case cons e es ih => exact ih <| h.handle e

theorem fault_eq_none (h : m.Consistent) (hw : m.keypad.wait = some x) : m.cpu.fault = none :=
  (h.runs.mp (h.waits x hw).left).right

end Consistent

theorem isSome_staged_after (hm : m.IsNew) (es : List Event) :
    (m.after es).memory.staged.isSome = true ↔ ∃ program, .load program ∈ es := by
  have hs : m.memory.staged = none := congrArg (·.memory.staged) hm
  rw [staged_after, hs, Option.or_none, Option.isSome_map, Event.isSome_lastProgram?_iff]

theorem not_waitReplaced_mem_entries (m : Machine) (e : Event) :
    .waitReplaced ∉ (m.handle e).entries := by
  rw [entries_handle]
  split
  case h_1 => split <;> simp
  case h_2 =>
    rw [entries_cpuTick]
    split
    case h_1 => cases m.checkKey.1 <;> simp
    all_goals simp
  all_goals simp

-- Whatever happens to a new machine, it is running exactly if it has been given a program, be it an
-- empty one, and no fault is on record. While a register waits the machine is running, the
-- instruction fetched last is the one that awaits a key for this very register, and a tick does
-- nothing but look for that key; so no instruction ever finds a register waiting that it would have
-- to give up.
theorem running_iff_loaded_without_fault {start : Machine} (hs : start.IsNew) (es : List Event) :
    let m := start.after es
    (m.cpu.running = true ↔ (∃ program, .load program ∈ es) ∧ m.cpu.fault = none) ∧
    (∀ x, m.keypad.wait = some x → m.cpu.running = true ∧ m.cpu.fault = none ∧
      m.cpu.last = some (.awaitKey x) ∧ m.Blocked x ∧ m.RunsNothing) ∧
    .waitReplaced ∉ (start.run es).entries := by
  intro m
  have hm : m.Consistent := (Consistent.of_isNew hs).after es
  refine ⟨?running, fun x hx => ?waits, fun h => ?replaced⟩
  case running =>
    rw [← isSome_staged_after hs]
    exact hm.runs
  case waits =>
    have ⟨hr, hl⟩ := hm.waits x hx
    exact ⟨hr, hm.fault_eq_none hx, hl, blocked_of_wait hx, runsNothing_of_wait hx⟩
  case replaced =>
    have ⟨_, _, _, hl⟩ := exists_of_mem_entries_run h
    exact not_waitReplaced_mem_entries _ _ hl

-- A register waits, is given a key, and the return that follows finds no call.
theorem running_until_fault : ∃ start : Machine, ∃ es fs : List Event, start.IsNew ∧
    (let m := start.after es
     m.keypad.wait = some 5 ∧ m.cpu.running = true ∧ m.cpu.last = some (.awaitKey 5) ∧
      m.Blocked 5) ∧
    (let m := start.after (es ++ fs)
     m.cpu.fault = some (.stackUnderflow 0x202) ∧ ¬m.cpu.running = true ∧
      .waitReplaced ∉ (start.run (es ++ fs)).entries) := by
  let start := fresh .mute .modern .unlimited ⟨fun _ => 0, 0⟩
  let es : List Event := [.load #[0xF5, 0x0A, 0x00, 0xEE], .cpuTick, .key 3 true, .timerTick]
  let fs : List Event := [.key 3 false, .cpuTick, .cpuTick, .togglePause]
  have hs : start.IsNew := rfl
  have hw : (start.after es).keypad.wait = some 5 := by decide +kernel
  have hf : (start.after (es ++ fs)).cpu.fault = some (.stackUnderflow 0x202) := by
    decide +kernel
  have ⟨_, hx, _⟩ := running_iff_loaded_without_fault hs es
  have ⟨hr, _, hl, hb, _⟩ := hx 5 hw
  have ⟨hi, _, hn⟩ := running_iff_loaded_without_fault hs (es ++ fs)
  refine ⟨start, es, fs, hs, ⟨hw, hr, hl, hb⟩, hf, fun h => ?_, hn⟩
  have ⟨_, h⟩ := hi.mp h
  cases hf.symm.trans h

end Chip8.Machine
