import Chip8.Proofs.Speaker
import Chip8.Proofs.Tick

namespace Chip8.Machine

variable {m : Machine} {e : Event} {es : List Event} {l : Log.Entry}

theorem mem_entries_run_cons :
    l ∈ (m.run (e :: es)).entries ↔
      l ∈ (m.handle e).entries ∨ l ∈ ((m.handle e).value.run es).entries := by
  rw [run, Reported.entries_andThen, List.mem_append]

-- What a run puts on record comes from one of its events.
theorem exists_of_mem_entries_run {m : Machine} {es : List Event} (h : l ∈ (m.run es).entries) :
    ∃ n e, es[n]? = some e ∧ l ∈ ((m.upTo es n).handle e).entries := by
  induction es generalizing m
  case nil          => cases h
  case cons e es ih =>
    rcases mem_entries_run_cons.mp h with h | h
    · exact ⟨0, e, rfl, h⟩
    · have ⟨n, e', he, hl⟩ := ih h
      exact ⟨n + 1, e', he, hl⟩

theorem entries_poll (m : Machine) :
    m.poll.entries = [m.checkKey.1.elim .waiting .waitResolved] := by
  unfold poll
  split <;> simp [*] <;> rfl

theorem entries_finish (m : Machine) (i : Instruction) :
    (finish (m.execute i)).entries =
      ((m.execute i).fault.map (.halted m.cpu.cycles)).toList := by
  unfold finish
  split
  case h_1 h => rw [h]; rfl
  case h_2 h =>
    rw [h, ← m.execute_preserves_cycles i]
    rfl

-- No register waits yet, so none is given up.
theorem entries_execute (h : m.keypad.wait = none) (i : Instruction) :
    (m.execute i).reports.filterMap Report.entry? = [] := by
  rw [reports_execute]
  cases i
  case awaitKey x => simp [awaitKey, h]
  all_goals rfl

-- A tick that runs an instruction puts it on record, and the fault that cuts it short.
theorem entries_cpuTick (m : Machine) :
    m.cpuTick.entries = match m.turn with
      | .poll    => [m.checkKey.1.elim .waiting .waitResolved]
      | .rest    => []
      | .stuck f => [.halted m.cpu.cycles f]
      | .run w i =>
        .fetched w i :: (((m.start i).execute i).fault.map (.halted m.cpu.cycles)).toList := by
  unfold cpuTick
  cases h : m.turn
  case poll         => exact m.entries_poll
  case rest | stuck => rfl
  case run w i      =>
    have ⟨hw, _⟩ := turn_eq_run_iff.mp h
    have hx := entries_execute (m := m.start i) hw i
    have hf := (m.start i).entries_finish i
    simp only [runInstruction, Reported.entries, List.filterMap_cons, Report.entry?,
      List.filterMap_append, hx]
    exact congrArg _ hf

theorem entries_handle (m : Machine) (e : Event) :
    (m.handle e).entries = match e with
      | .load program => if Rom.capacity < program.size then [.programCut program.size] else []
      | .cpuTick      => m.cpuTick.entries
      | .timerTick    =>
        [.countedDown m.cpu.countDown.delay.count m.cpu.countDown.sound.count]
      | _             => [] := by
  cases e
  case load program =>
    simp only [handle, load, cutReports, Reported.entries_andThen]
    split <;> rfl
  all_goals rfl

end Chip8.Machine
