import Chip8.Proofs.Run
import Chip8.Proofs.Surroundings

namespace Chip8

-- The machine with another speaker in place of its own.
def Machine.attach (m : Machine) (s : Speaker) : Machine :=
  { m with speaker := s }

def Outcome.attach (o : Outcome) (s : Speaker) : Outcome :=
  { o with machine := o.machine.attach s }

-- The other speaker takes the calls of the step.
def Reported.attach (r : Reported Machine) (s : Speaker) : Reported Machine :=
  { r with value := r.value.attach <| r.calls.foldl .receive s }

namespace Machine

variable (m : Machine) (s : Speaker)

-- Another speaker is a change of surroundings.
theorem execute_attach_of_surround {i : Instruction} (hs : i.senses = false)
    (hc : i.setsCountdown = false) : (m.attach s).execute i = (m.execute i).attach s :=
  calc (m.attach s).execute i
    _ = (m.execute i).surround { m.surroundings with speaker := s } :=
      m.execute_surround { m.surroundings with speaker := s } hs hc
    _ = (m.execute i).surround { (m.execute i).machine.surroundings with speaker := s } := by
      rw [m.execute_preserves_surroundings hs hc]
    _ = (m.execute i).attach s := rfl

theorem execute_attach (i : Instruction) : (m.attach s).execute i = (m.execute i).attach s := by
  cases i
  case skipDown | skipUp =>
    exact Outcome.ext (m.skipIf_mapKept ({ · with speaker := s }) _) rfl rfl
  case readDelay | awaitKey | setDelay | setSound => rfl
  all_goals exact m.execute_attach_of_surround s rfl rfl

theorem reports_execute (i : Instruction) :
    (m.execute i).reports = match i with
      | .awaitKey x => (m.awaitKey x).reports
      | _ => [] := by
  cases i
  case ret | call | draw | storeDecimal | store | load =>
    simp only [execute, draw, storeBytes, loadRegisters]
    split <;> rfl
  all_goals rfl

theorem calls_poll : m.poll.calls = [] := by
  unfold poll
  split <;> rfl

theorem calls_finish (o : Outcome) : (finish o).calls = [] := by
  unfold finish
  split <;> rfl

theorem calls_runInstruction (w : Word) (i : Instruction) : (m.runInstruction w i).calls = [] := by
  have he : ((m.start i).execute i).reports.filterMap Report.call? = [] := by
    rw [reports_execute]
    split
    · unfold awaitKey
      split <;> rfl
    · rfl
  change (((m.start i).execute i).reports ++ _).filterMap Report.call? = []
  rw [List.filterMap_append, he]
  exact calls_finish _

-- The processor works in silence.
theorem calls_cpuTick : m.cpuTick.calls = [] := by
  unfold cpuTick
  split
  case h_1       => exact calls_poll m
  case h_2 | h_3 => rfl
  case h_4       => exact calls_runInstruction ..

theorem poll_attach : (m.attach s).poll = m.poll.attach s := by
  simp only [poll, checkKey, attach]
  cases m.keypad.resolve? <;> rfl

theorem finish_attach : (o : Outcome) → finish (o.attach s) = (finish o).attach s
  | ⟨_, none, _⟩ | ⟨_, some _, _⟩ => rfl

theorem runInstruction_attach (w : Word) (i : Instruction) :
    (m.attach s).runInstruction w i = (m.runInstruction w i).attach s := by
  have h : ((m.attach s).start i).execute i = ((m.start i).execute i).attach s :=
    (m.start i).execute_attach s i
  simp only [Reported.attach, calls_runInstruction, List.foldl_nil]
  simp only [runInstruction, h, finish_attach, Reported.attach, calls_finish, List.foldl_nil]
  rfl

theorem cpuTick_attach : (m.attach s).cpuTick = m.cpuTick.attach s := by
  have ht : (m.attach s).turn = m.turn := rfl
  simp only [cpuTick, ht]
  cases m.turn
  case poll         => exact poll_attach m s
  case rest | stuck => rfl
  case run          => exact runInstruction_attach ..

theorem load_attach (program : Array UInt8) :
    (m.attach s).load program = (m.load program).attach s := by
  have h : (m.load program).calls = [.stop] := by
    unfold load cutReports
    split <;> rfl
  simp only [Reported.attach, h]
  rfl

theorem handle_attach (e : Event) : (m.attach s).handle e = (m.handle e).attach s := by
  cases e
  case load    => exact load_attach ..
  case cpuTick => exact cpuTick_attach m s
  all_goals rfl

theorem run_attach (es : List Event) : (m.attach s).run es = (m.run es).attach s := by
  induction es generalizing m s
  case nil => rfl
  case cons e es ih =>
    simp only [run, Reported.andThen, handle_attach, Reported.attach, ih, Reported.calls,
               List.filterMap_append, List.foldl_append]

theorem after_attach (es : List Event) :
    (m.attach s).after es = (m.after es).attach ((m.run es).calls.foldl .receive s) :=
  congrArg Reported.value <| run_attach m s es

end Machine
end Chip8
