import Chip8.Proofs.Indifference
import Chip8.Proofs.Progress

namespace Chip8

namespace Machine

-- The machine in another dialect, and with another program to be begun at a reset.
def refit (m : Machine) (d : Dialect) (staged : Option Rom) : Machine :=
  { m with
    dialect       := d
    memory.staged := staged }

end Machine

def Outcome.refit (o : Outcome) (d : Dialect) (staged : Option Rom) : Outcome :=
  { o with machine := o.machine.refit d staged }

namespace Machine

variable {m : Machine} {i : Instruction} {e : Event} {d : Dialect}

theorem execute_refit (staged : Option Rom)
    (hd : i.isAmbiguous = true → (m.execute i).fault = none → d = m.dialect) :
    (m.refit d staged).execute i = (m.execute i).refit d staged := by
  let change (k : Kept) : Kept := { k with dialect := d, staged := staged }
  cases hu : i.usesKept
  case false => exact execute_mapKept change hu hd
  case true  =>
    cases i
    case ret | call =>
      simp only [execute, refit, origin]
      split <;> rfl
    case skipDown | skipUp => exact Outcome.ext (m.skipIf_mapKept change _) rfl rfl
    case random | readDelay | awaitKey | setDelay | setSound => rfl
    all_goals cases hu

theorem turn_refit (m : Machine) (d : Dialect) (staged : Option Rom) :
    (m.refit d staged).turn = m.turn :=
  rfl

theorem poll_refit (m : Machine) (d : Dialect) (staged : Option Rom) :
    (m.refit d staged).poll = m.poll.map (·.refit d staged) := by
  simp only [poll, checkKey, refit]
  cases m.keypad.resolve? <;> rfl

theorem finish_refit (d : Dialect) (staged : Option Rom) :
    (o : Outcome) → finish (o.refit d staged) = (finish o).map (·.refit d staged)
  | ⟨_, none, _⟩ | ⟨_, some _, _⟩ => rfl

theorem cpuTick_refit (staged : Option Rom)
    (hd : ∀ i, m.Completes i → i.isAmbiguous = true → d = m.dialect) :
    (m.refit d staged).cpuTick = m.cpuTick.map (·.refit d staged) := by
  simp only [cpuTick, turn_refit]
  cases ht : m.turn
  case poll         => exact poll_refit ..
  case rest | stuck => rfl
  case run w i      =>
    have he : ((m.refit d staged).start i).execute i = ((m.start i).execute i).refit d staged :=
      execute_refit (m := m.start i) staged fun ha hf => hd i ⟨w, ht, hf⟩ ha
    simp only [runInstruction, he, finish_refit]
    rfl

end Machine
end Chip8
