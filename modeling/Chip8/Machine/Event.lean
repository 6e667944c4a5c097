import Chip8.Machine.Tick

namespace Chip8

inductive Event
  | load (program : Array UInt8)
  | reset
  | cpuTick
  | timerTick
  | key (k : Key) (down : Bool)
  | togglePause
  -- One more cycle while paused.
  | allowStep
  | setDialect (d : Dialect)
  | takeFrame
  -- The host is done with the speaker.
  | release
  deriving DecidableEq

namespace Machine

def handle (m : Machine) : Event → Reported Machine
  | .load program => m.load program
  | .reset => m.reset
  | .cpuTick => m.cpuTick
  | .timerTick => m.timerTick
  | .key k down => ⟨{ m with keypad := m.keypad.move k down }, []⟩
  | .togglePause => ⟨m.togglePause, []⟩
  | .allowStep => ⟨{ m with limiter := m.limiter.allowStep }, []⟩
  | .setDialect d => ⟨{ m with dialect := d }, []⟩
  | .takeFrame => ⟨m.frameTaken, []⟩
  | .release => m.tell .release

-- All events in turn.
def run (m : Machine) : List Event → Reported Machine
  | [] => ⟨m, []⟩
  | e :: es => (m.handle e).andThen (·.run es)

def after (m : Machine) (es : List Event) : Machine :=
  (m.run es).value

theorem after_nil (m : Machine) : m.after [] = m :=
  rfl

theorem after_cons (m : Machine) (e : Event) (es : List Event) :
    m.after (e :: es) = (m.handle e).value.after es :=
  rfl

theorem after_append (m : Machine) (es fs : List Event) :
    m.after (es ++ fs) = (m.after es).after fs := by
  induction es generalizing m with
  | nil => rfl
  | cons e es ih => exact ih _

end Machine
end Chip8
