import Chip8.Proofs.Consistency
import Chip8.Proofs.Surroundings

namespace Chip8

-- What there is around a program.
inductive Part
  -- The countdowns, and the speaker that they switch.
  | clocks
  | speaker
  | keys
  | limiter
  | dialect
  -- The mark that the screen may have changed.
  | mark
  deriving DecidableEq

-- The part that an event is about, unless it is about the program itself.
def Event.part? : Event → Option Part
  | load _ | reset | cpuTick => none
  | timerTick                => some .clocks
  | release                  => some .speaker
  | key ..                   => some .keys
  | togglePause | allowStep  => some .limiter
  | setDialect _             => some .dialect
  | takeFrame                => some .mark

namespace Machine

variable {m m' m₁ m₂ m₃ : Machine} {e : Event} {es : List Event} {f : Fault} {n : Nat}

-- The first machine with a part of the second.
def withPart (m m' : Machine) : Option Part → Machine
  | none          => m
  | some .clocks  => { m with
    cpu.delay := m'.cpu.delay
    cpu.sound := m'.cpu.sound
    speaker   := m'.speaker }
  | some .speaker => { m with speaker := m'.speaker }
  | some .keys    => { m with
    keypad.down     := m'.keypad.down
    keypad.previous := m'.keypad.previous }
  | some .limiter => { m with limiter := m'.limiter }
  | some .dialect => { m with dialect := m'.dialect }
  | some .mark    => { m with screen.changed := m'.screen.changed }

-- The same machine, up to what there is around the program.
def SameProgram (m m' : Machine) : Prop :=
  m' = { m.surround m'.surroundings with
    limiter        := m'.limiter
    dialect        := m'.dialect
    screen.changed := m'.screen.changed }

namespace SameProgram

theorem of_withPart {part? : Option Part} (h : m' = m.withPart m' part?) : m.SameProgram m' := by
  rw [h]
  cases part?
  case none   => rfl
  case some p => cases p <;> rfl

theorem trans (h₁ : SameProgram m₁ m₂) (h₂ : SameProgram m₂ m₃) : SameProgram m₁ m₃ := by
  rw [SameProgram] at h₁ h₂ ⊢
  rw [h₁] at h₂
  exact h₂

end SameProgram

-- A fault has stopped the machine, and no register waits.
structure StoppedBy (f : Fault) (m : Machine) : Prop where
  running : m.cpu.running = false
  fault   : m.cpu.fault = some f
  wait    : m.keypad.wait = none

-- A machine that has a fault on record has been stopped by it: a wait would still be running.
theorem Consistent.stoppedBy (h : m.Consistent) (hf : m.cpu.fault = some f) : m.StoppedBy f where
  running := by
    rw [← Bool.not_eq_true]
    exact fun hr => nomatch hf.symm.trans (h.runs.mp hr).right
  fault   := hf
  wait    := by
    rw [Option.eq_none_iff_forall_ne_some]
    exact fun x hx => nomatch hf.symm.trans <| h.fault_eq_none hx

namespace StoppedBy

theorem cpuTick (h : m.StoppedBy f) : m.cpuTick = ⟨m, []⟩ := by
  have ht : m.turn = .rest := by simp [turn, h.wait, h.running]
  simp only [Machine.cpuTick, ht]

theorem handle_eq_withPart (h : m.StoppedBy f) (he : e.restarts = false) :
    (m.handle e).value = m.withPart (m.handle e).value e.part? := by
  cases e
  case load | reset => cases he
  case cpuTick      => exact congrArg Reported.value h.cpuTick
  all_goals rfl

theorem of_sameProgram (h : m.StoppedBy f) (hs : m.SameProgram m') : m'.StoppedBy f := by
  rw [hs]
  exact ⟨h.running, h.fault, h.wait⟩

theorem sameProgram_after (h : m.StoppedBy f) (he : ∀ e ∈ es, e.restarts = false) :
    m.SameProgram (m.after es) := by
  induction es generalizing m
  case nil          => rfl
  case cons e es ih =>
    have ⟨he, hes⟩ := List.forall_mem_cons.mp he
    have hs := SameProgram.of_withPart <| h.handle_eq_withPart he
    exact hs.trans <| ih (h.of_sameProgram hs) hes

theorem upTo (h : m.StoppedBy f) (he : ∀ e ∈ es, e.restarts = false) (n : Nat) :
    (m.upTo es n).StoppedBy f :=
  h.of_sameProgram <| h.sameProgram_after fun e hn => he e <| List.mem_of_mem_take hn

-- All that a machine at a standstill puts on record is how the countdowns go on.
theorem entries_handle (h : m.StoppedBy f) (he : e.restarts = false) {l : Log.Entry}
    (hl : l ∈ (m.handle e).entries) : ∃ delay sound, l = .countedDown delay sound := by
  rw [Machine.entries_handle] at hl
  cases e
  case load      => cases he
  case cpuTick   => simp [h.cpuTick, Reported.entries] at hl
  case timerTick => exact ⟨_, _, List.mem_singleton.mp hl⟩
  all_goals cases hl

end StoppedBy

-- Once a fault is on record, whatever happens until a program begins anew, the machine stays
-- stopped by this very fault and its program stays as it was, waiting for no key. What is left to
-- move is what there is around the program, and each of its parts by its own events alone. No fault
-- is put on record again.
theorem fault_freezes_program {start : Machine} (hs : start.IsNew) {history : List Event}
    (hf : (start.after history).cpu.fault = some f) (he : ∀ e ∈ es, e.restarts = false) :
    let m := start.after history
    m.SameProgram (m.after es) ∧ (m.after es).StoppedBy f ∧
    (∀ n e, es[n]? = some e →
      m.upTo es (n + 1) = (m.upTo es n).withPart (m.upTo es (n + 1)) e.part?) ∧
    ∀ cycles g, .halted cycles g ∉ (m.run es).entries := by
  intro m
  have hm : m.StoppedBy f := ((Consistent.of_isNew hs).after history).stoppedBy hf
  have hp := hm.sameProgram_after he
  have stays {n : Nat} {e : Event} (hn : es[n]? = some e) : e.restarts = false :=
    he e <| List.mem_of_getElem? hn
  refine ⟨hp, hm.of_sameProgram hp, fun n e hn => ?parts, fun cycles g hl => ?record⟩
  case parts  => exact upTo_succ hn ▸ (hm.upTo he n).handle_eq_withPart (stays hn)
  case record =>
    have ⟨n, e, hn, hl⟩ := exists_of_mem_entries_run hl
    have ⟨_, _, hl⟩ := (hm.upTo he n).entries_handle (stays hn) hl
    cases hl

-- A return without a call, while both countdowns are under way.
theorem fault_freezes_program_of_ret : ∃ start : Machine, ∃ history es : List Event,
    start.IsNew ∧ (start.after history).cpu.fault = some (.stackUnderflow 0x206) ∧
    (∀ e ∈ es, e.restarts = false) ∧
    let m := start.after history
    m.cpu.delay ≠ (m.after es).cpu.delay ∧ m.limiter ≠ (m.after es).limiter ∧
    m.SameProgram (m.after es) ∧ (m.after es).StoppedBy (.stackUnderflow 0x206) := by
  let start := fresh (.tone false) .modern .unlimited ⟨fun _ => 0, 0⟩
  let history : List Event := [.load #[0x60, 0x09, 0xF0, 0x15, 0xF0, 0x18, 0x00, 0xEE],
    .cpuTick, .cpuTick, .cpuTick, .key 3 true, .cpuTick]
  let es : List Event := [.timerTick, .cpuTick, .key 3 false, .cpuTick, .togglePause, .allowStep,
    .cpuTick, .setDialect .compatible, .cpuTick]
  have hs : start.IsNew := rfl
  have hf : (start.after history).cpu.fault = some (.stackUnderflow 0x206) := by decide +kernel
  have he : ∀ e ∈ es, e.restarts = false := by decide
  have ⟨hp, hm, _⟩ := fault_freezes_program hs hf he
  exact ⟨start, history, es, hs, hf, he, by decide +kernel, by decide +kernel, hp, hm⟩

end Machine
end Chip8
