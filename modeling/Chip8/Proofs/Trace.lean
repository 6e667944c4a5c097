import Chip8.Proofs.Range
import Chip8.Proofs.Standstill

namespace Chip8

namespace Log

-- A line that shows an instruction.
def showsInstruction (line : String) : Bool :=
  "DEBUG [".toList.isPrefixOf line.toList

namespace Entry

def isFetched : Entry → Bool
  | fetched .. => true
  | _          => false

def isHalted : Entry → Bool
  | halted .. => true
  | _         => false

theorem filter_isFetched_halted (cycles : UInt64) (f? : Option Fault) :
    (f?.map (halted cycles)).toList.filter isFetched = [] := by
  cases f? <;> rfl

-- Whether an entry is about an instruction, or about the end of a program.
def isStep (l : Entry) : Bool :=
  l.isFetched || l.isHalted

end Entry
end Log

namespace Reported

variable {α β : Type} (r : Reported α)

def lines : List String :=
  r.entries.map Log.Entry.line

-- The lines that show instructions.
def trace : List String :=
  r.lines.filter Log.showsInstruction

-- The entries behind the lines of both kinds.
def steps : List Log.Entry :=
  r.entries.filter Log.Entry.isStep

theorem steps_andThen (f : α → Reported β) :
    (r.andThen f).steps = r.steps ++ (f r.value).steps := by
  simp only [steps, entries_andThen, List.filter_append]

end Reported

namespace Machine

variable {m m' : Machine} {e : Event} {es : List Event} {f : Fault} {i : Instruction} {w : Word}

theorem steps_run_cons (m : Machine) (e : Event) (es : List Event) :
    (m.run (e :: es)).steps = (m.handle e).steps ++ ((m.handle e).value.run es).steps :=
  Reported.steps_andThen ..

theorem steps_cpuTick (m : Machine) :
    m.cpuTick.steps = match m.turn with
      | .poll | .rest => []
      | .stuck f => [.halted m.cpu.cycles f]
      | .run w i =>
        .fetched w i :: (((m.start i).execute i).fault.map (.halted m.cpu.cycles)).toList := by
  rw [Reported.steps, entries_cpuTick]
  cases m.turn
  case poll         => cases m.checkKey.1 <;> rfl
  case rest | stuck => rfl
  case run w i      =>
    dsimp only
    cases ((m.start i).execute i).fault <;> rfl

theorem steps_handle_of_ne (he : e ≠ .cpuTick) : (m.handle e).steps = [] := by
  rw [Reported.steps, entries_handle]
  cases e
  case cpuTick      => exact absurd rfl he
  case load program =>
    dsimp only
    split <;> rfl
  all_goals rfl

-- What a tick of the processor shows: the instruction that it runs.
def shown (m : Machine) : List Log.Entry :=
  match m.turn with
  | .run w i => [.fetched w i]
  | _        => []

-- The instruction that a fault cuts short at a tick of the processor.
def cut? (m : Machine) : Option Instruction :=
  match m.turn with
  | .run _ i => ((m.start i).execute i).fault.map fun _ => i
  | _        => none

theorem length_shown (m : Machine) :
    m.shown.length = m.completes.toNat + m.cut?.isSome.toNat := by
  unfold shown completes cut?
  cases m.turn
  case run w i =>
    dsimp only
    cases ((m.start i).execute i).fault <;> rfl
  all_goals rfl

theorem filter_shown (m : Machine) : m.shown.filter Log.Entry.isFetched = m.shown := by
  unfold shown
  cases m.turn <;> rfl

theorem cut?_eq_none (h : m.cpuTick.value.cpu.fault = none) : m.cut? = none := by
  unfold cut?
  split
  case h_1 w i ht =>
    cases hf : ((m.start i).execute i).fault
    case none   => rfl
    case some f =>
      simp only [cpuTick, ht, runInstruction, finish, hf] at h
      cases h
  case h_2 => rfl

-- What a tick shows is followed by the fault that it brings on record.
theorem Tick.steps (hn : m.cpu.fault = none) (h : Tick m m') :
    m.cpuTick.steps = m.shown ++ (m'.cpu.fault.map (.halted m'.cpu.cycles)).toList := by
  rw [steps_cpuTick, shown]
  cases h
  case wait ht _ | rest ht =>
    simp only [ht, hn]
    rfl
  case resolve hx _ =>
    have ht : m.turn = .poll := turn_eq_poll_iff.mpr <| Option.isSome_of_eq_some hx
    simp only [ht, setReg, hn]
    rfl
  case stuck ht =>
    simp only [ht]
    rfl
  case complete i ht hd =>
    have hf := ((m.start i).execute_preserves_fault i).trans hn
    simp only [ht, hd, Machine.complete, hf]
    rfl
  case fail i _ ht hf =>
    have hc := (m.start i).execute_preserves_cycles i
    simp only [ht, hf, halt, Cpu.halt, hc]
    rfl

-- What is on record of a program: the instructions that it has completed and the one that a fault has
-- cut short, and at last the fault.
structure Accounted (m : Machine) (cut? : Option Instruction) (ls : List Log.Entry) : Prop where
  order  : ls = ls.filter Log.Entry.isFetched ++
    (m.cpu.fault.map (.halted m.cpu.cycles)).toList
  length : (ls.filter Log.Entry.isFetched).length = m.cpu.cycles.toNat + cut?.isSome.toNat

theorem steps_run_of_stoppedBy (hm : m.StoppedBy f) (he : ∀ e ∈ es, e.restarts = false) :
    (m.run es).steps = [] := by
  rw [Reported.steps, List.filter_eq_nil_iff]
  intro l hl
  have ⟨n, e, hn, hl⟩ := exists_of_mem_entries_run hl
  have ⟨_, _, hl⟩ := (hm.upTo he n).entries_handle (he e <| List.mem_of_getElem? hn) hl
  rw [hl]
  exact Bool.false_ne_true

namespace Accounted

variable {cut? : Option Instruction} {ls : List Log.Entry}

theorem of_restarts (m : Machine) (he : e.restarts = true) :
    (m.handle e).value.Accounted none (m.handle e).steps := by
  have hs : (m.handle e).steps = [] := steps_handle_of_ne fun h => nomatch h ▸ he
  rw [hs]
  cases e
  case load | reset => exact ⟨rfl, rfl⟩
  all_goals cases he

theorem of_eq (h : m.Accounted cut? ls) (hf : m'.cpu.fault = m.cpu.fault)
    (hc : m'.cpu.cycles = m.cpu.cycles) : m'.Accounted cut? ls :=
  ⟨hf ▸ hc ▸ h.order, hc ▸ h.length⟩

-- A fault is the last thing that a program puts on record.
theorem after_fault (h : m.Accounted cut? ls) (hm : m.StoppedBy f)
    (he : ∀ e ∈ es, e.restarts = false) :
    (m.after es).Accounted cut? (ls ++ (m.run es).steps) := by
  have hs := hm.sameProgram_after he
  rw [steps_run_of_stoppedBy hm he, List.append_nil]
  exact h.of_eq (congrArg (·.cpu.fault) hs) (congrArg (·.cpu.cycles) hs)

theorem cpuTick (h : m.Accounted none ls) (hn : m.cpu.fault = none) :
    m.cpuTick.value.Accounted m.cut? (ls ++ m.cpuTick.steps) := by
  have ho := h.order
  rw [hn, Option.map_none, Option.toList_none, List.append_nil] at ho
  rw [m.tick.steps hn]
  have hs (g? : Option Fault) (n : UInt64) :
      (ls ++ (m.shown ++ (g?.map (Log.Entry.halted n)).toList)).filter Log.Entry.isFetched =
        ls ++ m.shown := by
    simp only [List.filter_append, ← ho, filter_shown, Log.Entry.filter_isFetched_halted,
      List.append_nil]
  constructor
  case order  => rw [hs, List.append_assoc]
  case length =>
    rw [hs, ho, List.length_append, h.length, length_shown, m.tick.toNat_cycles]
    exact (Nat.add_assoc ..).symm

theorem handle (h : m.Accounted none ls) (hn : m.cpu.fault = none)
    (hf : (m.handle e).value.cpu.fault = none) (he : e.restarts = false) :
    (m.handle e).value.Accounted none (ls ++ (m.handle e).steps) := by
  by_cases hc : e = .cpuTick
  case pos =>
    subst hc
    exact cut?_eq_none hf ▸ h.cpuTick hn
  case neg =>
    rw [steps_handle_of_ne hc, List.append_nil]
    cases e
    case load | reset => cases he
    case cpuTick      => exact absurd rfl hc
    all_goals exact h.of_eq rfl rfl

-- Along a run no instruction is cut short, until a tick brings a fault on record.
theorem run (h : m.Accounted none ls) (hm : m.Consistent) (hn : m.cpu.fault = none)
    (he : ∀ e ∈ es, e.restarts = false) :
    ((m.after es).cpu.fault = none → (m.after es).Accounted none (ls ++ (m.run es).steps)) ∧
    ∀ f, (m.after es).cpu.fault = some f → ∃ fs gs, es = fs ++ .cpuTick :: gs ∧
      (m.after fs).Raises f ∧
      (m.after es).Accounted (m.after fs).cut? (ls ++ (m.run es).steps) := by
  induction es generalizing m ls
  case nil =>
    refine ⟨fun _ => ?_, fun f hf => nomatch hn.symm.trans hf⟩
    exact (List.append_nil ls).symm ▸ h
  case cons e es ih =>
    have ⟨he, hes⟩ := List.forall_mem_cons.mp he
    rw [steps_run_cons, ← List.append_assoc, after_cons]
    cases hf : (m.handle e).value.cpu.fault
    case none =>
      have ⟨hno, hso⟩ := ih (h.handle hn hf he) (hm.handle e) hf hes
      refine ⟨hno, fun f hf => ?_⟩
      have ⟨fs, gs, hs, hr, ha⟩ := hso f hf
      exact ⟨e :: fs, gs, congrArg _ hs, hr, ha⟩
    case some f =>
      -- From here on the machine stands still.
      have ⟨ht, hr⟩ := handle_raises (fun h => nomatch hn.symm.trans h) hf
      subst ht
      have hs := (hm.handle .cpuTick).stoppedBy hf
      have hs' := (hs.of_sameProgram <| hs.sameProgram_after hes).fault
      refine ⟨fun h => (nomatch h.symm.trans hs'), fun g hg => ?_⟩
      cases hg.symm.trans hs'
      exact ⟨[], es, rfl, hr, (h.cpuTick hn).after_fault hs hes⟩

variable {α : Type} {r : Reported α}

end Accounted

end Machine
end Chip8
