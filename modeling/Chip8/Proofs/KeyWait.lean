import Chip8.Proofs.Release
import Chip8.Proofs.Run
import Chip8.Proofs.Tick

namespace Chip8.Machine

variable {m m' : Machine} {e : Event} {es : List Event} {x : Register}

-- No key counts as let go.
def Unreleased (m : Machine) : Prop :=
  ∀ k, ¬m.keypad.IsReleased k

-- A tick of the processor would not run an instruction.
def RunsNothing (m : Machine) : Prop :=
  ∀ w i, m.turn ≠ .run w i

-- Where a program is: its next instruction, and what it has in memory.
def place (m : Machine) : UInt16 × Memory :=
  (m.cpu.pc, m.memory)

theorem turn_of_wait (h : m.keypad.wait = some x) : m.turn = .poll :=
  turn_eq_poll_iff.mpr <| Option.isSome_iff_exists.mpr ⟨x, h⟩

theorem runsNothing_of_wait (h : m.keypad.wait = some x) : m.RunsNothing := by
  intro w i
  rw [turn_of_wait h]
  exact Turn.noConfusion

namespace Tick

-- While a register waits, a tick looks at the keys and runs nothing.
theorem of_wait (h : m.keypad.wait = some x) : Tick m m' →
    (m.keypad.released? = none ∧ m' = m) ∨
    ∃ k, m.keypad.released? = some k ∧ m' = { m with keypad.wait := none }.setReg x k.toByte
  | wait _ hr     => .inl ⟨hr, rfl⟩
  | resolve hx hr => by cases h.symm.trans hx; exact .inr ⟨_, hr, rfl⟩
  | rest ht       => by cases (turn_of_wait h).symm.trans ht
  | stuck ht      => by cases (turn_of_wait h).symm.trans ht
  | complete ht _ => by cases (turn_of_wait h).symm.trans ht
  | fail ht _     => by cases (turn_of_wait h).symm.trans ht

-- A tick that runs no instruction leaves the program where it is.
theorem preserves_place (h : m.RunsNothing) : Tick m m' → m'.place = m.place
  | wait .. | resolve .. | rest _ | stuck _ => rfl
  | complete ht _ | fail ht _               => absurd ht <| h _ _

theorem awaits_of_execute {i : Instruction} (h : m.keypad.wait ≠ some x)
    (h' : ((m.start i).execute i).machine.keypad.wait = some x) : i = .awaitKey x := by
  by_cases hi : ∃ y, i = .awaitKey y
  case pos =>
    obtain ⟨y, rfl⟩ := hi
    cases h'
    rfl
  case neg =>
    have hk := execute_preserves_keypad (m := m.start i) fun y hy => hi ⟨y, hy⟩
    rw [hk] at h'
    exact absurd h' h

-- Only an instruction that awaits a key makes a register wait.
theorem begins_wait (h : m.keypad.wait ≠ some x) (h' : m'.keypad.wait = some x) :
    Tick m m' → ∃ w, m.turn = .run w (.awaitKey x)
  | wait .. | rest _ | stuck _ => absurd h' h
  | resolve ..                 => nomatch h'
  | complete ht _ | fail ht _  => ⟨_, ht.trans <| congrArg _ <| awaits_of_execute h h'⟩

end Tick

theorem cpuTick_awaitKey {w : Word} (h : m.turn = .run w (.awaitKey x)) :
    m.cpuTick.value = ((m.start (.awaitKey x)).execute (.awaitKey x)).machine.complete := by
  simp only [cpuTick, h]
  rfl

-- A register has been given a key, and waits no more. Nothing else has changed.
structure Given (m : Machine) (x : Register) (k : Key) (m' : Machine) : Prop where
  eq     : m' = { m with keypad.wait := none }.setReg x k.toByte
  number : (m'.reg x).toNat = k
  others : ∀ r ≠ x, m'.reg r = m.reg r

theorem given_setReg (m : Machine) (x : Register) (k : Key) :
    m.Given x k ({ m with keypad.wait := none }.setReg x k.toByte) where
  eq         := rfl
  number     := (congrArg UInt8.toNat <| Registers.get_set_self ..).trans k.toNat_toByte
  others _ h := Registers.get_set_of_ne _ h _

-- What a machine does with a tick while a register waits: nothing, until a key has been let go. The
-- lowest such key then goes into the register.
structure Blocked (m : Machine) (x : Register) : Prop where
  wait       : m.keypad.wait = some x
  unreleased : m.Unreleased → m.cpuTick.value = m
  released   : ¬m.Unreleased → ∃ k, m.keypad.IsLowestReleased k ∧ m.Given x k m.cpuTick.value

theorem blocked_of_wait (h : m.keypad.wait = some x) : m.Blocked x := by
  refine ⟨h, fun hu => ?unreleased, fun hu => ?released⟩
  case unreleased =>
    rcases m.tick.of_wait h with ⟨_, hm⟩ | ⟨k, hk, _⟩
    · exact hm
    · exact absurd (Keypad.released?_eq_some_iff.mp hk).released <| hu k
  case released =>
    rcases m.tick.of_wait h with ⟨hn, _⟩ | ⟨k, hk, hm⟩
    · exact absurd (Keypad.released?_eq_none_iff.mp hn) hu
    · exact ⟨k, Keypad.released?_eq_some_iff.mp hk, hm ▸ m.given_setReg x k⟩

-- What the events of a run do to a wait.

theorem handle_ends_wait (m : Machine) (he : e.restarts = true) :
    (m.handle e).value.keypad.wait = none := by
  cases e
  case load | reset => rfl
  all_goals cases he

theorem handle_preserves_wait (he : e.restarts = false) (hk : e = .cpuTick → m.Unreleased)
    (h : m.keypad.wait = some x) : (m.handle e).value.keypad.wait = some x := by
  cases e
  case load | reset => cases he
  case cpuTick =>
    have hm : (m.handle .cpuTick).value = m := (blocked_of_wait h).unreleased (hk rfl)
    rw [hm]
    exact h
  all_goals exact h

theorem handle_preserves_place (he : e.restarts = false) (ht : e = .cpuTick → m.RunsNothing) :
    (m.handle e).value.place = m.place := by
  cases e
  case load | reset => cases he
  case cpuTick      => exact m.tick.preserves_place (ht rfl)
  all_goals rfl

theorem handle_begins_wait (h : m.keypad.wait ≠ some x)
    (h' : (m.handle e).value.keypad.wait = some x) :
    e = .cpuTick ∧ ∃ w, m.turn = .run w (.awaitKey x) := by
  cases e
  case load | reset => cases h'
  case cpuTick      => exact ⟨rfl, m.tick.begins_wait h h'⟩
  all_goals exact absurd h' h

-- A wait in a run: the tick that began it, and that it has gone on up to a later place.
structure WaitsSince (m : Machine) (es : List Event) (x : Register) (began now : Nat) : Prop where
  before  : began < now
  tick    : es[began]? = some .cpuTick
  begins  : ∃ w, (m.upTo es began).turn = .run w (.awaitKey x)
  pending : ∀ n, began < n → n ≤ now → (m.upTo es n).keypad.wait = some x

namespace WaitsSince

variable {began now : Nat}

-- Whatever waits has been made to wait by an instruction.
theorem of_wait (hm : m.keypad.wait = none) (hl : now ≤ es.length)
    (hw : (m.upTo es now).keypad.wait = some x) : ∃ began, m.WaitsSince es x began now := by
  have hn : ¬m.keypad.wait = some x := fun h => nomatch hm.symm.trans h
  have ⟨began, e, hb, he, h, hs⟩ := exists_since (P := (·.keypad.wait = some x)) hn hl hw
  have ⟨ht, hi⟩ := handle_begins_wait h <| upTo_succ he ▸ hs _ (Nat.lt_succ_self began) hb
  exact ⟨began, hb, ht ▸ he, hi, hs⟩

theorem stays (h : m.WaitsSince es x began now) {n : Nat} (hb : began < n) (hn : n < now)
    (he : es[n]? = some e) : e.restarts = false := by
  have hw := h.pending (n + 1) (Nat.lt_succ_of_lt hb) hn
  rw [upTo_succ he] at hw
  cases hr : e.restarts
  case false => rfl
  case true  => cases (handle_ends_wait _ hr).symm.trans hw

-- The program counter is past the instruction that awaits the key, and stays there.
theorem place_eq (h : m.WaitsSince es x began now) (hl : now ≤ es.length) :
    (m.upTo es now).place = ((m.upTo es began).cpu.pc + 2, (m.upTo es began).memory) := by
  refine m.upTo_induction (P := fun n => (m.upTo es n).place = _) h.before hl ?base ?step
  case base =>
    have ⟨w, hw⟩ := h.begins
    rw [upTo_succ h.tick, handle, cpuTick_awaitKey hw]
    rfl
  case step =>
    intro n e hb hn he hs hp
    have ht := runsNothing_of_wait <| h.pending n hb (Nat.le_of_lt hn)
    rw [hs, handle_preserves_place (h.stays hb hn he) fun _ => ht]
    exact hp

end WaitsSince

-- However a register has come to wait for a key, an instruction made it wait. Whatever happens
-- then, as long as no program begins anew, the ticks of the processor change nothing until one of
-- them finds a key let go, and that one gives the lowest such key to the register and changes
-- nothing else. The next instruction to run is the one after the instruction that awaited the key.
theorem wait_blocks_until_release {start : Machine} (hs : start.IsNew) {history : List Event}
    (hw : (start.after history).keypad.wait = some x) :
    ∃ began, start.WaitsSince history x began history.length ∧ ∀ es,
      ((start.after history).Stretch Unreleased es →
        ((start.after history).after es).Blocked x) ∧
      ((start.after history).Stretch RunsNothing es →
        ∀ w i, ((start.after history).after es).turn = .run w i →
          let m := start.upTo history began
          m.memory.WordAt (m.cpu.pc + 2).toNat w ∧ Instruction.ofWord? w = some i) := by
  have hn : start.keypad.wait = none := by rw [hs.keypad]
  rw [← upTo_length] at hw ⊢
  have ⟨began, hb⟩ := WaitsSince.of_wait hn (Nat.le_refl _) hw
  refine ⟨began, hb, fun es => ⟨fun hu => ?blocked, fun hu w i ht => ?next⟩⟩
  case blocked => exact blocked_of_wait <| hu.preserves handle_preserves_wait hw
  case next =>
    have hp := hu.preserves (Q := fun m => m.place = _)
      (fun he ht hp => (handle_preserves_place he ht).trans hp) <| hb.place_eq (Nat.le_refl _)
    have ⟨hp, hm⟩ := Prod.mk.inj hp
    have ⟨_, _, _, hf⟩ := turn_eq_run_iff.mp ht
    have hw := fetch_eq_ok_iff.mp hf
    rwa [hp, hm] at hw

-- While `V5` waits, a tick comes to nothing, and then two keys go down and up.
theorem wait_blocks_until_two_keys_go_up : ∃ start : Machine, ∃ history : List Event,
    start.IsNew ∧ (start.after history).keypad.wait = some 5 ∧
    (∃ began, start.WaitsSince history 5 began history.length) ∧
    ((start.after history).after
      [.cpuTick, .key 9 true, .key 3 true, .key 9 false, .key 3 false]).Blocked 5 := by
  let start := fresh .mute .modern .unlimited ⟨fun _ => 0, 0⟩
  let history : List Event := [.load #[0xF5, 0x0A], .timerTick, .cpuTick]
  have hs : start.IsNew := rfl
  have hw : (start.after history).keypad.wait = some 5 := by decide +kernel
  have ⟨began, hb, h⟩ := wait_blocks_until_release hs hw
  refine ⟨start, history, hs, hw, ⟨began, hb⟩, (h _).left ?_⟩
  have hu : (start.after history).Unreleased :=
    Keypad.released?_eq_none_iff.mp <| by decide +kernel
  refine .cons rfl (fun _ => hu) <| .cons rfl ?_ <| .cons rfl ?_ <| .cons rfl ?_ <|
    .cons rfl ?_ .nil
  all_goals exact fun h => nomatch h

end Chip8.Machine
