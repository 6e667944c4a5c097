import Chip8.Proofs.Progress

namespace Chip8

-- The two countdowns.
inductive Timer
  | delay
  | sound
  deriving DecidableEq

-- The instruction that puts a register on a countdown.
def Timer.setter : Timer → Register → Instruction
  | delay => .setDelay
  | sound => .setSound

def Cpu.countdown (c : Cpu) : Timer → Countdown
  | .delay => c.delay
  | .sound => c.sound

namespace Machine

variable {m m' : Machine} {e : Event} {es : List Event} {i : Instruction} {x : Register} {t : Timer}

def remaining (m : Machine) (t : Timer) : Nat :=
  (m.cpu.countdown t).count.toNat

-- An event that gives a countdown a new beginning: a tick that completes the instruction which sets
-- it, or a program that begins anew.
def Renews (t : Timer) (m : Machine) (e : Event) : Prop :=
  e.restarts = true ∨ e = .cpuTick ∧ ∃ x, m.Completes (t.setter x)

instance decidableRenews (t : Timer) (m : Machine) (e : Event) : Decidable (Renews t m e) :=
  inferInstanceAs <| Decidable (_ ∨ _)

theorem execute_preserves_countdown (h : ∀ x, i ≠ t.setter x) :
    (m.execute i).machine.cpu.countdown t = m.cpu.countdown t := by
  cases t
  case delay => exact execute_preserves_delay h
  case sound => exact execute_preserves_sound h

theorem execute_setter_fault (m : Machine) (t : Timer) (x : Register) :
    (m.execute (t.setter x)).fault = none := by
  cases t <;> rfl

theorem Tick.preserves_countdown (h : ∀ x, ¬m.Completes (t.setter x)) :
    Tick m m' → m'.cpu.countdown t = m.cpu.countdown t
  | wait .. | resolve .. | rest _ | stuck _ => by cases t <;> rfl
  | complete ht hd                          =>
    execute_preserves_countdown fun x hi => h x ⟨_, hi ▸ ht, hi ▸ hd⟩
  | @fail _ _ i f ht hf                     =>
    execute_preserves_countdown fun x hi => by
      subst hi
      cases ((m.start _).execute_setter_fault t x).symm.trans hf

theorem Completes.remaining (h : m.Completes (t.setter x)) :
    m.cpuTick.value.remaining t = (m.reg x).toNat := by
  rw [h.cpuTick_value]
  cases t <;> rfl

theorem remaining_of_restarts (he : e.restarts = true) : (m.handle e).value.remaining t = 0 := by
  cases e
  case load | reset => cases t <;> rfl
  all_goals cases he

theorem remaining_handle (h : ¬Renews t m e) :
    (m.handle e).value.remaining t = m.remaining t - [e].count .timerTick := by
  cases e
  case load | reset => exact absurd (.inl rfl) h
  case cpuTick      =>
    have hc (x : Register) : ¬m.Completes (t.setter x) := fun hx => h <| .inr ⟨rfl, x, hx⟩
    exact congrArg (·.count.toNat) <| m.tick.preserves_countdown hc
  case timerTick    => cases t <;> exact Countdown.count_tick_toNat _
  all_goals rfl

theorem remaining_after (h : m.Without (Renews t) es) :
    (m.after es).remaining t = m.remaining t - es.count .timerTick := by
  induction h
  case nil                     => rfl
  case cons m e es here _ ih =>
    rw [after_cons, ih, remaining_handle here, Nat.sub_sub, ← List.count_append]
    rfl

-- A run that ends with a stretch in which a countdown is left to itself, after the register `x` has
-- been put on it.
structure SetLast (t : Timer) (start : Machine) (es fs gs : List Event) (x : Register) : Prop where
  split     : es = fs ++ .cpuTick :: gs
  completes : (start.after fs).Completes (t.setter x)
  since     : (start.after fs).cpuTick.value.Without (Renews t) gs

-- What is left on a countdown, by what has happened in a run.
inductive Remains (t : Timer) (start : Machine) (es : List Event) : Nat → Prop
  | set {fs gs x} (last : SetLast t start es fs gs x) :
    Remains t start es (((start.after fs).reg x).toNat - gs.count .timerTick)
  | unset (never : ∀ fs gs x, ¬SetLast t start es fs gs x) : Remains t start es 0

theorem SetLast.remaining {start : Machine} {fs gs : List Event}
    (h : SetLast t start es fs gs x) :
    (start.after es).remaining t = ((start.after fs).reg x).toNat - gs.count .timerTick := by
  rw [h.split, after_append, after_cons, ← h.completes.remaining]
  exact remaining_after h.since

theorem remaining_of_unset {start : Machine} (hs : start.IsNew)
    (h : ∀ fs gs x, ¬SetLast t start es fs gs x) : (start.after es).remaining t = 0 := by
  rcases without_or_exists_last (Renews t) start es with hw | ⟨fs, e, gs, he, hr, hw⟩
  case inl =>
    have hn : start.remaining t = 0 := by
      rw [hs]
      cases t <;> rfl
    rw [remaining_after hw, hn, Nat.zero_sub]
  case inr =>
    rcases hr with hr | ⟨rfl, x, hx⟩
    · rw [he, after_append, after_cons, remaining_after hw, remaining_of_restarts hr, Nat.zero_sub]
    · exact absurd ⟨he, hx, hw⟩ <| h fs gs x

theorem Remains.eq_remaining {start : Machine} {n : Nat} (hs : start.IsNew) :
    Remains t start es n → n = (start.after es).remaining t
  | set last    => last.remaining.symm
  | unset never => (remaining_of_unset hs never).symm

theorem remains_remaining {start : Machine} (hs : start.IsNew) (t : Timer) (es : List Event) :
    Remains t start es <| (start.after es).remaining t := by
  by_cases h : ∃ fs gs x, SetLast t start es fs gs x
  case pos =>
    have ⟨_, _, _, hl⟩ := h
    exact hl.remaining ▸ .set hl
  case neg =>
    have hn : ∀ fs gs x, ¬SetLast t start es fs gs x := fun fs gs x hl => h ⟨fs, gs, x, hl⟩
    exact remaining_of_unset hs hn ▸ .unset hn

theorem reg_readDelay (h : m.Completes (.readDelay x)) :
    (m.cpuTick.value.reg x).toNat = m.remaining .delay := by
  rw [h.cpuTick_value]
  exact congrArg UInt8.toNat <| Registers.get_set_self ..

-- Whatever happens to a new machine, there is left on each countdown what the program has last put on
-- it, less the ticks of the clock since then and never less than nothing, and nothing if the program
-- has put nothing on it since it began. This is what a program reads off the countdown for delays.
theorem countdown_follows_history {start : Machine} (hs : start.IsNew) (es : List Event) :
    let m := start.after es
    (∀ t n, Remains t start es n ↔ n = (m.cpu.countdown t).count.toNat) ∧
    ∀ x, m.Completes (.readDelay x) → Remains .delay start es (m.cpuTick.value.reg x).toNat := by
  intro m
  refine ⟨fun t n => ⟨Remains.eq_remaining hs, fun hn => ?mpr⟩, fun x hx => ?read⟩
  case mpr  => exact hn ▸ remains_remaining hs t es
  case read => exact reg_readDelay hx ▸ remains_remaining hs .delay es

-- Two ticks of the clock in a pause take two off what is put on the countdown before it; it is read
-- when the program goes on.
theorem countdown_follows_history_in_pause : ∃ start : Machine, ∃ es : List Event, start.IsNew ∧
    let m := start.after es
    m.cpu.delay.count = 3 ∧ Remains .delay start es 3 ∧ Remains .sound start es 0 ∧
    m.Completes (.readDelay 1) ∧ Remains .delay start es (m.cpuTick.value.reg 1).toNat := by
  let start := fresh .mute .modern .unlimited ⟨fun _ => 0, 0⟩
  let es : List Event := [.load #[0x60, 0x05, 0xF0, 0x15, 0xF1, 0x07], .timerTick, .cpuTick,
    .cpuTick, .togglePause, .timerTick, .cpuTick, .timerTick, .togglePause]
  have hs : start.IsNew := rfl
  have hd : (start.after es).cpu.delay.count = 3 := by decide +kernel
  have hn : (start.after es).cpu.sound.count = 0 := by decide +kernel
  have hx : (start.after es).Completes (.readDelay 1) := ⟨0xF107, by decide +kernel, rfl⟩
  have ⟨h, hr⟩ := countdown_follows_history hs es
  have hd' := (h .delay 3).mpr <| congrArg UInt8.toNat hd.symm
  have hn' := (h .sound 0).mpr <| congrArg UInt8.toNat hn.symm
  exact ⟨start, es, hs, hd, hd', hn', hx, hr 1 hx⟩

end Machine
end Chip8
