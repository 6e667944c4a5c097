import Chip8.Proofs.Countdowns
import Chip8.Proofs.Speaker

namespace Chip8

-- Whether an event is told to the speaker.
def Event.isTold : Event → Bool
  | load _ | reset | timerTick | release => true
  | _                                    => false

theorem Speaker.receive_tone (on : Bool) (c : Speaker.Call) :
    (tone on).receive c = tone (c = .start) := by
  cases c <;> rfl

namespace Machine

variable {m start : Machine} {e : Event} {es fs gs : List Event} {x : Register} {t : Timer}

-- What the speaker is told at an event.
def call? (m : Machine) : Event → Option Speaker.Call
  | .timerTick       => some (if m.cpu.sound.count = 0 then .stop else .start)
  | .load _ | .reset => some .stop
  | .release         => some .release
  | _                => none

theorem tone_eq (m : Machine) : m.tone = if m.cpu.sound.count = 0 then .stop else .start := by
  simp [tone, Countdown.isActive]

theorem calls_handle (m : Machine) (e : Event) : (m.handle e).calls = (m.call? e).toList := by
  cases e
  case load      =>
    rw [handle, load, Reported.calls_andThen, cutReports]
    split <;> rfl
  case cpuTick   => exact m.calls_cpuTick
  case timerTick => exact congrArg ([·]) m.tone_eq
  all_goals rfl

-- The speaker is where the calls of an event take it.
theorem speaker_handle (m : Machine) (e : Event) :
    (m.handle e).value.speaker = (m.call? e).toList.foldl .receive m.speaker := by
  rw [← calls_handle]
  exact congrArg (·.value.speaker) <| m.handle_attach m.speaker e

theorem speaker_handle_of_not_told (he : e.isTold = false) :
    (m.handle e).value.speaker = m.speaker := by
  rw [speaker_handle]
  cases e
  case load | reset | timerTick | release => cases he
  all_goals rfl

theorem speaker_after_of_not_told (h : ∀ e ∈ es, e.isTold = false) :
    (m.after es).speaker = m.speaker := by
  induction es generalizing m
  case nil          => rfl
  case cons e es ih =>
    have ⟨he, hes⟩ := List.forall_mem_cons.mp h
    rw [after_cons, ih hes, speaker_handle_of_not_told he]

theorem exists_tone_after (h : ∃ on, m.speaker = .tone on) (es : List Event) :
    ∃ on, (m.after es).speaker = .tone on := by
  induction es generalizing m
  case nil          => exact h
  case cons e es ih =>
    have ⟨on, hm⟩ := h
    refine ih ?_
    rw [speaker_handle, hm]
    cases m.call? e
    case none   => exact ⟨on, rfl⟩
    case some c => exact ⟨_, Speaker.receive_tone on c⟩

theorem call?_eq_start_iff : m.call? e = some .start ↔ e = .timerTick ∧ m.remaining .sound ≠ 0 := by
  have hz : m.remaining .sound = 0 ↔ m.cpu.sound.count = 0 := UInt8.toNat_inj (b := 0)
  cases e <;> simp [call?, hz]

-- Only a tick of the clock that finds the countdown above zero turns the tone on.
theorem isOn_handle_iff (h : ∃ on, m.speaker = .tone on) (he : e.isTold = true) :
    (m.handle e).value.speaker.isOn = true ↔ e = .timerTick ∧ m.remaining .sound ≠ 0 := by
  have ⟨on, hm⟩ := h
  rw [← call?_eq_start_iff, speaker_handle, hm]
  cases hc : m.call? e
  case some c => simp [Speaker.receive_tone, Speaker.isOn]
  case none   =>
    cases e
    case load | reset | timerTick | release => cases hc
    all_goals cases he

theorem isOn_after_iff (h : start.speaker = .tone false) :
    (start.after es).speaker.isOn = true ↔ ∃ fs gs, es = fs ++ .timerTick :: gs ∧
      (start.after fs).remaining .sound ≠ 0 ∧ ∀ e ∈ gs, e.isTold = false := by
  have told {fs gs : List Event} {e : Event} (he : e.isTold = true)
      (hg : ∀ e ∈ gs, e.isTold = false) :
      (start.after (fs ++ e :: gs)).speaker.isOn = true ↔
        e = .timerTick ∧ (start.after fs).remaining .sound ≠ 0 := by
    rw [after_append, after_cons, speaker_after_of_not_told hg]
    exact isOn_handle_iff (exists_tone_after ⟨_, h⟩ fs) he
  have untold {m : Machine} {gs : List Event} (hw : m.Without (fun _ e => e.isTold = true) gs) :
      ∀ e ∈ gs, e.isTold = false :=
    fun e he => eq_false_of_ne_true <| hw.forall_not e he
  constructor
  case mpr =>
    rintro ⟨fs, gs, rfl, hn, hg⟩
    exact (told rfl hg).mpr ⟨rfl, hn⟩
  case mp =>
    intro hon
    rcases without_or_exists_last (fun _ e => e.isTold = true) start es with
      hw | ⟨fs, e, gs, rfl, he, hw⟩
    case inl =>
      rw [speaker_after_of_not_told (untold hw), h] at hon
      cases hon
    case inr =>
      obtain ⟨rfl, hn⟩ := (told he (untold hw)).mp hon
      exact ⟨fs, gs, rfl, hn, untold hw⟩

theorem isTold_of_without (hw : m.Without (Renews t) es) (hr : .release ∉ es)
    (ht : .timerTick ∉ es) : ∀ e ∈ es, e.isTold = false := by
  induction hw
  case nil => nofun
  case cons m e es here _ ih =>
    refine List.forall_mem_cons.mpr
      ⟨?_, ih (List.not_mem_of_not_mem_cons hr) (List.not_mem_of_not_mem_cons ht)⟩
    cases e
    case load | reset => exact absurd (.inl rfl) here
    case timerTick    => exact absurd rfl <| List.ne_of_not_mem_cons ht
    case release      => exact absurd rfl <| List.ne_of_not_mem_cons hr
    all_goals rfl

-- The tone goes on at the first tick of the clock after a program has set the countdown, and off when
-- there have been more ticks than the program has asked for.
theorem isOn_after_setSound (h : ∃ on, m.speaker = .tone on) (hx : m.Completes (.setSound x))
    (hw : m.cpuTick.value.Without (Renews .sound) es) (hr : .release ∉ es) (ht : .timerTick ∈ es) :
    (m.after (.cpuTick :: es)).speaker.isOn = true ↔ es.count .timerTick ≤ (m.reg x).toNat := by
  rcases without_or_exists_last (fun _ e => e = .timerTick) m.cpuTick.value es with
    hn | ⟨fs, e, gs, rfl, rfl, hn⟩
  case inl => exact absurd rfl <| hn.forall_not _ ht
  case inr =>
    have ⟨hfs, hgs⟩ := hw.of_append
    have ⟨_, hgs⟩ := without_cons_iff.mp hgs
    have hg : .timerTick ∉ gs := fun hg => hn.forall_not _ hg rfl
    have hs : ∀ e ∈ gs, e.isTold = false :=
      isTold_of_without hgs (fun hg => hr <| by simp [hg]) hg
    have hl : (m.after (.cpuTick :: fs)).remaining .sound =
        (m.reg x).toNat - fs.count .timerTick :=
      (remaining_after hfs).trans <| congrArg (· - _) <| Completes.remaining (t := .sound) hx
    have hon := isOn_handle_iff (e := .timerTick) (exists_tone_after h (.cpuTick :: fs)) rfl
    calc (m.after (.cpuTick :: (fs ++ .timerTick :: gs))).speaker.isOn = true
      _ ↔ ((m.after (.cpuTick :: fs)).handle .timerTick).value.speaker.isOn = true := by
        rw [← List.cons_append, after_append, after_cons, speaker_after_of_not_told hs]
      _ ↔ (m.after (.cpuTick :: fs)).remaining .sound ≠ 0 := hon.trans <| and_iff_right rfl
      _ ↔ fs.count .timerTick + 1 ≤ (m.reg x).toNat := by rw [hl]; omega
      _ ↔ (fs ++ .timerTick :: gs).count .timerTick ≤ (m.reg x).toNat := by
        simp [List.count_eq_zero_of_not_mem hg]

-- Whatever happens to a machine with a speaker that is silent at first, the tone is on exactly if the
-- last thing that the speaker was told came from a tick of the clock that found the countdown for
-- sound above zero. The clock tells it one thing at each tick, the beginning of a program and the end
-- of the host's use of the speaker one thing each, and the processor nothing. So from the first tick
-- of the clock after a program has set the countdown, the tone is on for as many ticks as it was set
-- to, whatever else happens, unless something tells the speaker otherwise.
theorem tone_follows_sound (h : start.speaker = .tone false) (es : List Event) :
    let m := start.after es
    (m.speaker.isOn = true ↔ ∃ fs gs, es = fs ++ .timerTick :: gs ∧
      (start.after fs).remaining .sound ≠ 0 ∧ ∀ e ∈ gs, e.isTold = false) ∧
    (∀ e, (m.handle e).calls = (m.call? e).toList) ∧
    ∀ x fs, m.Completes (.setSound x) → m.cpuTick.value.Without (Renews .sound) fs →
      .release ∉ fs → .timerTick ∈ fs →
      ((m.after (.cpuTick :: fs)).speaker.isOn = true ↔ fs.count .timerTick ≤ (m.reg x).toNat) := by
  intro m
  refine ⟨isOn_after_iff h, m.calls_handle, fun x fs hx hw hr ht => ?lasts⟩
  case lasts => exact isOn_after_setSound (exists_tone_after ⟨_, h⟩ es) hx hw hr ht

-- The countdown is set to two and the program then waits for a key: the tone is on after the second
-- tick of the clock, and off after the third.
theorem tone_follows_sound_in_wait : ∃ start : Machine, ∃ es fs : List Event,
    start.speaker = .tone false ∧
    (let m := start.after es
     m.Completes (.setSound 0) ∧ m.reg 0 = 2 ∧ fs.count .timerTick = 2 ∧
      (m.after (.cpuTick :: fs)).speaker.isOn = true ∧
      ¬(m.after (.cpuTick :: (fs ++ [.timerTick]))).speaker.isOn = true) ∧
    (start.handle .timerTick).calls = [.stop] := by
  let start := fresh (.tone false) .modern .unlimited ⟨fun _ => 0, 0⟩
  let es : List Event := [.load #[0x60, 0x02, 0xF0, 0x18, 0xF1, 0x0A], .cpuTick]
  let fs : List Event := [.cpuTick, .timerTick, .cpuTick, .togglePause, .timerTick, .cpuTick]
  have hs : start.speaker = .tone false := rfl
  have hx : (start.after es).Completes (.setSound 0) := by decide +kernel
  have hv : (start.after es).reg 0 = 2 := by decide +kernel
  have ⟨_, hc, _⟩ := tone_follows_sound hs []
  have ⟨_, _, hl⟩ := tone_follows_sound hs es
  have h₂ := hl 0 fs hx (by decide +kernel) (by decide) (by decide)
  have h₃ := hl 0 (fs ++ [.timerTick]) hx (by decide +kernel) (by decide) (by decide)
  rw [hv] at h₂ h₃
  have hoff : ¬fs.count .timerTick + 1 ≤ 2 := by decide
  exact ⟨start, es, fs, hs, ⟨hx, hv, by decide, h₂.mpr (by decide), fun h => hoff (h₃.mp h)⟩,
    hc .timerTick⟩

end Machine
end Chip8
