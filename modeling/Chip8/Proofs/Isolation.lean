import Chip8.Proofs.KeyWait
import Chip8.Proofs.Surroundings

namespace Chip8

namespace Event

-- Whether an event reaches nothing but the surroundings of the program.
def isAside : Event → Bool
  | timerTick | key .. => true
  | _                  => false

-- Two lists of events that differ only in what happens aside.
inductive Aligned : List Event → List Event → Prop
  | nil : Aligned [] []
  | left {e es fs} (aside : e.isAside = true) (rest : Aligned es fs) : Aligned (e :: es) fs
  | right {f es fs} (aside : f.isAside = true) (rest : Aligned es fs) : Aligned es (f :: fs)
  | both {e es fs} (rest : Aligned es fs) : Aligned (e :: es) (e :: fs)

-- Whether an event is a tick of the processor or happens aside.
def IsPlain (e : Event) : Prop :=
  e = cpuTick ∨ e.isAside = true

theorem count_cons_of_isAside {e : Event} (h : e.isAside = true) (es : List Event) :
    (e :: es).count cpuTick = es.count cpuTick :=
  List.count_cons_of_ne fun he => nomatch he ▸ h

namespace Aligned

-- A run without ticks is all aside.
theorem nil_of_count {fs : List Event} (hf : ∀ f ∈ fs, f.IsPlain) (hc : fs.count cpuTick = 0) :
    Aligned [] fs := by
  induction fs
  case nil => exact .nil
  case cons f fs ih =>
    have ⟨hp, hf⟩ := List.forall_mem_cons.mp hf
    rcases hp with rfl | ha
    · simp at hc
    · rw [count_cons_of_isAside ha] at hc
      exact .right ha <| ih hf hc

theorem of_count {es fs : List Event} (he : ∀ e ∈ es, e.IsPlain) (hf : ∀ f ∈ fs, f.IsPlain)
    (hc : es.count cpuTick = fs.count cpuTick) : Aligned es fs := by
  induction es generalizing fs
  case nil => exact nil_of_count hf hc.symm
  case cons e es ih =>
    have ⟨hp, he'⟩ := List.forall_mem_cons.mp he
    rcases hp with rfl | ha
    · -- The tick of the one run is the first of the other.
      induction fs
      case nil => simp at hc
      case cons f fs ih' =>
        have ⟨hp, hf'⟩ := List.forall_mem_cons.mp hf
        rcases hp with rfl | hb
        · exact .both <| ih he' hf' <| by simpa using hc
        · rw [count_cons_of_isAside hb] at hc
          exact .right hb <| ih' hf' hc
    · rw [count_cons_of_isAside ha] at hc
      exact .left ha <| ih he' hf hc

end Aligned
end Event

namespace Machine

variable {m m₁ m₂ : Machine} {e : Event} {es es₁ es₂ : List Event}

-- The same machine, up to the surroundings.
def Alike (m₁ m₂ : Machine) : Prop :=
  m₂ = m₁.surround m₂.surroundings

-- A tick of the processor would not run an instruction that looks at a countdown or a key.
def Unsensing (m : Machine) : Prop :=
  ∀ w i, m.turn = .run w i → i.senses = false

namespace Alike

theorem exists_surround (h : Alike m₁ m₂) : ∃ s, m₂ = m₁.surround s :=
  ⟨_, h⟩

theorem symm (h : Alike m₁ m₂) : Alike m₂ m₁ := by
  obtain ⟨s, rfl⟩ := h.exists_surround
  rfl

theorem trans {m₃ : Machine} (h : Alike m₁ m₂) (h' : Alike m₂ m₃) : Alike m₁ m₃ := by
  obtain ⟨s, rfl⟩ := h.exists_surround
  exact h'

theorem turn (h : Alike m₁ m₂) : m₂.turn = m₁.turn := by
  obtain ⟨s, rfl⟩ := h.exists_surround
  rfl

theorem unsensing (h : Alike m₁ m₂) (hu : m₁.Unsensing) : m₂.Unsensing := by
  rwa [Unsensing, h.turn]

end Alike

theorem execute_alike {i : Instruction} (h : i.senses = false) (m : Machine) (s : Surroundings) :
    ∃ s', (m.surround s).execute i = (m.execute i).surround s' := by
  cases hc : i.setsCountdown
  case false => exact ⟨s, m.execute_surround s h hc⟩
  case true  =>
    cases i
    case setDelay x => exact ⟨{ s with delay := ⟨m.reg x⟩ }, rfl⟩
    case setSound x => exact ⟨{ s with sound := ⟨m.reg x⟩ }, rfl⟩
    all_goals cases hc

theorem finish_alike (s : Surroundings) :
    (o : Outcome) → Alike (finish o).value (finish (o.surround s)).value
  | ⟨_, none, _⟩ | ⟨_, some _, _⟩ => rfl

theorem cpuTick_alike (hw : m₁.keypad.wait = none) (hu : m₁.Unsensing) (h : Alike m₁ m₂) :
    Alike m₁.cpuTick.value m₂.cpuTick.value := by
  simp only [cpuTick, h.turn]
  obtain ⟨s, rfl⟩ := h.exists_surround
  cases ht : m₁.turn
  case poll         => simp [turn_eq_poll_iff, hw] at ht
  case rest | stuck => rfl
  case run w i      =>
    obtain ⟨s', he⟩ := execute_alike (hu w i ht) (m₁.start i) s
    have hs : (m₁.surround s).start i = (m₁.start i).surround s := rfl
    simp only [runInstruction, hs, he]
    exact finish_alike s' _

theorem handle_alike (hw : m₁.keypad.wait = none) (he : e = .cpuTick → m₁.Unsensing)
    (h : Alike m₁ m₂) : Alike (m₁.handle e).value (m₂.handle e).value := by
  cases e
  case cpuTick => exact cpuTick_alike hw (he rfl) h
  all_goals
    obtain ⟨s, rfl⟩ := h.exists_surround
    rfl

theorem alike_handle_of_isAside (m : Machine) (he : e.isAside = true) :
    Alike m (m.handle e).value := by
  cases e
  case timerTick | key => rfl
  all_goals cases he

-- A program that looks at no key does not wait for one either.
theorem handle_preserves_no_wait (hw : m.keypad.wait = none) (he : e = .cpuTick → m.Unsensing) :
    (m.handle e).value.keypad.wait = none := by
  cases h : (m.handle e).value.keypad.wait
  case none   => rfl
  case some x =>
    have ⟨hc, w, ht⟩ := handle_begins_wait (by simp [hw]) h
    cases he hc w _ ht

-- Two runs that differ only in what happens aside go the same way, up to the surroundings.
theorem alike_after (ha : Event.Aligned es₁ es₂) (hw : m₁.keypad.wait = none)
    (h : Alike m₁ m₂) (hs : m₁.Stretch Unsensing es₁) :
    m₂.Stretch Unsensing es₂ ∧ Alike (m₁.after es₁) (m₂.after es₂) := by
  induction ha generalizing m₁ m₂
  case nil => exact ⟨.nil, h⟩
  case left ha _ ih =>
    cases hs with | cons stays ticks rest =>
    have h' := (alike_handle_of_isAside m₁ ha).symm.trans h
    exact ih (handle_preserves_no_wait hw ticks) h' rest
  case right f _ _ ha _ ih =>
    have h' := h.trans <| alike_handle_of_isAside m₂ ha
    have ⟨hs, ht⟩ := ih hw h' hs
    refine ⟨.cons ?_ (fun hf => ?_) hs, ht⟩
    · cases f
      case timerTick | key => rfl
      all_goals cases ha
    · cases hf
      cases ha
  case both ih =>
    cases hs with | cons stays ticks rest =>
    have ⟨hs, ht⟩ := ih (handle_preserves_no_wait hw ticks) (handle_alike hw ticks h) rest
    exact ⟨.cons stays (fun he => h.unsensing <| ticks he) hs, ht⟩

-- Two runs with as many ticks of the processor, in which the countdowns tick and the keys move at
-- quite different times: where the program of the one looks at no countdown and no key, neither
-- does that of the other, and nothing but the surroundings tells the machines apart in the end.
theorem runs_agree_of_unsensing (hw : m.keypad.wait = none) (h₁ : ∀ e ∈ es₁, e.IsPlain)
    (h₂ : ∀ e ∈ es₂, e.IsPlain) (hc : es₁.count .cpuTick = es₂.count .cpuTick)
    (hs : m.Stretch Unsensing es₁) :
    m.Stretch Unsensing es₂ ∧ m.after es₂ = (m.after es₁).surround (m.after es₂).surroundings :=
  alike_after (.of_count h₁ h₂ hc) hw rfl hs

-- A program that sets the delay countdown again and again.
theorem runs_agree_of_set_delay : ∃ m : Machine, ∃ es₁ es₂ : List Event,
    m.Stretch Unsensing es₁ ∧ m.Stretch Unsensing es₂ ∧
    (m.after es₁).cpu.delay ≠ (m.after es₂).cpu.delay ∧
    m.after es₂ = (m.after es₁).surround (m.after es₂).surroundings := by
  let m := (fresh .mute .modern .unlimited ⟨fun _ => 0, 0⟩).load
    #[0x60, 0x09, 0xF0, 0x15, 0x12, 0x02] |>.value
  let es₁ : List Event := [.cpuTick, .timerTick, .cpuTick, .cpuTick]
  let es₂ : List Event := [.key 3 true, .cpuTick, .cpuTick, .timerTick, .key 3 false, .cpuTick]
  have h₁ : ∀ e ∈ es₁, e.IsPlain := by simp [es₁, Event.IsPlain, Event.isAside]
  have h₂ : ∀ e ∈ es₂, e.IsPlain := by simp [es₂, Event.IsPlain, Event.isAside]
  have hs : m.Stretch Unsensing es₁ := by
    have unsensing {m : Machine} {w : Word} {i : Instruction} (hi : i.senses = false)
        (ht : m.turn = .run w i) : m.Unsensing := by
      intro w' i' h
      cases ht.symm.trans h
      exact hi
    refine .cons rfl (fun _ => ?_) <| .cons rfl (fun h => nomatch h) <|
      .cons rfl (fun _ => ?_) <| .cons rfl (fun _ => ?_) .nil
    · exact unsensing (w := 0x6009) (i := .setByte 0 9) rfl (by decide +kernel)
    · exact unsensing (w := 0xF015) (i := .setDelay 0) rfl (by decide +kernel)
    · exact unsensing (w := 0x1202) (i := .jump 0x202) rfl (by decide +kernel)
  have ⟨hs', ha⟩ := runs_agree_of_unsensing (m := m) (by decide +kernel) h₁ h₂ (by decide) hs
  exact ⟨m, es₁, es₂, hs, hs', by decide +kernel, ha⟩

end Machine
end Chip8
