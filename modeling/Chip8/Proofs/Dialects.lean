import Chip8.Proofs.Halt
import Chip8.Proofs.Refit

namespace Chip8

namespace Event

def setsDialect : Event → Bool
  | setDialect _ => true
  | _            => false

-- The events without those that set the dialect.
def others (es : List Event) : List Event :=
  es.filter (!·.setsDialect)

theorem others_cons_of_setsDialect {e : Event} (h : e.setsDialect = true) (es : List Event) :
    others (e :: es) = others es := by
  simp [others, h]

theorem others_cons_of_not_setsDialect {e : Event} (h : e.setsDialect = false) (es : List Event) :
    others (e :: es) = e :: others es := by
  simp [others, h]

theorem setsDialect_eq_true_iff {e : Event} : e.setsDialect = true ↔ ∃ d, e = .setDialect d := by
  cases e <;> simp [setsDialect]

end Event

namespace Machine

variable {m m₁ m₂ : Machine} {i : Instruction} {e : Event} {es es₁ es₂ : List Event} {d : Dialect}

-- A tick of the processor would complete no instruction on which the dialects disagree.
def Avoids (m : Machine) : Prop :=
  ∀ i, m.Completes i → i.isAmbiguous = false

-- No tick in a run completes such an instruction.
def AvoidsAlong (m : Machine) (es : List Event) : Prop :=
  ∀ n, es[n]? = some .cpuTick → (m.upTo es n).Avoids

theorem avoidsAlong_cons :
    m.AvoidsAlong (e :: es) ↔ (e = .cpuTick → m.Avoids) ∧ (m.handle e).value.AvoidsAlong es := by
  constructor
  case mp  => exact fun h => ⟨fun he => h 0 <| congrArg some he, fun n => h (n + 1)⟩
  case mpr =>
    rintro ⟨he, hes⟩ (_ | n) hn
    · exact he <| Option.some.inj hn
    · exact hes n hn

instance (m : Machine) : Decidable m.Avoids :=
  match h : m.turn with
  | .run w i =>
    decidable_of_iff (((m.start i).execute i).fault = none → i.isAmbiguous = false) {
      mp  := fun hi j ⟨_, ht, hf⟩ => by cases h.symm.trans ht; exact hi hf
      mpr := fun ha hf => ha i ⟨w, h, hf⟩ }
  | .poll | .rest | .stuck _ => isTrue fun _ ⟨_, ht, _⟩ => by cases h.symm.trans ht

instance decidableAvoidsAlong (m : Machine) : (es : List Event) → Decidable (m.AvoidsAlong es)
  | []      => isTrue nofun
  | e :: es =>
    have := decidableAvoidsAlong (m.handle e).value es
    decidable_of_iff _ avoidsAlong_cons.symm

def inDialect (m : Machine) (d : Dialect) : Machine :=
  { m with dialect := d }

-- In which dialect it is run does not decide whether an instruction faults.
theorem completes_inDialect : (m.inDialect d).Completes i ↔ m.Completes i := by
  have ht : (m.inDialect d).turn = m.turn := rfl
  have hf : (((m.inDialect d).start i).execute i).fault = ((m.start i).execute i).fault := by
    rw [execute_fault, execute_fault]
    cases i <;> rfl
  simp only [Completes, ht, hf]

theorem avoids_inDialect : (m.inDialect d).Avoids ↔ m.Avoids := by
  simp only [Avoids, completes_inDialect]

theorem cpuTick_inDialect (h : m.Avoids) (d : Dialect) :
    (m.inDialect d).cpuTick = m.cpuTick.map (·.inDialect d) := by
  have hd (i) (hi : m.Completes i) (ha : i.isAmbiguous = true) : d = m.dialect := by
    cases (h i hi).symm.trans ha
  have hs : m.cpuTick.value.refit d m.memory.staged = m.cpuTick.value.inDialect d := by
    rw [← m.tick.preserves_staged]
    rfl
  calc (m.inDialect d).cpuTick
    _ = m.cpuTick.map (·.refit d m.memory.staged) := cpuTick_refit m.memory.staged hd
    _ = m.cpuTick.map (·.inDialect d)             := Reported.ext hs rfl

theorem handle_inDialect (hs : e.setsDialect = false) (h : e = .cpuTick → m.Avoids) (d : Dialect) :
    (m.inDialect d).handle e = (m.handle e).map (·.inDialect d) := by
  cases e
  case cpuTick    => exact cpuTick_inDialect (h rfl) d
  case setDialect => cases hs
  all_goals rfl

theorem avoidsAlong_others_iff (m : Machine) (d : Dialect) (es : List Event) :
    (m.inDialect d).AvoidsAlong (Event.others es) ↔ m.AvoidsAlong es := by
  induction es generalizing m
  case nil          => simp [AvoidsAlong, Event.others]
  case cons e es ih =>
    rw [avoidsAlong_cons, ← ih]
    cases hs : e.setsDialect
    case true  =>
      obtain ⟨d', rfl⟩ := Event.setsDialect_eq_true_iff.mp hs
      rw [Event.others_cons_of_setsDialect hs]
      exact (and_iff_right nofun).symm
    case false =>
      rw [Event.others_cons_of_not_setsDialect hs, avoidsAlong_cons, avoids_inDialect]
      refine and_congr_right fun h => ?_
      rw [handle_inDialect hs h]
      rfl

-- A run takes the same course in whatever dialect it begins, and if the dialect is never set.
theorem run_others (h : m.AvoidsAlong es) (d : Dialect) :
    ∃ d', m.run es = ((m.inDialect d).run (Event.others es)).map (·.inDialect d') := by
  induction es generalizing m
  case nil          => exact ⟨m.dialect, rfl⟩
  case cons e es ih =>
    have ⟨he, hes⟩ := avoidsAlong_cons.mp h
    have ⟨d', hd⟩ := ih hes
    refine ⟨d', ?_⟩
    rw [run, Reported.andThen, hd]
    cases hs : e.setsDialect
    case true  =>
      obtain ⟨d', rfl⟩ := Event.setsDialect_eq_true_iff.mp hs
      rw [Event.others_cons_of_setsDialect hs]
      rfl
    case false =>
      rw [Event.others_cons_of_not_setsDialect hs, run, handle_inDialect hs he]
      rfl

-- Two machines that differ in their dialects, and are then given the same events but for the
-- dialects, which are set in the one as they are not in the other, do and report the same and end
-- as the same machine but for the dialect, as long as the first completes no instruction on which
-- the dialects disagree. Then the second does not complete one either.
theorem runs_agree_across_dialects (hm : m₂ = { m₁ with dialect := m₂.dialect })
    (he : Event.others es₁ = Event.others es₂) (h : m₁.AvoidsAlong es₁) :
    m₂.after es₂ = { m₁.after es₁ with dialect := (m₂.after es₂).dialect } ∧
    (m₂.run es₂).reports = (m₁.run es₁).reports ∧
    m₂.AvoidsAlong es₂ := by
  have h₂ : m₂.AvoidsAlong es₂ := by
    rw [← avoidsAlong_others_iff m₂ m₂.dialect, ← he]
    have hi : m₂.inDialect m₂.dialect = m₁.inDialect m₂.dialect := hm
    rw [hi, avoidsAlong_others_iff]
    exact h
  have ⟨d₁, hr₁⟩ := run_others h m₂.dialect
  have ⟨d₂, hr₂⟩ := run_others h₂ m₂.dialect
  have hi : m₂.inDialect m₂.dialect = m₁.inDialect m₂.dialect := hm
  rw [after, after, hr₁, hr₂, he, hi]
  exact ⟨rfl, rfl, h₂⟩

-- A shift of a register by itself, and a store that does not fit, in the one dialect and in the
-- other.
theorem runs_agree_across_dialects_of_shift : ∃ (m₁ m₂ : Machine) (es₁ es₂ : List Event),
    m₂ = { m₁ with dialect := m₂.dialect } ∧ m₁.dialect ≠ m₂.dialect ∧
    Event.others es₁ = Event.others es₂ ∧ m₁.AvoidsAlong es₁ ∧
    (let m := m₁.after es₁
     m.reg 0 = 1 ∧ m.reg 0xF = 1 ∧ m.cpu.fault = some (.outOfBounds 0x1000) ∧
      m.dialect ≠ (m₂.after es₂).dialect) ∧
    m₂.after es₂ = { m₁.after es₁ with dialect := (m₂.after es₂).dialect } ∧
    (m₂.run es₂).reports = (m₁.run es₁).reports := by
  let program : Array UInt8 := #[0x60, 0x03, 0x80, 0x06, 0xAF, 0xFF, 0xF1, 0x55]
  let m₁ := fresh .mute .modern .unlimited ⟨fun _ => 0, 0⟩
  let m₂ := fresh .mute .compatible .unlimited ⟨fun _ => 0, 0⟩
  let es₁ : List Event := [.load program, .cpuTick, .cpuTick, .cpuTick, .setDialect .compatible,
    .key 3 true, .cpuTick]
  let es₂ : List Event := [.load program, .cpuTick, .setDialect .modern, .cpuTick, .cpuTick,
    .setDialect .compatible, .key 3 true, .setDialect .modern, .cpuTick]
  have hm : m₂ = { m₁ with dialect := m₂.dialect } := rfl
  have he : Event.others es₁ = Event.others es₂ := by decide
  have h : m₁.AvoidsAlong es₁ := by decide +kernel
  have ⟨ha, hr, _⟩ := runs_agree_across_dialects hm he h
  exact ⟨m₁, m₂, es₁, es₂, hm, by decide, he, h, by decide +kernel, ha, hr⟩

end Machine
end Chip8
