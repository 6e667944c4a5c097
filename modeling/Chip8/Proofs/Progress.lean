import Chip8.Proofs.Run
import Chip8.Proofs.Tick

namespace Chip8

theorem toNat_succ_of_lt {a b : UInt64} (h : a < b) : (a + 1).toNat = a.toNat + 1 := by
  have hb := b.toNat_lt
  have hab := UInt64.lt_iff_toNat_lt.mp h
  rw [UInt64.toNat_add]
  exact Nat.mod_eq_of_lt (by simp; omega)

namespace Limiter

variable {l : Limiter}

theorem allowStep_of_not_paused (h : l.paused = false) : l.allowStep = l := by
  simp [allowStep, h]

theorem paused_allowStep (l : Limiter) : l.allowStep.paused = l.paused := by
  unfold allowStep
  split <;> rfl

theorem ceiling_allowStep (l : Limiter) : l.allowStep.ceiling = l.ceiling := by
  unfold allowStep
  split <;> rfl

-- The bound counts the steps, until it cannot grow any more.
theorem toNat_bound_allowStep (hp : l.paused = true) :
    l.allowStep.bound.toNat = min (l.bound.toNat + 1) 0xFFFFFFFFFFFFFFFF := by
  by_cases hb : l.bound = 0xFFFFFFFFFFFFFFFF
  case pos => simp [allowStep, hb]
  case neg =>
    have hlt : l.bound.toNat < 0xFFFFFFFFFFFFFFFF := by
      have hn : l.bound.toNat ≠ 0xFFFFFFFFFFFFFFFF := fun h => hb <| UInt64.toNat_inj.mp h
      have := l.bound.toNat_lt
      omega
    have hs := toNat_succ_of_lt (b := 0xFFFFFFFFFFFFFFFF) <| UInt64.lt_iff_toNat_lt.mpr hlt
    simp only [allowStep, hp, hb, ne_eq, not_false_eq_true, and_self, if_true, hs]
    omega

end Limiter

namespace Machine

variable {m m' : Machine} {e : Event} {i : Instruction}

theorem pc_lt_of_run {w : Word} (h : m.turn = .run w i) : m.cpu.pc.toNat + 1 < 0x1000 :=
  have ⟨_, _, _, hf⟩ := turn_eq_run_iff.mp h
  have ⟨⟨hp, _⟩, _⟩ := fetch_eq_ok_iff.mp hf
  hp

-- A tick of the processor would complete this instruction.
def Completes (m : Machine) (i : Instruction) : Prop :=
  ∃ w, m.turn = .run w i ∧ ((m.start i).execute i).fault = none

instance decidableCompletes (m : Machine) (i : Instruction) : Decidable (m.Completes i) :=
  match ht : m.turn with
  | .run w j =>
    decidable_of_iff (j = i ∧ ((m.start i).execute i).fault = none) <| by simp [Completes, ht]
  | .poll | .rest | .stuck _ => .isFalse fun ⟨_, h, _⟩ => nomatch ht.symm.trans h

-- Whether a tick of the processor would complete an instruction.
def completes (m : Machine) : Bool :=
  match m.turn with
  | .run _ i => ((m.start i).execute i).fault.isNone
  | _        => false

theorem completes_iff : m.completes = true ↔ ∃ i, m.Completes i := by
  unfold completes Completes
  cases m.turn <;> simp

namespace Completes

theorem cpuTick_value : m.Completes i → m.cpuTick.value = ((m.start i).execute i).machine.complete
  | ⟨_, ht, hd⟩ => by simp only [cpuTick, ht, runInstruction, finish, hd]

theorem fault_eq_none : m.Completes i → ((m.start i).execute i).fault = none
  | ⟨_, _, hd⟩ => hd

theorem lt_bound : m.Completes i → m.cpu.cycles < m.limiter.bound
  | ⟨_, ht, _⟩ => by
    have ⟨_, _, hl, _⟩ := turn_eq_run_iff.mp ht
    simpa [Limiter.allows] using hl

theorem pc_lt : m.Completes i → m.cpu.pc.toNat + 1 < 0x1000
  | ⟨_, ht, _⟩ => pc_lt_of_run ht

end Completes

theorem lt_bound_of_completes (h : m.completes = true) : m.cpu.cycles < m.limiter.bound :=
  have ⟨_, hi⟩ := completes_iff.mp h
  hi.lt_bound

namespace Tick

theorem preserves_limiter : Tick m m' → m'.limiter = m.limiter
  | wait .. | resolve .. | rest _ | stuck _ => rfl
  | complete .. | fail ..                   => execute_preserves_limiter ..

theorem toNat_cycles (h : Tick m m') :
    m'.cpu.cycles.toNat = m.cpu.cycles.toNat + m.completes.toNat := by
  cases h
  case wait ht _    => simp [completes, ht]
  case resolve hx _ =>
    have ht : m.turn = .poll := turn_eq_poll_iff.mpr <| Option.isSome_of_eq_some hx
    simp [completes, ht, setReg]
  case rest ht      => simp [completes, ht]
  case stuck ht     => simp [completes, ht, Cpu.halt]
  case complete w i ht hd =>
    have hc : m.Completes i := ⟨w, ht, hd⟩
    calc (((m.start i).execute i).machine.cpu.cycles + 1).toNat
      _ = (m.cpu.cycles + 1).toNat :=
        congrArg (fun n => (n + 1).toNat) <| (m.start i).execute_preserves_cycles i
      _ = m.cpu.cycles.toNat + 1 := toNat_succ_of_lt hc.lt_bound
      _ = m.cpu.cycles.toNat + m.completes.toNat := by rw [completes_iff.mpr ⟨i, hc⟩]; rfl
  case fail i _ ht hf =>
    have hc : m.completes = false := by simp [completes, ht, hf]
    rw [hc]
    exact congrArg UInt64.toNat <| (m.start i).execute_preserves_cycles i

end Tick

-- Whether an event completes an instruction.
def completing (m : Machine) : Event → Bool
  | .cpuTick => m.completes
  | _        => false

theorem toNat_cycles_handle (he : e.restarts = false) :
    (m.handle e).value.cpu.cycles.toNat = m.cpu.cycles.toNat + (m.completing e).toNat := by
  cases e
  case load | reset => cases he
  case cpuTick      => exact m.tick.toNat_cycles
  all_goals rfl

theorem lt_bound_of_completing (h : m.completing e = true) : m.cpu.cycles < m.limiter.bound := by
  cases e
  case cpuTick => exact lt_bound_of_completes h
  all_goals cases h

theorem toNat_cycles_handle_le (he : e.restarts = false) :
    (m.handle e).value.cpu.cycles.toNat ≤ max m.cpu.cycles.toNat m.limiter.bound.toNat := by
  rw [toNat_cycles_handle he]
  cases hc : m.completing e
  case false => exact Nat.le_max_left ..
  case true  =>
    have hlt := UInt64.lt_iff_toNat_lt.mp <| lt_bound_of_completing hc
    exact Nat.le_trans hlt <| Nat.le_max_right ..

theorem cycles_handle_of_restarts (he : e.restarts = true) : (m.handle e).value.cpu.cycles = 0 := by
  cases e
  case load | reset => rfl
  all_goals cases he

theorem limiter_handle (m : Machine) (e : Event) :
    (m.handle e).value.limiter = match e with
      | .load _ | .reset => m.limiter.restart
      | .togglePause     => m.limiter.toggle m.cpu.cycles
      | .allowStep       => m.limiter.allowStep
      | _                => m.limiter := by
  cases e
  case cpuTick => exact m.tick.preserves_limiter
  all_goals rfl

-- A count that is kept along a run, from `n` on: of the events that `counts` picks, and from zero
-- again after each one that `renews` picks.
def tally (m : Machine) (renews : Event → Bool) (counts : Machine → Event → Bool) (n : Nat) :
    List Event → Nat
  | []      => n
  | e :: es =>
    let n' := if renews e then 0 else n + (counts m e).toNat
    (m.handle e).value.tally renews counts n' es

variable {renews : Event → Bool} {counts counts₁ counts₂ : Machine → Event → Bool}

theorem tally_append (m : Machine) (n : Nat) (es fs : List Event) :
    m.tally renews counts n (es ++ fs) =
      (m.after es).tally renews counts (m.tally renews counts n es) fs := by
  induction es generalizing m n
  case nil          => rfl
  case cons e es ih => exact ih ..

-- What every event preserves of a machine and two counts, a run preserves of them.
theorem tally_preserves {P : Machine → Nat → Nat → Prop}
    (renew : ∀ {m n₁ n₂ e}, renews e = true → P m n₁ n₂ → P (m.handle e).value 0 0)
    (step : ∀ {m n₁ n₂ e}, renews e = false → P m n₁ n₂ →
      P (m.handle e).value (n₁ + (counts₁ m e).toNat) (n₂ + (counts₂ m e).toNat))
    {m : Machine} {n₁ n₂ : Nat} (es : List Event) (h : P m n₁ n₂) :
    P (m.after es) (m.tally renews counts₁ n₁ es) (m.tally renews counts₂ n₂ es) := by
  induction es generalizing m n₁ n₂
  case nil          => exact h
  case cons e es ih =>
    simp only [tally, after_cons]
    apply ih
    split
    case isTrue he  => exact renew he h
    case isFalse he => exact step (eq_false_of_ne_true he) h

end Machine
end Chip8
