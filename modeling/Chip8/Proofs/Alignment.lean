import Chip8.Proofs.Range

namespace Chip8

theorem dvd_toNat_add {a b : UInt16} (ha : 2 ∣ a.toNat) (hb : 2 ∣ b.toNat) : 2 ∣ (a + b).toNat := by
  rw [UInt16.toNat_add]
  omega

namespace Machine

variable {m m' : Machine} {e : Event} {es : List Event} {i : Instruction}

structure Aligned (m : Machine) : Prop where
  pc      : 2 ∣ m.cpu.pc.toNat
  returns : ∀ a ∈ m.returns, 2 ∣ a.toNat

-- An event completes a jump or a call to an odd address.
inductive Strays (m : Machine) : Event → Prop
  | cpuTick {i : Instruction} {a : Nat} (completes : m.Completes i)
    (target : m.jumpTarget? i = some a) (odd : ¬2 ∣ a) : Strays m .cpuTick

instance decidableStrays (m : Machine) : (e : Event) → Decidable (m.Strays e)
  | .cpuTick =>
    match h : m.turn with
    | .run w i =>
      decidable_of_iff
        (((m.start i).execute i).fault = none ∧ ∃ a ∈ m.jumpTarget? i, ¬2 ∣ a) {
          mp  := fun ⟨hd, _, ha, ho⟩ => .cpuTick ⟨w, h, hd⟩ ha ho
          mpr := fun (.cpuTick ⟨_, ht, hd⟩ ha ho) => by
            cases h.symm.trans ht
            exact ⟨hd, _, ha, ho⟩ }
    | .poll | .rest | .stuck _ => .isFalse fun (.cpuTick ⟨_, ht, _⟩ _ _) => nomatch h.symm.trans ht
  | .load _ | .reset | .timerTick | .key .. | .togglePause | .allowStep | .setDialect _
  | .takeFrame | .release => .isFalse nofun

-- A jump leads to the address that it names.
theorem Completes.toNat_pc {a : Nat} (h : m.Completes i) (ha : m.jumpTarget? i = some a) :
    m.cpuTick.value.cpu.pc.toNat = a := by
  have hs := h.successor?_eq
  cases i
  case jump nnn | call nnn =>
    cases ha
    rw [← Option.some.inj hs, toNat_ofNat_address]
  case jumpOffset nnn =>
    cases ha
    rw [← Option.some.inj hs, toNat_address_add_byte]
  all_goals cases ha

namespace Aligned

theorem of_beginning (hp : m.cpu.pc = 0x200) (hr : m.returns = []) : m.Aligned where
  pc      := by rw [hp]; decide
  returns := by rw [hr]; exact nofun

theorem of_isNew (h : m.IsNew) : m.Aligned :=
  of_beginning (congrArg (·.cpu.pc) h) (congrArg Machine.returns h)

theorem of_restarts (he : e.restarts = true) : (m.handle e).value.Aligned := by
  cases e
  case load | reset => exact of_beginning rfl rfl
  all_goals cases he

-- As far as the calls under way stay as they are.
theorem of_returns (hm : m.Aligned) (hp : 2 ∣ m'.cpu.pc.toNat) (hr : m'.returns = m.returns) :
    m'.Aligned where
  pc      := hp
  returns := hr ▸ hm.returns

theorem add_two (hm : m.Aligned) : 2 ∣ (m.cpu.pc + 2).toNat :=
  dvd_toNat_add hm.pc (by decide)

theorem completes (hm : m.Aligned) (h : m.Completes i)
    (hj : ∀ a, m.jumpTarget? i = some a → 2 ∣ a) : m.cpuTick.value.Aligned where
  pc           := by
    rcases successor?_cases h.successor?_eq with ht | hr | hp | hp
    · exact hj _ ht
    · exact hm.returns _ hr
    · exact hp ▸ hm.add_two
    · exact hp ▸ dvd_toNat_add hm.pc (by decide)
  returns a ha := by
    rcases h.returns_mem ha with ha | rfl
    · exact hm.returns a ha
    · exact hm.add_two

theorem tick (hm : m.Aligned) (hs : ¬m.Strays .cpuTick) : Tick m m' → m'.Aligned
  | .wait .. | .resolve .. | .rest _ | .stuck _ => hm.of_returns hm.pc rfl
  | .complete ht hd                             => by
    have h : m.Completes _ := ⟨_, ht, hd⟩
    refine h.cpuTick_value ▸ hm.completes h fun a ha => ?_
    exact Decidable.by_contra fun ho => hs <| .cpuTick h ha ho
  | .fail _ hf                                  => by
    -- The program counter is past the instruction, and the calls under way are the same.
    have hc := (cutShort_execute hf).rest
    have hp := congrArg (·.cpu.pc) hc
    exact hm.of_returns (hp ▸ hm.add_two) (congrArg (·.cpu.stack.returns) hc)

end Aligned

-- A jump or a call to an odd address is the one way out.
theorem Aligned.handle_iff (hm : m.Aligned) : (m.handle e).value.Aligned ↔ ¬m.Strays e := by
  constructor
  case mp =>
    rintro h (⟨hi, ha, ho⟩)
    exact ho <| hi.toNat_pc ha ▸ h.pc
  case mpr =>
    intro hs
    cases e
    case load | reset => exact .of_restarts rfl
    case cpuTick      => exact hm.tick hs m.tick
    all_goals exact hm.of_returns hm.pc rfl

theorem Aligned.upTo_iff (hm : m.Aligned) (es : List Event) :
    (∀ n, (m.upTo es n).Aligned) ↔ m.Without Strays es := by
  induction es generalizing m
  case nil => exact ⟨fun _ => .nil, fun _ n => by simpa [upTo, after_nil] using hm⟩
  case cons e es ih =>
    rw [without_cons_iff, ← hm.handle_iff]
    constructor
    case mp  => exact fun h => ⟨h 1, (ih <| h 1).mp fun n => h (n + 1)⟩
    case mpr =>
      rintro ⟨he, hes⟩ (_ | n)
      · exact hm
      · exact (ih he).mpr hes n

-- The places of a run that come after its beginning `fs`.
theorem upTo_append_add (m : Machine) (fs gs : List Event) (n : Nat) :
    m.upTo (fs ++ gs) (fs.length + n) = (m.after fs).upTo gs n := by
  rw [upTo, List.take_length_add_append, after_append]
  rfl

-- A run of a new machine stays aligned exactly if no jump and no call in it goes to an odd address,
-- and from each load or reset on, whatever has been before, it does so exactly if none goes there
-- any more.
theorem aligned_iff_without_odd_jump {start : Machine} (hs : start.IsNew) (es : List Event) :
    ((∀ n, (start.upTo es n).Aligned) ↔ start.Without Strays es) ∧
    ∀ fs e gs, es = fs ++ e :: gs → e.restarts = true →
      ((∀ n, (start.upTo es (fs.length + 1 + n)).Aligned) ↔
        (start.after (fs ++ [e])).Without Strays gs) := by
  refine ⟨(Aligned.of_isNew hs).upTo_iff es, fun fs e gs hes he => ?restart⟩
  case restart =>
    have hm : (start.after (fs ++ [e])).Aligned := by
      rw [after_concat]
      exact .of_restarts he
    have hl : fs.length + 1 = (fs ++ [e]).length := by simp
    have hes : es = (fs ++ [e]) ++ gs := by rw [hes, List.append_assoc]; rfl
    rw [← hm.upTo_iff gs]
    simp only [hl, hes, upTo_append_add]

-- A jump to `0x203`, and after that another program with an offset that makes an odd address even,
-- a call and a return.
theorem aligned_iff_without_odd_jump_of_second_load : ∃ (start : Machine) (es : List Event),
    start.IsNew ∧ (¬∀ n, (start.upTo es n).Aligned) ∧ ∀ n, (start.upTo es (3 + n)).Aligned := by
  let start := fresh .mute .modern .unlimited ⟨fun _ => 0, 0⟩
  let es : List Event := [.load #[0x12, 0x03], .cpuTick,
    .load #[0x60, 0x01, 0xB2, 0x05, 0x00, 0x00, 0x22, 0x0A, 0x00, 0x00, 0x00, 0xEE],
    .cpuTick, .cpuTick, .key 3 true, .cpuTick, .timerTick, .cpuTick]
  have hs : start.IsNew := rfl
  have ⟨hw, hr⟩ := aligned_iff_without_odd_jump hs es
  have hn : ¬start.Without Strays es := by decide +kernel
  have hg : (start.after (es.take 3)).Without Strays (es.drop 3) := by decide +kernel
  exact ⟨start, es, hs, mt hw.mp hn, (hr (es.take 2) _ (es.drop 3) rfl rfl).mpr hg⟩

-- So not every program stays aligned: a jump to an odd address leads there.
theorem odd_jump_misaligns :
    ¬∀ (start : Machine) (program : Array UInt8) (ticks : Nat), start.IsNew →
      (start.after (.load program :: List.replicate ticks .cpuTick)).Aligned := by
  intro h
  have hm := h (fresh .mute .modern .unlimited ⟨fun _ => 0, 0⟩) #[0x12, 0x01] 1 rfl
  exact absurd hm.pc <| by decide +kernel

end Machine
end Chip8
