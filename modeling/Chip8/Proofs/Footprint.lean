import Chip8.Proofs.Speaker
import Chip8.Proofs.Subroutine

namespace Chip8

-- A part of a machine that some instruction writes.
inductive Target
  | byte (a : Address)
  | register (r : Register)
  | screen
  | stack
  | delay
  | sound
  | index
  | noise
  | wait
  deriving DecidableEq

-- The part is the same in both machines.
def Target.Agrees (m m' : Machine) : Target → Prop
  | byte a     => m'.memory.bytes.get a = m.memory.bytes.get a
  | register r => m'.reg r = m.reg r
  | screen     => m'.screen = m.screen
  | stack      => m'.cpu.stack = m.cpu.stack
  | delay      => m'.cpu.delay = m.cpu.delay
  | sound      => m'.cpu.sound = m.cpu.sound
  | index      => m'.cpu.index = m.cpu.index
  | noise      => m'.noise = m.noise
  | wait       => m'.keypad.wait = m.keypad.wait

-- The parts that an instruction may write in a dialect, where `I` has a given value.
inductive Instruction.Writes (d : Dialect) (index : Nat) : Instruction → Target → Prop
  | clear : Writes d index .clear .screen
  | draw {x y n} : Writes d index (.draw x y n) .screen
  | hit {x y n} : Writes d index (.draw x y n) (.register .flag)
  | call {nnn} : Writes d index (.call nnn) .stack
  | ret : Writes d index .ret .stack
  | setByte {x kk} : Writes d index (.setByte x kk) (.register x)
  | addByte {x kk} : Writes d index (.addByte x kk) (.register x)
  | result {op x y} : Writes d index (.alu op x y) (.register x)
  | flag {op x y} (raises : op ∈ [.add, .sub, .subn, .shr, .shl]) :
    Writes d index (.alu op x y) (.register .flag)
  | logicFlag {op x y} (logic : op ∈ [.or, .and, .xor]) (old : d = .compatible) :
    Writes d index (.alu op x y) (.register .flag)
  | random {x kk} : Writes d index (.random x kk) (.register x)
  | noise {x kk} : Writes d index (.random x kk) .noise
  | readDelay {x} : Writes d index (.readDelay x) (.register x)
  | setDelay {x} : Writes d index (.setDelay x) .delay
  | setSound {x} : Writes d index (.setSound x) .sound
  | awaitKey {x} : Writes d index (.awaitKey x) .wait
  | setIndex {nnn} : Writes d index (.setIndex nnn) .index
  | addIndex {x} : Writes d index (.addIndex x) .index
  | pointGlyph {x} : Writes d index (.pointGlyph x) .index
  | digit {x} {a : Address} (start : index ≤ a) (stop : a ≤ index + 2) :
    Writes d index (.storeDecimal x) (.byte a)
  | store {x : Register} {a : Address} (start : index ≤ a) (stop : a ≤ index + x) :
    Writes d index (.store x) (.byte a)
  | load {x r} (within : r ≤ x) : Writes d index (.load x) (.register r)
  | pastStored {x} (old : d = .compatible) : Writes d index (.store x) .index
  | pastLoaded {x} (old : d = .compatible) : Writes d index (.load x) .index

namespace Machine

def Writes (m : Machine) (i : Instruction) (t : Target) : Prop :=
  i.Writes m.dialect m.cpu.index.toNat t

variable {m m' : Machine} {i : Instruction} {r : Register} {a : Address} {t : Target}

theorem execute_preserves_screen (hc : i ≠ .clear) (hd : ∀ x y n, i ≠ .draw x y n) :
    (m.execute i).machine.screen = m.screen := by
  cases i
  case clear      => exact absurd rfl hc
  case draw x y n => exact absurd rfl (hd x y n)
  case ret | call =>
    simp only [execute]
    split <;> rfl
  case skipEqByte | skipNeByte | skipEq | skipNe | skipDown | skipUp =>
    exact skipIf_preserves screen (fun _ _ => rfl) ..
  case alu          => exact setResult_preserves screen (fun _ _ => rfl) ..
  case storeDecimal => exact storeBytes_preserves screen (fun _ _ => rfl) _ _ fun _ => rfl
  case store        => exact storeBytes_preserves screen (fun _ _ => rfl) _ _ <|
    (pointPast_preserves screen (fun _ _ => rfl) · _)
  case load         => exact loadRegisters_preserves screen (fun _ _ => rfl) (fun _ _ => rfl) ..
  all_goals rfl

theorem execute_preserves_index (h : ¬m.Writes i .index) :
    (m.execute i).machine.cpu.index = m.cpu.index := by
  have modern (hw : m.dialect = .compatible → m.Writes i .index) : m.dialect = .modern := by
    cases hd : m.dialect
    case modern     => rfl
    case compatible => exact absurd (hw hd) h
  cases i
  case setIndex   => exact absurd .setIndex h
  case addIndex   => exact absurd .addIndex h
  case pointGlyph => exact absurd .pointGlyph h
  case ret | call =>
    simp only [execute]
    split <;> rfl
  case skipEqByte | skipNeByte | skipEq | skipNe | skipDown | skipUp =>
    exact skipIf_preserves (·.cpu.index) (fun _ _ => rfl) ..
  case alu          => exact setResult_preserves (·.cpu.index) (fun _ _ => rfl) ..
  case draw         => exact draw_preserves (·.cpu.index) (fun _ _ => rfl) (fun _ _ => rfl) ..
  case storeDecimal => exact storeBytes_preserves (·.cpu.index) (fun _ _ => rfl) _ _ fun _ => rfl
  case store =>
    simp only [execute, storeBytes, pointPast, modern .pastStored]
    split <;> rfl
  case load =>
    simp only [execute, loadRegisters, pointPast, modern .pastLoaded]
    split <;> rfl
  all_goals rfl

theorem setResult_preserves_reg {x : Register} (hx : r ≠ x) :
    {b : UInt8 × Option UInt8} → (b.2 ≠ none → r ≠ .flag) → (m.setResult x b).reg r = m.reg r
  | (_, none), _   => Registers.get_set_of_ne _ hx _
  | (_, some _), h => by
    have hf := h nofun
    exact (Registers.get_set_of_ne _ hf _).trans (Registers.get_set_of_ne _ hx _)

theorem writes_flag_of_eval {op : Alu} {x y : Register} {b c : UInt8}
    (h : (op.eval m.dialect b c).2 ≠ none) : m.Writes (.alu op x y) (.register .flag) := by
  cases op
  case copy           => exact absurd rfl h
  case or | and | xor =>
    cases hd : m.dialect
    case modern     => simp [Alu.eval, hd, Dialect.logicFlag] at h
    case compatible => exact .logicFlag (by decide) hd
  all_goals exact .flag (by decide)

theorem loadRegisters_preserves_reg {x : Register} (h : ¬r ≤ x) :
    (m.loadRegisters x).machine.reg r = m.reg r := by
  have hm : (m.loadRegisters x).machine.cpu.registers =
      m.cpu.registers.overwrite (m.memory.readBlock m.cpu.index.toNat (x + 1)).1 := by
    unfold loadRegisters
    split
    · simp [*]
    · simp only [*]
      exact pointPast_preserves (·.cpu.registers) (fun _ _ => rfl) ..
  rw [reg, hm, Registers.get_overwrite, Memory.getElem?_readBlock,
    if_neg fun hr => h <| Nat.le_of_lt_succ hr]
  rfl

theorem execute_preserves_reg (h : ¬m.Writes i (.register r)) :
    (m.execute i).machine.reg r = m.reg r := by
  have ne {s : Register} (hs : m.Writes i (.register s)) : r ≠ s := fun e => h (e ▸ hs)
  cases i
  case setByte   => exact Registers.get_set_of_ne _ (ne .setByte) _
  case addByte   => exact Registers.get_set_of_ne _ (ne .addByte) _
  case random    => exact Registers.get_set_of_ne _ (ne .random) _
  case readDelay => exact Registers.get_set_of_ne _ (ne .readDelay) _
  case alu       => exact setResult_preserves_reg (ne .result) fun hf => ne <| writes_flag_of_eval hf
  case load      => exact loadRegisters_preserves_reg fun hr => h <| .load hr
  case draw x y n =>
    simp only [execute, Machine.draw]
    split
    · rfl
    · exact Registers.get_set_of_ne _ (ne .hit) _
  case ret | call =>
    simp only [execute]
    split <;> rfl
  case skipEqByte | skipNeByte | skipEq | skipNe | skipDown | skipUp =>
    exact skipIf_preserves (·.reg r) (fun _ _ => rfl) ..
  case storeDecimal => exact storeBytes_preserves (·.reg r) (fun _ _ => rfl) _ _ fun _ => rfl
  case store        => exact storeBytes_preserves (·.reg r) (fun _ _ => rfl) _ _ <|
    (pointPast_preserves (·.reg r) (fun _ _ => rfl) · _)
  all_goals rfl

theorem storeBytes_preserves_byte {bs : List UInt8} {next : Machine → Machine}
    (hn : ∀ m, (next m).memory = m.memory)
    (h : ¬(m.cpu.index.toNat ≤ a ∧ a < m.cpu.index.toNat + bs.length)) :
    (m.storeBytes bs next).machine.memory.bytes.get a = m.memory.bytes.get a := by
  have hm : (m.storeBytes bs next).machine.memory =
      (m.memory.writeBlock m.cpu.index.toNat bs).1 := by
    unfold storeBytes
    split <;> simp [*]
  rw [hm, Memory.writeBlock_preserves_byte h]

theorem execute_preserves_byte (h : ¬m.Writes i (.byte a)) :
    (m.execute i).machine.memory.bytes.get a = m.memory.bytes.get a := by
  let part (m : Machine) : UInt8 := m.memory.bytes.get a
  cases i
  case storeDecimal =>
    exact storeBytes_preserves_byte (fun _ => rfl) fun ⟨hi, hl⟩ =>
      h <| .digit hi <| Nat.le_of_lt_succ hl
  case store x =>
    refine storeBytes_preserves_byte (pointPast_preserves memory (fun _ _ => rfl) · x) ?_
    rw [Registers.length_firstThrough]
    exact fun ⟨hi, hl⟩ => h <| .store hi <| Nat.le_of_lt_succ hl
  case ret | call =>
    simp only [execute]
    split <;> rfl
  case skipEqByte | skipNeByte | skipEq | skipNe | skipDown | skipUp =>
    exact skipIf_preserves part (fun _ _ => rfl) ..
  case alu  => exact setResult_preserves part (fun _ _ => rfl) ..
  case draw => exact draw_preserves part (fun _ _ => rfl) (fun _ _ => rfl) ..
  case load => exact loadRegisters_preserves part (fun _ _ => rfl) (fun _ _ => rfl) ..
  all_goals rfl

theorem agrees_execute (h : ¬m.Writes i t) : t.Agrees m (m.execute i).machine := by
  cases t
  case byte     => exact execute_preserves_byte h
  case register => exact execute_preserves_reg h
  case index    => exact execute_preserves_index h
  case screen   =>
    exact execute_preserves_screen (fun e => h <| e ▸ .clear) fun _ _ _ e => h <| e ▸ .draw
  case stack    => exact execute_preserves_stack (fun e => h <| e ▸ .ret) fun _ e => h <| e ▸ .call
  case delay    => exact execute_preserves_delay fun _ e => h <| e ▸ .setDelay
  case sound    => exact execute_preserves_sound fun _ e => h <| e ▸ .setSound
  case noise    => exact execute_preserves_noise fun _ _ e => h <| e ▸ .noise
  case wait     =>
    exact congrArg Keypad.wait <| execute_preserves_keypad fun _ e => h <| e ▸ .awaitKey

-- Whether the condition of a skip holds.
def skips (m : Machine) : Instruction → Bool
  | .skipEqByte x kk => m.reg x = kk
  | .skipNeByte x kk => m.reg x ≠ kk
  | .skipEq x y      => m.reg x = m.reg y
  | .skipNe x y      => m.reg x ≠ m.reg y
  | .skipDown x      => m.keypad.isDown (Key.ofByte (m.reg x))
  | .skipUp x        => ¬m.keypad.isDown (Key.ofByte (m.reg x))
  | _                => false

-- Where a program goes on after the instruction at the program counter.
def successor? (m : Machine) : Instruction → Option UInt16
  | .jump nnn | .call nnn => some (.ofNat nnn)
  | .jumpOffset nnn       => some (.ofNat nnn + (m.reg 0).toUInt16)
  | .ret                  => m.returns.head?
  | i                     => some (m.cpu.pc + if m.skips i then 4 else 2)

-- The program counter is past a skip before the skip moves it on.
theorem pc_skipIf_start {c : Prop} [Decidable c] (h : m.skips i = true ↔ c) :
    ((m.start i).skipIf c).cpu.pc = m.cpu.pc + if m.skips i then 4 else 2 := by
  have twice : (4 : UInt16) = 2 + 2 := by decide
  simp only [skipIf, h]
  split
  case isTrue  =>
    rw [twice, ← UInt16.add_assoc]
    rfl
  case isFalse => rfl

theorem Completes.successor?_eq (h : m.Completes i) :
    m.successor? i = some m.cpuTick.value.cpu.pc := by
  let n := m.start i
  have hd := h.fault_eq_none
  have next (hp : (n.execute i).machine.cpu.pc = n.cpu.pc) :
      some (m.cpu.pc + 2) = some m.cpuTick.value.cpu.pc := by
    rw [h.cpuTick_value]
    exact congrArg some hp.symm
  have skip {c : Prop} [Decidable c] (hc : m.skips i = true ↔ c)
      (he : (n.execute i).machine = n.skipIf c) :
      some (m.cpu.pc + if m.skips i then 4 else 2) = some m.cpuTick.value.cpu.pc := by
    rw [h.cpuTick_value, ← pc_skipIf_start hc]
    exact congrArg (some ·.cpu.pc) he.symm
  cases i
  case ret => exact congrArg List.head? <| returns_ret h
  case call =>
    rw [h.cpuTick_value]
    simp only [execute] at hd ⊢
    split at hd
    · cases hd
    · simp only [*]
      rfl
  case jump | jumpOffset =>
    rw [h.cpuTick_value]
    rfl
  case skipDown                                           => exact skip Iff.rfl rfl
  case skipEqByte | skipNeByte | skipEq | skipNe | skipUp => exact skip decide_eq_true_iff rfl
  case alu          => exact next <| setResult_preserves (·.cpu.pc) (fun _ _ => rfl) ..
  case draw         => exact next <| draw_preserves (·.cpu.pc) (fun _ _ => rfl) (fun _ _ => rfl) ..
  case storeDecimal =>
    exact next <| storeBytes_preserves (·.cpu.pc) (fun _ _ => rfl) _ _ fun _ => rfl
  case store        => exact next <| storeBytes_preserves (·.cpu.pc) (fun _ _ => rfl) _ _ <|
    (pointPast_preserves (·.cpu.pc) (fun _ _ => rfl) · _)
  case load         =>
    exact next <| loadRegisters_preserves (·.cpu.pc) (fun _ _ => rfl) (fun _ _ => rfl) ..
  all_goals exact next rfl

-- Nothing wraps around within memory.
theorem toNat_add_ofNat {a : UInt16} {n : Nat} (h : a.toNat + n ≤ 0x1000) :
    (a + .ofNat n).toNat = a.toNat + n := by
  rw [UInt16.toNat_add, UInt16.toNat_ofNat']
  omega

theorem index_pointPast (h : m.dialect = .compatible) (x : Register) :
    (m.pointPast x).cpu.index = m.cpu.index + .ofNat x + 1 := by
  simp only [pointPast, h]
  rfl

theorem storeBytes_of_fault_eq_none {bs : List UInt8} {next : Machine → Machine}
    (h : (m.storeBytes bs next).fault = none) :
    let memory := (m.memory.writeBlock m.cpu.index.toNat bs).1
    m.storeBytes bs next = { machine := next { m with memory } } := by
  unfold storeBytes at h ⊢
  split at h
  case h_1    => cases h
  case h_2 he => rw [he]

theorem loadRegisters_of_fault_eq_none {x : Register} (h : (m.loadRegisters x).fault = none) :
    let bs := (m.memory.readBlock m.cpu.index.toNat (x + 1)).1
    m.loadRegisters x = { machine :=
      { m with cpu.registers := m.cpu.registers.overwrite bs }.pointPast x } := by
  unfold loadRegisters at h ⊢
  split at h
  case h_1    => cases h
  case h_2 he => rw [he]

theorem index_storeBytes_pointPast {bs : List UInt8} {x : Register}
    (h : (m.storeBytes bs (·.pointPast x)).fault = none) (hd : m.dialect = .compatible) :
    (m.storeBytes bs (·.pointPast x)).machine.cpu.index = m.cpu.index + .ofNat x + 1 := by
  rw [storeBytes_of_fault_eq_none h]
  exact index_pointPast (by exact hd) x

theorem index_loadRegisters {x : Register} (h : (m.loadRegisters x).fault = none)
    (hd : m.dialect = .compatible) :
    (m.loadRegisters x).machine.cpu.index = m.cpu.index + .ofNat x + 1 := by
  rw [loadRegisters_of_fault_eq_none h]
  exact index_pointPast (by exact hd) x

theorem index_execute_past {x : Register} (hi : i = .store x ∨ i = .load x)
    (h : (m.execute i).fault = none) (hd : m.dialect = .compatible) :
    (m.execute i).machine.cpu.index = m.cpu.index + .ofNat x + 1 := by
  rcases hi with rfl | rfl
  · exact index_storeBytes_pointPast h hd
  · exact index_loadRegisters h hd

-- In the older dialect `I` ends up behind the bytes that have been stored or loaded.
theorem Completes.index_past {x : Register} (h : m.Completes i) (hi : i = .store x ∨ i = .load x)
    (hd : m.dialect = .compatible) :
    m.cpuTick.value.cpu.index.toNat = m.cpu.index.toNat + x + 1 := by
  have hf := h.fault_eq_none
  have hp : m.cpuTick.value.cpu.index = m.cpu.index + .ofNat x + 1 := by
    rw [h.cpuTick_value]
    exact (m.start i).index_execute_past hi hf hd
  have hb : m.cpu.index.toNat + (x + 1) ≤ 0x1000 := by
    have hn : blockFault m.cpu.index.toNat (x + 1) = none := by
      rw [execute_fault] at hf
      rcases hi with rfl | rfl <;> exact hf
    exact (blockFault_eq_none_iff.mp hn).resolve_left (Nat.succ_ne_zero x)
  have hx : UInt16.ofNat x + 1 = .ofNat (x + 1) := (UInt16.ofNat_add ..).symm
  rw [hp, UInt16.add_assoc, hx, toNat_add_ofNat hb, Nat.add_assoc]

theorem execute_preserves_keys (m : Machine) (i : Instruction) :
    let m' := (m.execute i).machine
    m'.keypad = { m.keypad with wait := m'.keypad.wait } := by
  have hd := congrArg (·.keypad.down) <| m.kept_execute i
  have hp := congrArg (·.keypad.previous) <| m.kept_execute i
  cases i
  all_goals exact Keypad.ext hd hp rfl

-- What no instruction writes.
theorem execute_rest (m : Machine) (i : Instruction) :
    let m' := (m.execute i).machine
    m' = { m with
      cpu          := { m'.cpu with
        running := m.cpu.running
        cycles  := m.cpu.cycles
        last    := m.cpu.last
        fault   := m.cpu.fault }
      memory.bytes := m'.memory.bytes
      screen       := m'.screen
      keypad.wait  := m'.keypad.wait
      noise        := m'.noise } := by
  have hp := execute_preserves (fun k => (k.speaker, k.dialect, k.limiter))
    (fun _ _ _ _ _ _ => rfl) m i
  have hc := execute_preserves (fun k => (k.running, k.cycles, k.last, k.fault))
    (fun _ _ _ _ _ _ => rfl) m i
  simp only [Prod.mk.injEq] at hp hc
  obtain ⟨hspeaker, hdialect, hlimiter⟩ := hp
  obtain ⟨hrunning, hcycles, hlast, hfault⟩ := hc
  exact Machine.ext
    (Cpu.ext rfl rfl rfl rfl rfl rfl hrunning hcycles hlast hfault)
    (Memory.ext rfl <| m.execute_preserves_staged i)
    rfl (m.execute_preserves_keys i) hspeaker hdialect hlimiter rfl

-- What an instruction makes of a machine when it is completed. It has written no part but its own,
-- the program goes on where it leads, a call is one return address more and a return one less, and
-- all the rest is as it was, but for the count of instructions and the moves of keys, which are
-- forgotten.
structure Completed (m : Machine) (i : Instruction) (m' : Machine) : Prop where
  writes : ∀ t, ¬m.Writes i t → t.Agrees m m'
  pc     : m.successor? i = some m'.cpu.pc
  call   : ∀ nnn, i = .call nnn → m'.returns = (m.cpu.pc + 2) :: m.returns
  ret    : i = .ret → m.returns = m'.cpu.pc :: m'.returns
  past   : ∀ x, i = .store x ∨ i = .load x → m.dialect = .compatible →
    m'.cpu.index.toNat = m.cpu.index.toNat + x + 1
  cycles : m'.cpu.cycles.toNat = m.cpu.cycles.toNat + 1
  rest   : m' = { m with
    cpu          := { m'.cpu with
      running := m.cpu.running
      cycles  := m.cpu.cycles + 1
      last    := some i
      fault   := m.cpu.fault }
    memory.bytes := m'.memory.bytes
    screen       := m'.screen
    keypad       := {
      down     := m.keypad.down
      previous := Vector.replicate 16 false
      wait     := m'.keypad.wait }
    noise        := m'.noise }

-- A tick of the processor that completes an instruction changes no more than the instruction may
-- write, and the speaker hears nothing of it.
theorem cpuTick_writes_own_targets (h : m.Completes i) :
    m.Completed i m.cpuTick.value ∧ m.cpuTick.calls = [] := by
  refine ⟨?_, calls_cpuTick m⟩
  exact {
    writes t ht     := by
      have ha : t.Agrees (m.start i) ((m.start i).execute i).machine := agrees_execute ht
      rw [h.cpuTick_value]
      cases t <;> exact ha
    pc              := h.successor?_eq
    call nnn hi     := returns_call (hi ▸ h)
    ret hi          := returns_ret (hi ▸ h)
    past x hi hd    := h.index_past hi hd
    cycles          := by
      rw [m.tick.toNat_cycles, completes_iff.mpr ⟨i, h⟩]
      rfl
    rest            := by
      rw [h.cpuTick_value]
      exact congrArg complete <| (m.start i).execute_rest i }

-- A load up to `VF` from the last bytes of memory, in the older dialect.
theorem cpuTick_writes_own_targets_of_load : ∃ m : Machine, m.Completes (.load 15) ∧
    m.Completed (.load 15) m.cpuTick.value ∧ m.cpuTick.calls = [] := by
  let start := fresh .mute .compatible .unlimited ⟨fun _ => 0, 0⟩
  let m := (start.load #[0xAF, 0xF0, 0xFF, 0x65]).value.cpuTick.value
  have h : m.Completes (.load 15) := ⟨0xFF65, by decide +kernel, by decide +kernel⟩
  exact ⟨m, h, cpuTick_writes_own_targets h⟩

end Machine
end Chip8
