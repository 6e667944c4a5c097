import Chip8.Proofs.Tick

namespace Chip8

namespace Register

theorem getElem?_finRange : ∀ n < 16, (List.finRange 16)[n]? = some (Fin.ofNat 16 n) := by
  decide

theorem through_zero (x : Register) : through 0 x = (List.finRange 16).take (x + 1) := by
  decide +revert

end Register

namespace Registers

theorem length_firstThrough (v : Registers) (x : Register) :
    (v.firstThrough x).length = x + 1 := by
  rw [firstThrough, List.length_map, Register.through_zero, List.length_take, List.length_finRange]
  exact Nat.min_eq_left x.isLt

theorem getElem?_firstThrough (v : Registers) (x : Register) (n : Nat) :
    (v.firstThrough x)[n]? = if n ≤ x then some (v.get (Fin.ofNat 16 n)) else none := by
  rw [firstThrough, Register.through_zero, List.getElem?_map, List.getElem?_take]
  simp only [Nat.lt_succ_iff]
  split
  case isFalse   => rfl
  case isTrue hn =>
    have hl : n < 16 := Nat.lt_of_le_of_lt hn x.isLt
    rw [Register.getElem?_finRange n hl, Option.map_some]

end Registers

namespace CallStack

variable {s : CallStack}

theorem pop_of_depth_eq_zero (h : s.depth = 0) (pc : UInt16) :
    s.pop pc = .error (.stackUnderflow pc) := by
  obtain ⟨_ | ⟨a, as⟩, hs⟩ := s
  · rfl
  · cases h

theorem pop_of_depth_ne_zero (h : s.depth ≠ 0) (pc : UInt16) : ∃ a t, s.pop pc = .ok (a, t) := by
  obtain ⟨_ | ⟨a, as⟩, hs⟩ := s
  · cases h rfl
  · exact ⟨_, _, rfl⟩

theorem push_of_depth_eq (h : s.depth = 16) (a pc : UInt16) :
    s.push a pc = .error (.stackOverflow pc) := by
  rw [push, dif_neg (by simp [capacity, h])]

theorem push_of_depth_ne (h : s.depth ≠ 16) (a pc : UInt16) : ∃ t, s.push a pc = .ok t := by
  have hs : s.depth < capacity := Nat.lt_of_le_of_ne s.depth_le h
  exact ⟨_, dif_pos hs⟩

end CallStack

namespace Instruction

-- How many bytes an instruction reads or writes from `I` on.
def span : Instruction → Nat
  | draw _ _ n       => n
  | storeDecimal _   => 3
  | store x | load x => x + 1
  | _                => 0

end Instruction

namespace Machine

variable {m : Machine} {i : Instruction} {f : Fault}

theorem draw_fault (m : Machine) (x y : Register) (n : Nibble) :
    (m.draw x y n).fault = blockFault m.cpu.index.toNat n := by
  rw [← m.memory.readBlock_fault, draw]
  split <;> simp [*]

theorem storeBytes_fault (m : Machine) (bs : List UInt8) (next : Machine → Machine) :
    (m.storeBytes bs next).fault = blockFault m.cpu.index.toNat bs.length := by
  rw [← m.memory.writeBlock_fault, storeBytes]
  split <;> simp [*]

theorem loadRegisters_fault (m : Machine) (x : Register) :
    (m.loadRegisters x).fault = blockFault m.cpu.index.toNat (x + 1) := by
  rw [← m.memory.readBlock_fault, loadRegisters]
  split <;> simp [*]

theorem execute_fault (m : Machine) (i : Instruction) :
    (m.execute i).fault = match i with
      | .ret    => if m.cpu.stack.depth = 0 then some (.stackUnderflow m.origin) else none
      | .call _ => if m.cpu.stack.depth = 16 then some (.stackOverflow m.origin) else none
      | i       => blockFault m.cpu.index.toNat i.span := by
  cases i
  case ret =>
    by_cases h : m.cpu.stack.depth = 0
    case pos => simp [execute, h, CallStack.pop_of_depth_eq_zero h]
    case neg =>
      obtain ⟨a, t, hp⟩ := CallStack.pop_of_depth_ne_zero h m.origin
      simp [execute, h, hp]
  case call =>
    by_cases h : m.cpu.stack.depth = 16
    case pos => simp [execute, h, CallStack.push_of_depth_eq h]
    case neg =>
      obtain ⟨t, hp⟩ := CallStack.push_of_depth_ne h m.cpu.pc m.origin
      simp [execute, h, hp]
  case draw         => exact draw_fault ..
  case storeDecimal => exact storeBytes_fault ..
  case store x      =>
    rw [execute, storeBytes_fault, Registers.length_firstThrough]
    rfl
  case load         => exact loadRegisters_fault ..
  all_goals rfl

-- The byte that an instruction brings into a register from memory.
def loaded? (m : Machine) (i : Instruction) (r : Register) : Option UInt8 :=
  match i with
  | .load x => if r ≤ x then m.memory.bytes[m.cpu.index.toNat + r]? else none
  | _       => none

-- The byte that an instruction brings to the place `n` from `I` on: the hundreds, tens and ones of a
-- register, or the registers up to a last one.
def storedAt? (m : Machine) : Instruction → Nat → Option UInt8
  | .storeDecimal x, 0 => some (m.reg x / 100)
  | .storeDecimal x, 1 => some (m.reg x / 10 % 10)
  | .storeDecimal x, 2 => some (m.reg x % 10)
  | .store x, n        => if n ≤ x then some (m.reg (Fin.ofNat 16 n)) else none
  | _, _               => none

-- The byte that an instruction brings to an address.
def stored? (m : Machine) (i : Instruction) (a : Address) : Option UInt8 :=
  if m.cpu.index.toNat ≤ a then m.storedAt? i (a - m.cpu.index.toNat) else none

theorem stored?_eq_none (h : ∀ n, m.storedAt? i n = none) (a : Address) : m.stored? i a = none := by
  rw [stored?, h, ite_self]

theorem storedAt?_storeDecimal (m : Machine) (x : Register) :
    (n : Nat) → m.storedAt? (.storeDecimal x) n = (decimalDigits (m.reg x))[n]?
  | 0 | 1 | 2 | _ + 3 => rfl

theorem storedAt?_store (m : Machine) (x : Register) (n : Nat) :
    m.storedAt? (.store x) n = (m.cpu.registers.firstThrough x)[n]? :=
  (m.cpu.registers.getElem?_firstThrough x n).symm

-- What an instruction leaves that a fault cuts short: the bytes that are in bounds have been
-- brought where they belong, and nothing else has happened.
structure CutShort (m : Machine) (i : Instruction) (m' : Machine) : Prop where
  rest      : m' = { m with
    cpu.registers := m'.cpu.registers
    memory.bytes  := m'.memory.bytes }
  registers : ∀ r, m'.reg r = (m.loaded? i r).getD (m.reg r)
  memory    : ∀ a, m'.memory.bytes.get a = (m.stored? i a).getD (m.memory.bytes.get a)

theorem CutShort.refl (hl : ∀ r, m.loaded? i r = none) (hs : ∀ n, m.storedAt? i n = none) :
    m.CutShort i m where
  rest        := rfl
  registers r := by rw [hl]; rfl
  memory a    := by rw [stored?_eq_none hs]; rfl

theorem draw_machine_of_fault {x y : Register} {n : Nibble} (h : (m.draw x y n).fault = some f) :
    (m.draw x y n).machine = m := by
  unfold draw at h ⊢
  split at h
  · simp [*]
  · cases h

theorem cutShort_storeBytes {bs : List UInt8} {next : Machine → Machine}
    (h : (m.storeBytes bs next).fault = some f) (hl : ∀ r, m.loaded? i r = none)
    (hs : ∀ n, m.storedAt? i n = bs[n]?) :
    m.CutShort i (m.storeBytes bs next).machine := by
  have hb := m.memory.writeBlock_preserves_staged m.cpu.index.toNat bs
  have hg := m.memory.get_writeBlock m.cpu.index.toNat bs
  unfold storeBytes at h ⊢
  split
  case h_2 he => simp [he] at h
  case h_1 memory g he =>
    rw [he] at hb hg
    refine ⟨?rest, fun r => by rw [hl]; rfl, fun a => by rw [stored?, hs]; exact hg a⟩
    case rest => simp [← hb]

theorem cutShort_loadRegisters {x : Register} (h : (m.loadRegisters x).fault = some f) :
    m.CutShort (.load x) (m.loadRegisters x).machine := by
  have hg := m.memory.getElem?_readBlock m.cpu.index.toNat (x + 1)
  unfold loadRegisters at h ⊢
  split
  case h_2 he => simp [he] at h
  case h_1 bs g he =>
    rw [he] at hg
    refine ⟨rfl, fun r => (Registers.get_overwrite ..).trans ?_, fun a => ?_⟩
    · simp only [hg, loaded?, Nat.lt_succ_iff]
      rfl
    · rw [stored?_eq_none fun _ => rfl]
      rfl

theorem cutShort_execute (h : (m.execute i).fault = some f) :
    m.CutShort i (m.execute i).machine := by
  cases i
  case ret | call =>
    simp only [execute] at h ⊢
    split at h <;> cases h
    simp only [*]
    exact .refl (fun _ => rfl) (fun _ => rfl)
  case draw =>
    have hm : (m.draw _ _ _).machine = m := draw_machine_of_fault h
    rw [execute, hm]
    exact .refl (fun _ => rfl) (fun _ => rfl)
  case storeDecimal => exact cutShort_storeBytes h (fun _ => rfl) (m.storedAt?_storeDecimal _)
  case store        => exact cutShort_storeBytes h (fun _ => rfl) (m.storedAt?_store _)
  case load         => exact cutShort_loadRegisters h
  all_goals cases h

-- The instruction at the program counter.
def Next (m : Machine) (i : Instruction) : Prop :=
  ∃ w, m.memory.WordAt m.cpu.pc.toNat w ∧ Instruction.ofWord? w = some i

-- The fault that a machine runs into, and the instruction that it cuts short if it comes that far.
inductive Faulty (m : Machine) : Option Instruction → Fault → Prop
  | fetch (pc : 0xFFF ≤ m.cpu.pc.toNat) :
    Faulty m none (.outOfBounds (max m.cpu.pc.toNat 0x1000))
  | decode {w} (word : m.memory.WordAt m.cpu.pc.toNat w)
    (unfit : ∀ op : Opcode, op.pattern.fits w = false) :
    Faulty m none (.invalidInstruction w m.cpu.pc)
  | underflow (next : m.Next .ret) (empty : m.cpu.stack.depth = 0) :
    Faulty m (some .ret) (.stackUnderflow m.cpu.pc)
  | overflow {nnn} (next : m.Next (.call nnn)) (full : m.cpu.stack.depth = 16) :
    Faulty m (some (.call nnn)) (.stackOverflow m.cpu.pc)
  | overrun {i : Instruction} (next : m.Next i) (transfers : 0 < i.span)
    (beyond : 0x1000 ≤ m.cpu.index.toNat + i.span - 1) :
    Faulty m (some i) (.outOfBounds (max m.cpu.index.toNat 0x1000))

theorem faulty_none_iff : m.Faulty none f ↔ m.fetch = .error f := by
  simp only [fetch_eq_error_iff, Instruction.ofWord?, Option.map_eq_none_iff,
             Opcode.ofWord?_eq_none_iff]
  constructor
  case mp =>
    intro h
    cases h
    case fetch h      => exact .inl ⟨h, rfl⟩
    case decode hw hu => exact .inr ⟨_, hw, hu, rfl⟩
  case mpr =>
    rintro (⟨h, rfl⟩ | ⟨w, hw, hu, rfl⟩)
    · exact .fetch h
    · exact .decode hw hu

theorem next_iff : m.Next i ↔ ∃ w, m.fetch = .ok (w, i) := by
  simp only [Next, fetch_eq_ok_iff]

theorem origin_start (m : Machine) (i : Instruction) : (m.start i).origin = m.cpu.pc :=
  UInt16.add_sub_cancel ..

theorem faulty_some_iff :
    m.Faulty (some i) f ↔ m.Next i ∧ ((m.start i).execute i).fault = some f := by
  rw [execute_fault, origin_start]
  constructor
  case mp =>
    intro h
    cases h
    case underflow hn h   => exact ⟨hn, if_pos h⟩
    case overflow hn h    => exact ⟨hn, if_pos h⟩
    case overrun hn ht hb =>
      have hf := blockFault_eq_some_iff.mpr ⟨ht, hb, rfl⟩
      refine ⟨hn, ?_⟩
      cases i
      case ret | call => cases ht
      all_goals exact hf
  case mpr =>
    intro ⟨hn, h⟩
    cases i
    case ret =>
      have ⟨he, hf⟩ := Option.ite_none_right_eq_some.mp h
      cases hf
      exact .underflow hn he
    case call =>
      have ⟨he, hf⟩ := Option.ite_none_right_eq_some.mp h
      cases hf
      exact .overflow hn he
    all_goals
      obtain ⟨ht, hb, rfl⟩ := blockFault_eq_some_iff.mp h
      exact .overrun hn ht hb

-- What a machine is when a fault has stopped it.
structure HaltedBy (m : Machine) (i? : Option Instruction) (f : Fault) (m' : Machine) : Prop where
  rest      : m' = { m with
    cpu := { m.cpu with
      registers := m'.cpu.registers
      pc        := if i?.isSome then m.cpu.pc + 2 else m.cpu.pc
      last      := i?.or m.cpu.last
      running   := false
      fault     := some f }
    memory.bytes := m'.memory.bytes }
  registers : ∀ r, m'.reg r = (i?.bind (m.loaded? · r)).getD (m.reg r)
  memory    : ∀ a, m'.memory.bytes.get a = (i?.bind (m.stored? · a)).getD (m.memory.bytes.get a)

theorem haltedBy_halt (m : Machine) (f : Fault) : m.HaltedBy none f (m.halt f).value :=
  ⟨rfl, fun _ => rfl, fun _ => rfl⟩

theorem CutShort.haltedBy {m' : Machine} (h : (m.start i).CutShort i m') :
    m.HaltedBy (some i) f (m'.halt f).value where
  rest      := congrArg (fun n => (n.halt f).value) h.rest
  registers := h.registers
  memory    := h.memory

theorem HaltedBy.running {i? : Option Instruction} {m' : Machine} (h : m.HaltedBy i? f m') :
    m'.cpu.running = false :=
  congrArg (·.cpu.running) h.rest

theorem HaltedBy.fault {i? : Option Instruction} {m' : Machine} (h : m.HaltedBy i? f m') :
    m'.cpu.fault = some f :=
  congrArg (·.cpu.fault) h.rest

-- A processor that neither waits nor rests halts or completes an instruction.
theorem faulty_or_completes (hw : m.keypad.wait = none) (hr : m.cpu.running = true)
    (hl : m.limiter.allows m.cpu.cycles = true) :
    (∃ i? f, m.Faulty i? f) ∨
    ∃ i, m.cpuTick.value = ((m.start i).execute i).machine.complete := by
  have ht := turn_of_ready hw hr hl
  cases hf : m.fetch
  case error f => exact .inl ⟨none, f, faulty_none_iff.mpr hf⟩
  case ok wi =>
    have ⟨w, i⟩ := wi
    rw [hf] at ht
    cases he : ((m.start i).execute i).fault
    case some f => exact .inl ⟨i, f, faulty_some_iff.mpr ⟨next_iff.mpr ⟨w, hf⟩, he⟩⟩
    case none   => exact .inr ⟨i, by simp [cpuTick, ht, runInstruction, finish, he]⟩

theorem haltedBy_cpuTick (hw : m.keypad.wait = none) (hr : m.cpu.running = true)
    (hl : m.limiter.allows m.cpu.cycles = true) :
    {i? : Option Instruction} → (h : m.Faulty i? f) → m.HaltedBy i? f m.cpuTick.value
  | none, h => by
    have ht := turn_of_ready hw hr hl
    rw [faulty_none_iff.mp h] at ht
    simp only [cpuTick, ht]
    exact m.haltedBy_halt f
  | some i, h => by
    have ⟨hn, he⟩ := faulty_some_iff.mp h
    have ⟨w, hf⟩ := next_iff.mp hn
    have ht := turn_of_ready hw hr hl
    rw [hf] at ht
    simp only [cpuTick, ht, runInstruction, finish, he]
    exact (cutShort_execute he).haltedBy

-- A processor that is ready halts exactly at the faults listed in `Faulty`, and all that a fault
-- leaves behind is listed in `HaltedBy`.
theorem cpuTick_halts_iff_faulty (hw : m.keypad.wait = none) (hr : m.cpu.running = true)
    (hl : m.limiter.allows m.cpu.cycles = true) :
    (∀ f, m.cpuTick.value.cpu.running = false ∧ m.cpuTick.value.cpu.fault = some f ↔
      ∃ i?, m.Faulty i? f) ∧
    ∀ i? f, m.Faulty i? f → m.HaltedBy i? f m.cpuTick.value := by
  refine ⟨fun f => ⟨fun ⟨hs, hf⟩ => ?mp, fun ⟨i?, h⟩ => ?mpr⟩,
          fun i? f => haltedBy_cpuTick hw hr hl⟩
  case mpr =>
    have hh := haltedBy_cpuTick hw hr hl h
    exact ⟨hh.running, hh.fault⟩
  case mp =>
    rcases faulty_or_completes hw hr hl with ⟨i?, g, h⟩ | ⟨i, h⟩
    · have hg := (haltedBy_cpuTick hw hr hl h).fault
      cases hf.symm.trans hg
      exact ⟨i?, h⟩
    · have hp := (m.start i).execute_preserves_running i
      rw [h] at hs
      cases (hs.symm.trans hp).trans hr

-- A store of three registers from `0xFFE` on brings two bytes in and stops at the third.
theorem cpuTick_halts_at_end_of_memory : ∃ m : Machine,
    (m.keypad.wait = none ∧ m.cpu.running = true ∧ m.limiter.allows m.cpu.cycles = true) ∧
    m.Faulty (some (.store 2)) (.outOfBounds 0x1000) ∧
    m.cpuTick.value.cpu.running = false ∧
    m.cpuTick.value.cpu.fault = some (.outOfBounds 0x1000) ∧
    m.HaltedBy (some (.store 2)) (.outOfBounds 0x1000) m.cpuTick.value := by
  let start := fresh .mute .modern .unlimited ⟨fun _ => 0, 0⟩
  let m := (start.load #[0xAF, 0xFE, 0xF2, 0x55]).value.cpuTick.value
  obtain ⟨hw, hr, hl⟩ :
      m.keypad.wait = none ∧ m.cpu.running = true ∧ m.limiter.allows m.cpu.cycles = true := by
    decide +kernel
  have hf : m.Faulty (some (.store 2)) (.outOfBounds 0x1000) := by
    have hn : m.cpu.pc.toNat = 0x202 ∧ m.cpu.index.toNat = 0xFFE ∧
        m.memory.bytes[0x202] = 0xF2 ∧ m.memory.bytes[0x203] = 0x55 := by
      decide +kernel
    have hi : m.Next (.store 2) := by
      refine ⟨0xF255, ?_, by decide +kernel⟩
      simp [Memory.WordAt, hn]
    have hb := Faulty.overrun hi (by decide) (by rw [hn.2.1]; decide)
    rwa [hn.2.1] at hb
  obtain ⟨hh, hk⟩ := cpuTick_halts_iff_faulty hw hr hl
  obtain ⟨hs, hc⟩ := (hh _).mpr ⟨_, hf⟩
  exact ⟨m, ⟨hw, hr, hl⟩, hf, hs, hc, hk _ _ hf⟩

end Machine
end Chip8
