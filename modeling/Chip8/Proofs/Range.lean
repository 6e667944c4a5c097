import Chip8.Proofs.Footprint
import Chip8.Proofs.Run

namespace Chip8

namespace Fault

-- The address that a fault gives for an instruction.
def pc? : Fault → Option UInt16
  | stackOverflow pc | stackUnderflow pc | invalidInstruction _ pc => some pc
  | outOfBounds _                                                  => none

-- The word is one that can lead to the fault.
def IsAbout (w : Word) : Fault → Prop
  | stackOverflow _         => ∃ nnn, Instruction.ofWord? w = some (.call nnn)
  | stackUnderflow _        => Instruction.ofWord? w = some .ret
  | invalidInstruction w' _ => w' = w ∧ Instruction.ofWord? w = none
  | outOfBounds _           => True

end Fault

namespace Machine

variable {m m' : Machine} {e : Event} {es : List Event} {i : Instruction} {w : Word} {f : Fault}

-- A jump with an offset gets furthest: from `0xFFF` on by a whole byte.
structure InRange (m : Machine) : Prop where
  pc      : m.cpu.pc.toNat ≤ 0x10FE
  depth   : m.cpu.stack.depth ≤ 16
  returns : ∀ a ∈ m.returns, 2 ≤ a.toNat ∧ a.toNat ≤ 0x1000

-- Where a word can be fetched, the program counter is far from the end of its sixteen bits.
theorem toNat_pc_add {d : UInt16} (h : m.cpu.pc.toNat + 1 < 0x1000) (hd : d.toNat ≤ 4) :
    (m.cpu.pc + d).toNat = m.cpu.pc.toNat + d.toNat := by
  rw [UInt16.toNat_add]
  exact Nat.mod_eq_of_lt (by omega)

theorem toNat_pc_add_two (h : m.cpu.pc.toNat + 1 < 0x1000) :
    (m.cpu.pc + 2).toNat = m.cpu.pc.toNat + 2 :=
  toNat_pc_add h (by decide)

theorem toNat_ofNat_address (a : Address) : (UInt16.ofNat a).toNat = a :=
  UInt16.toNat_ofNat_of_lt <| Nat.lt_trans a.isLt (by decide)

theorem toNat_address_add_byte (a : Address) (b : UInt8) :
    (UInt16.ofNat a + b.toUInt16).toNat = a + b.toNat := by
  have ha := a.isLt
  have hb := b.toNat_lt
  rw [UInt16.toNat_add, toNat_ofNat_address, UInt8.toNat_toUInt16]
  exact Nat.mod_eq_of_lt (by omega)

-- The address that a jump or a call names.
def jumpTarget? (m : Machine) : Instruction → Option Nat
  | .jump nnn | .call nnn => some nnn
  | .jumpOffset nnn       => some (nnn + (m.reg 0).toNat)
  | _                     => none

theorem jumpTarget?_le {n : Nat} (h : m.jumpTarget? i = some n) : n ≤ 0x10FE := by
  cases i
  case jump nnn | call nnn =>
    cases h
    omega
  case jumpOffset nnn =>
    have hb := (m.reg 0).toNat_lt
    cases h
    omega
  all_goals cases h

-- Where a program can go on: where a jump leads, where a call under way returns to, or one or two
-- instructions further on.
theorem successor?_cases {a : UInt16} (h : m.successor? i = some a) :
    m.jumpTarget? i = some a.toNat ∨ a ∈ m.returns ∨ a = m.cpu.pc + 2 ∨ a = m.cpu.pc + 4 := by
  cases i
  case jump nnn | call nnn =>
    cases h
    exact .inl <| congrArg some (toNat_ofNat_address nnn).symm
  case jumpOffset nnn =>
    cases h
    exact .inl <| congrArg some (toNat_address_add_byte nnn (m.reg 0)).symm
  case ret => exact .inr <| .inl <| List.mem_of_head? h
  all_goals
    cases h
    right; right
    split
    · exact .inr rfl
    · exact .inl rfl

theorem successor?_le (hp : m.cpu.pc.toNat + 1 < 0x1000) (hm : m.InRange) {a : UInt16}
    (h : m.successor? i = some a) : a.toNat ≤ 0x10FE := by
  rcases successor?_cases h with hj | hr | rfl | rfl
  · exact jumpTarget?_le hj
  · have ⟨_, ha⟩ := hm.returns a hr
    omega
  all_goals
    rw [toNat_pc_add hp (by decide)]
    simp
    omega

theorem Completes.returns_mem (h : m.Completes i) {a : UInt16}
    (ha : a ∈ m.cpuTick.value.returns) : a ∈ m.returns ∨ a = m.cpu.pc + 2 := by
  by_cases hr : i = .ret
  case pos =>
    rw [returns_ret (hr ▸ h)]
    exact .inl <| List.mem_cons_of_mem _ ha
  case neg =>
    by_cases hc : ∃ nnn, i = .call nnn
    case pos =>
      have ⟨_, hc⟩ := hc
      rw [returns_call (hc ▸ h)] at ha
      exact (List.mem_cons.mp ha).symm
    case neg =>
      rw [returns_of_completes h hr fun nnn hn => hc ⟨nnn, hn⟩] at ha
      exact .inl ha

namespace InRange

theorem of_beginning (hp : m.cpu.pc = 0x200) (hr : m.returns = []) : m.InRange where
  pc        := by rw [hp]; decide
  depth     := m.cpu.stack.depth_le
  returns a := by rw [hr]; exact nofun

theorem of_isNew (h : m.IsNew) : m.InRange :=
  of_beginning (congrArg (·.cpu.pc) h) (congrArg Machine.returns h)

-- As far as the calls under way stay as they are.
theorem of_returns (hm : m.InRange) (hp : m'.cpu.pc.toNat ≤ 0x10FE)
    (hr : m'.returns = m.returns) : m'.InRange where
  pc      := hp
  depth   := m'.cpu.stack.depth_le
  returns := hr ▸ hm.returns

theorem completes (hm : m.InRange) (h : m.Completes i) : m.cpuTick.value.InRange where
  pc           := successor?_le h.pc_lt hm h.successor?_eq
  depth        := m.cpuTick.value.cpu.stack.depth_le
  returns a ha := by
    rcases h.returns_mem ha with ha | rfl
    · exact hm.returns a ha
    · have hp := h.pc_lt
      rw [toNat_pc_add_two hp]
      omega

theorem tick (hm : m.InRange) : Tick m m' → m'.InRange
  | .wait .. | .resolve .. | .rest _ | .stuck _ => hm.of_returns hm.pc rfl
  | .complete ht hd                             => by
    have h : m.Completes _ := ⟨_, ht, hd⟩
    exact h.cpuTick_value ▸ hm.completes h
  | .fail ht hf                                 => by
    -- The program counter is past the instruction, and the calls under way are the same.
    have hc := (cutShort_execute hf).rest
    have hp := pc_lt_of_run ht
    have hl : (m.cpu.pc + 2).toNat ≤ 0x10FE := by
      rw [toNat_pc_add_two hp]
      omega
    exact hm.of_returns (Nat.le_trans (Nat.le_of_eq <| congrArg (·.cpu.pc.toNat) hc) hl)
      (congrArg (·.cpu.stack.returns) hc)

theorem handle (hm : m.InRange) (e : Event) : (m.handle e).value.InRange := by
  cases e
  case load | reset => exact of_beginning rfl rfl
  case cpuTick      => exact hm.tick m.tick
  all_goals exact hm.of_returns hm.pc rfl

theorem after (hm : m.InRange) (es : List Event) : (m.after es).InRange := by
  induction es generalizing m
  case nil          => exact hm
  case cons e es ih => exact ih <| hm.handle e

end InRange

-- No sum or difference with the program counter wraps around when an instruction runs: not the step
-- past the instruction, nor the way back from there to its address, nor the step of a skip, nor the
-- sum of a jump with an offset.
structure Unwrapped (m : Machine) (i : Instruction) : Prop where
  past   : (m.start i).cpu.pc.toNat = m.cpu.pc.toNat + 2
  origin : (m.start i).origin.toNat + 2 = (m.start i).cpu.pc.toNat
  skip   : m.skips i = true → m.cpuTick.value.cpu.pc.toNat = m.cpu.pc.toNat + 4
  offset : ∀ nnn, i = .jumpOffset nnn →
    m.cpuTick.value.cpu.pc.toNat = nnn + (m.reg 0).toNat

theorem completes_of_skips (ht : m.turn = .run w i) (h : m.skips i = true) : m.Completes i := by
  refine ⟨w, ht, ?_⟩
  cases i
  case skipEqByte | skipNeByte | skipEq | skipNe | skipDown | skipUp => exact rfl
  all_goals cases h

theorem successor?_of_skips (h : m.skips i = true) : m.successor? i = some (m.cpu.pc + 4) := by
  cases i
  case skipEqByte | skipNeByte | skipEq | skipNe | skipDown | skipUp =>
    exact congrArg (fun d => some (m.cpu.pc + d)) (if_pos h)
  all_goals cases h

theorem unwrapped_of_run (ht : m.turn = .run w i) : m.Unwrapped i := by
  have hp := pc_lt_of_run ht
  have past : (m.start i).cpu.pc.toNat = m.cpu.pc.toNat + 2 := toNat_pc_add_two hp
  refine ⟨past, ?origin, fun hs => ?skip, fun nnn hi => ?offset⟩
  case origin => rw [origin_start, past]
  case skip   =>
    have hn := (completes_of_skips ht hs).successor?_eq
    rw [successor?_of_skips hs] at hn
    rw [← Option.some.inj hn]
    exact toNat_pc_add hp (by decide)
  case offset =>
    subst hi
    have hc : m.Completes (.jumpOffset nnn) := ⟨w, ht, rfl⟩
    rw [← Option.some.inj hc.successor?_eq, toNat_address_add_byte]

-- A tick of the processor runs into this fault.
inductive Raises (m : Machine) (f : Fault) : Prop
  | fetching (turn : m.turn = .stuck f)
  | running {w : Word} {i : Instruction} (turn : m.turn = .run w i)
    (fault : ((m.start i).execute i).fault = some f)

theorem fetch_of_stuck (h : m.turn = .stuck f) : m.fetch = .error f := by
  unfold turn at h
  repeat' split at h
  all_goals simp_all

theorem Raises.faulty : m.Raises f → ∃ i?, m.Faulty i? f
  | fetching ht   => ⟨none, faulty_none_iff.mpr <| fetch_of_stuck ht⟩
  | running ht hf =>
    have ⟨_, _, _, hw⟩ := turn_eq_run_iff.mp ht
    ⟨some _, faulty_some_iff.mpr ⟨next_iff.mpr ⟨_, hw⟩, hf⟩⟩

-- The address that a fault names holds the word that has led to it.
structure Names (m : Machine) (f : Fault) (pc : UInt16) : Prop where
  fetched : m.cpu.pc = pc
  word    : ∃ w, m.memory.WordAt pc.toNat w ∧ f.IsAbout w

theorem Faulty.names {i? : Option Instruction} {pc : UInt16} (h : m.Faulty i? f)
    (hp : f.pc? = some pc) : m.Names f pc := by
  cases h
  case fetch | overrun => cases hp
  case decode hw hu    =>
    cases hp
    refine ⟨rfl, _, hw, rfl, ?_⟩
    rw [Instruction.ofWord?, Opcode.ofWord?_eq_none_iff.mpr hu]
    rfl
  case underflow hn _  =>
    cases hp
    exact ⟨rfl, hn⟩
  case overflow hn _   =>
    obtain ⟨w, hw, hi⟩ := hn
    cases hp
    exact ⟨rfl, w, hw, _, hi⟩

theorem Tick.raises (hf : m.cpu.fault ≠ some f) (hf' : m'.cpu.fault = some f) :
    Tick m m' → m.Raises f
  | wait .. | resolve .. | rest _ => absurd hf' hf
  | stuck ht                      => by
    cases hf'
    exact .fetching ht
  | @complete _ _ i _ _           =>
    absurd (((m.start i).execute_preserves_fault i).symm.trans hf') hf
  | fail ht he                    => by
    cases hf'
    exact .running ht he

-- Only a tick of the processor brings a fault on record.
theorem handle_raises (hf : m.cpu.fault ≠ some f) (hf' : (m.handle e).value.cpu.fault = some f) :
    e = .cpuTick ∧ m.Raises f := by
  cases e
  case load | reset => cases hf'
  case cpuTick      => exact ⟨rfl, m.tick.raises hf hf'⟩
  all_goals exact absurd hf' hf

-- A fault on record in a run: the tick that ran into it, since which it has been there.
structure RaisedAt (m : Machine) (es : List Event) (f : Fault) (raised now : Nat) : Prop where
  tick   : es[raised]? = some .cpuTick
  raises : (m.upTo es raised).Raises f
  before : raised < now
  stays  : ∀ n, raised < n → n ≤ now → (m.upTo es n).cpu.fault = some f

-- Whatever fault is on record, a tick ran into it.
theorem RaisedAt.of_fault {now : Nat} (hm : m.cpu.fault = none) (hl : now ≤ es.length)
    (hf : (m.upTo es now).cpu.fault = some f) : ∃ raised, m.RaisedAt es f raised now := by
  have hn : ¬m.cpu.fault = some f := fun h => nomatch hm.symm.trans h
  have ⟨raised, e, hb, he, h, hs⟩ := exists_since (P := (·.cpu.fault = some f)) hn hl hf
  have ⟨ht, hr⟩ := handle_raises h <| upTo_succ he ▸ hs _ (Nat.lt_succ_self raised) hb
  exact ⟨raised, ht ▸ he, hr, hb, hs⟩

-- Whatever happens to a new machine, the program counter and the return addresses stay in their
-- range, no sum with them wraps around when an instruction runs, and a fault on record that names
-- an address names the one from which the tick that ran into it has fetched its word.
theorem pc_stays_in_range {start : Machine} (hs : start.IsNew) (es : List Event) :
    let m := start.after es
    m.InRange ∧ (∀ w i, m.turn = .run w i → m.Unwrapped i) ∧
    ∀ f, (start.after es).cpu.fault = some f → ∃ raised, start.RaisedAt es f raised es.length ∧
      ∀ pc, f.pc? = some pc → (start.upTo es raised).Names f pc := by
  intro m
  refine ⟨(InRange.of_isNew hs).after es, fun w i => unwrapped_of_run, fun f hf => ?fault⟩
  case fault =>
    have hn : start.cpu.fault = none := congrArg (·.cpu.fault) hs
    rw [← start.upTo_length es] at hf
    have ⟨raised, hr⟩ := RaisedAt.of_fault hn (Nat.le_refl _) hf
    have ⟨_, hi⟩ := hr.raises.faulty
    exact ⟨raised, hr, fun _ => hi.names⟩

-- A jump to `0xFFF + 0xFF`, and in another run a return without a call, of which the fault is still
-- on record when more has happened.
theorem pc_stays_in_range_of_far_jump : ∃ (start : Machine) (es fs : List Event), start.IsNew ∧
    (let m := start.after es
     m.InRange ∧ m.turn = .run 0xBFFF (.jumpOffset 0xFFF) ∧ m.Unwrapped (.jumpOffset 0xFFF) ∧
      m.cpuTick.value.cpu.pc = 0x10FE) ∧
    (start.after fs).cpu.fault = some (.stackUnderflow 0x202) ∧
    ∃ raised, start.RaisedAt fs (.stackUnderflow 0x202) raised fs.length ∧
      (start.upTo fs raised).Names (.stackUnderflow 0x202) 0x202 := by
  let start := fresh .mute .modern .unlimited ⟨fun _ => 0, 0⟩
  let es : List Event := [.load #[0x60, 0xFF, 0xBF, 0xFF], .cpuTick]
  let fs : List Event := [.load #[0x60, 0xFF, 0x00, 0xEE], .cpuTick, .timerTick, .cpuTick,
    .key 3 true, .cpuTick]
  have hs : start.IsNew := rfl
  have ht : (start.after es).turn = .run 0xBFFF (.jumpOffset 0xFFF) := by decide +kernel
  have hf : (start.after fs).cpu.fault = some (.stackUnderflow 0x202) := by decide +kernel
  have ⟨hm, hu, _⟩ := pc_stays_in_range hs es
  have ⟨_, _, hr⟩ := pc_stays_in_range hs fs
  have ⟨raised, hr, hn⟩ := hr _ hf
  exact ⟨start, es, fs, hs, ⟨hm, ht, hu _ _ ht, by decide +kernel⟩, hf, raised, hr, hn _ rfl⟩

end Machine
end Chip8
