import Chip8.Proofs.Footprint

namespace Chip8

-- The number of the register that a shift works on.
def Dialect.shiftedNumber (d : Dialect) (a b : Nat) : Nat :=
  match d with
  | modern     => a
  | compatible => b

namespace Alu

-- The number that an operation makes of two others. The result is this number modulo 256.
def number (op : Alu) (d : Dialect) (a b : Nat) : Int :=
  match op with
  | copy => b
  | or   => (a ||| b : Nat)
  | and  => (a &&& b : Nat)
  | xor  => (a ^^^ b : Nat)
  | add  => a + b
  | sub  => a - b
  | subn => b - a
  | shr  => d.shiftedNumber a b / 2
  | shl  => 2 * d.shiftedNumber a b

-- The flag, if the operation has one.
def flag? (op : Alu) (d : Dialect) (a b : Nat) : Option Nat :=
  match op with
  | copy           => none
  | or | and | xor => if d = .compatible then some 0 else none
  | add            => some (if 255 < a + b then 1 else 0)
  | sub            => some (if b < a then 1 else 0)
  | subn           => some (if a < b then 1 else 0)
  | shr            => some (d.shiftedNumber a b % 2)
  | shl            => some (d.shiftedNumber a b / 128)

variable (op : Alu) (d : Dialect) (a b : UInt8)

theorem toNat_shifted : (d.shifted a b).toNat = d.shiftedNumber a.toNat b.toNat := by
  cases d <;> rfl

theorem toNat_emod (b : UInt8) : (b.toNat : Int) % 256 = b.toNat := by
  have := b.toNat_lt
  omega

theorem toNat_toUInt8_decide (p : Prop) [Decidable p] :
    (decide p).toUInt8.toNat = if p then 1 else 0 := by
  split
  all_goals
    simp only [*, decide_true, decide_false]
    rfl

theorem toNat_fst_eval :
    ((op.eval d a b).1.toNat : Int) = op.number d a.toNat b.toNat % 256 := by
  have ha := a.toNat_lt
  have hb := b.toNat_lt
  cases op
  case copy => exact (toNat_emod b).symm
  case or   => rw [eval, number, ← UInt8.toNat_or, toNat_emod]
  case and  => rw [eval, number, ← UInt8.toNat_and, toNat_emod]
  case xor  => rw [eval, number, ← UInt8.toNat_xor, toNat_emod]
  case add  =>
    simp only [eval, number, UInt8.toNat_add]
    omega
  case sub  =>
    simp only [eval, number, UInt8.toNat_sub]
    omega
  case subn =>
    simp only [eval, number, UInt8.toNat_sub]
    omega
  case shr  =>
    have hs := (d.shifted a b).toNat_lt
    simp only [eval, number, ← toNat_shifted, UInt8.toNat_shiftRight, UInt8.reduceToNat,
      Nat.one_mod, Nat.shiftRight_eq_div_pow, Nat.pow_one]
    omega
  case shl  =>
    simp only [eval, number, ← toNat_shifted, UInt8.toNat_shiftLeft, UInt8.reduceToNat,
      Nat.one_mod, Nat.shiftLeft_eq, Nat.pow_one]
    omega

theorem map_toNat_snd_eval :
    (op.eval d a b).2.map UInt8.toNat = op.flag? d a.toNat b.toNat := by
  cases op
  case copy           => rfl
  case or | and | xor => cases d <;> rfl
  case add            => exact congrArg some <| toNat_toUInt8_decide _
  case sub | subn     =>
    simp only [eval, flag?, ← UInt8.lt_iff_toNat_lt]
    exact congrArg some <| toNat_toUInt8_decide _
  case shr            => simp [eval, flag?, ← toNat_shifted, Nat.and_one_is_mod]
  case shl            => simp [eval, flag?, ← toNat_shifted, Nat.shiftRight_eq_div_pow]

end Alu

namespace Machine

variable {m : Machine} {x r : Register}

variable {res : UInt8 × Option UInt8}

theorem reg_flag_setResult {f : UInt8} (h : res.2 = some f) :
    (m.setResult x res).reg .flag = f := by
  obtain ⟨b, _⟩ := res
  cases h
  exact Registers.get_set_self ..

theorem reg_setResult (h : x ≠ .flag ∨ res.2 = none) : (m.setResult x res).reg x = res.1 := by
  obtain ⟨b, _ | f⟩ := res
  case none => exact Registers.get_set_self ..
  case some =>
    have hx := h.resolve_right nofun
    exact (Registers.get_set_of_ne _ hx _).trans (Registers.get_set_self ..)

theorem setResult_rest (m : Machine) (x : Register) : (res : UInt8 × Option UInt8) →
    m.setResult x res = { m with cpu.registers := (m.setResult x res).cpu.registers }
  | (_, none) | (_, some _) => rfl

-- What an operation on two registers leaves of a machine: the flag in `VF`, if there is one, and
-- the result in the first register, unless that is `VF` and takes the flag.
structure Computed (m : Machine) (op : Alu) (x y : Register) (m' : Machine) : Prop where
  flag   : ∀ f, op.flag? m.dialect (m.reg x).toNat (m.reg y).toNat = some f →
    (m'.reg .flag).toNat = f
  result : x ≠ .flag ∨ op.flag? m.dialect (m.reg x).toNat (m.reg y).toNat = none →
    ((m'.reg x).toNat : Int) = op.number m.dialect (m.reg x).toNat (m.reg y).toNat % 256
  others : ∀ r, r ≠ x →
    r ≠ .flag ∨ op.flag? m.dialect (m.reg x).toNat (m.reg y).toNat = none → m'.reg r = m.reg r
  rest   : m' = { m with cpu.registers := m'.cpu.registers }

-- Whichever registers an operation works on, it takes both numbers from them before it writes any.
theorem alu_computes (m : Machine) (op : Alu) (x y : Register) :
    let o := m.execute (.alu op x y)
    o.fault = none ∧ m.Computed op x y o.machine := by
  have hr := op.toNat_fst_eval m.dialect (m.reg x) (m.reg y)
  have hf := op.map_toNat_snd_eval m.dialect (m.reg x) (m.reg y)
  have hn : op.flag? m.dialect (m.reg x).toNat (m.reg y).toNat = none →
      (op.eval m.dialect (m.reg x) (m.reg y)).2 = none := by
    rw [← hf]
    exact Option.map_eq_none_iff.mp
  refine ⟨rfl, ?_⟩
  exact {
    flag f h       := by
      obtain ⟨f', h', rfl⟩ := Option.map_eq_some_iff.mp <| hf.trans h
      exact congrArg UInt8.toNat <| reg_flag_setResult h'
    result h       := by
      rw [← hr]
      exact congrArg (Int.ofNat ·.toNat) <| reg_setResult <| h.imp_right hn
    others r hx h  := setResult_preserves_reg hx fun hs => h.resolve_right <| mt hn hs
    rest           := m.setResult_rest x _ }

-- Two sums that go beyond a byte, with `VF` first as the target and then as the other register, and
-- in the older dialect a shift of `VF` into itself.
theorem alu_computes_on_flag : ∃ m : Machine, m.dialect = .compatible ∧ m.reg .flag = 0xF0 ∧
    m.reg 3 = 0x21 ∧
    (let m' := (m.execute (.alu .add .flag 3)).machine
     (m'.reg .flag).toNat = 1 ∧ m'.reg 3 = 0x21) ∧
    (let m' := (m.execute (.alu .add 3 .flag)).machine
     (m'.reg .flag).toNat = 1 ∧ ((m'.reg 3).toNat : Int) = 0x11) ∧
    (let m' := (m.execute (.alu .shl .flag .flag)).machine
     (m'.reg .flag).toNat = 1) := by
  let start := fresh .mute .compatible .unlimited ⟨fun _ => 0, 0⟩
  let m := (start.setReg .flag 0xF0).setReg 3 0x21
  have ⟨_, target⟩ := m.alu_computes .add .flag 3
  have ⟨_, other⟩ := m.alu_computes .add 3 .flag
  have ⟨_, shift⟩ := m.alu_computes .shl .flag .flag
  refine ⟨m, rfl, by decide, by decide, ⟨target.flag 1 (by decide), ?_⟩,
    ⟨other.flag 1 (by decide), ?_⟩, shift.flag 1 (by decide)⟩
  · exact (target.others 3 (by decide) (.inl <| by decide)).trans (by decide)
  · exact (other.result (.inl <| by decide)).trans (by decide)

end Machine
end Chip8
