import Chip8.Proofs.Kept

namespace Chip8

namespace Memory

variable (m : Memory) (staged : Option Rom)

-- Reading and writing take no notice of the staged program.
theorem readBlock_restage (a n : Nat) :
    { m with staged }.readBlock a n = m.readBlock a n := by
  induction n generalizing a
  case zero      => rfl
  case succ n ih => simp only [readBlock, read, ih]

theorem writeBlock_restage (a : Nat) (bs : List UInt8) :
    { m with staged }.writeBlock a bs =
      ({ (m.writeBlock a bs).1 with staged }, (m.writeBlock a bs).2) := by
  induction bs generalizing m a
  case nil => rfl
  case cons b bs ih =>
    by_cases h : a < 4096
    case neg => simp [writeBlock, write, h]
    case pos =>
      simp only [writeBlock, write, h, dif_pos]
      exact ih { m with bytes := m.bytes.set a b } (a + 1)

end Memory

namespace Instruction

-- Whether an instruction looks at or changes one of the parts that most leave as they are.
def usesKept : Instruction → Bool
  | ret | call _ | random .. | skipDown _ | skipUp _ | readDelay _ | awaitKey _ | setDelay _
  | setSound _ => true
  | _          => false

-- Whether the dialects disagree on an instruction.
def isAmbiguous : Instruction → Bool
  | alu .or .. | alu .and .. | alu .xor .. => true
  | alu .shr x y | alu .shl x y            => x ≠ y
  | store _ | load _                       => true
  | _                                      => false

end Instruction

namespace Machine

-- The machine with these parts in place of its own.
def withKept (m : Machine) (k : Kept) : Machine :=
  { m with
    speaker       := k.speaker
    dialect       := k.dialect
    limiter       := k.limiter
    noise         := k.noise
    keypad        := k.keypad
    memory.staged := k.staged
    cpu.stack     := k.stack
    cpu.delay     := k.delay
    cpu.sound     := k.sound
    cpu.running   := k.running
    cpu.cycles    := k.cycles
    cpu.last      := k.last
    cpu.fault     := k.fault }

-- The machine with some of these parts changed.
def mapKept (m : Machine) (change : Kept → Kept) : Machine :=
  m.withKept (change m.kept)

end Machine

namespace Outcome

def withKept (o : Outcome) (k : Kept) : Outcome :=
  { o with machine := o.machine.withKept k }

def mapKept (o : Outcome) (change : Kept → Kept) : Outcome :=
  { o with machine := o.machine.mapKept change }

end Outcome

namespace Machine

section

variable (m : Machine) (k : Kept)

theorem skipIf_withKept (c : Prop) [Decidable c] :
    (m.withKept k).skipIf c = (m.skipIf c).withKept k := by
  unfold skipIf
  split <;> rfl

theorem skipIf_mapKept (change : Kept → Kept) (c : Prop) [Decidable c] :
    (m.mapKept change).skipIf c = (m.skipIf c).mapKept change := by
  unfold skipIf
  split <;> rfl

theorem pointPast_withKept (h : k.dialect = m.dialect) (x : Register) :
    (m.withKept k).pointPast x = (m.pointPast x).withKept k := by
  have hd : (m.withKept k).dialect = m.dialect := h
  unfold pointPast
  rw [hd]
  split <;> rfl

theorem setResult_withKept (x : Register) :
    (r : UInt8 × Option UInt8) → (m.withKept k).setResult x r = (m.setResult x r).withKept k
  | (_, none) | (_, some _) => rfl

theorem eval_alu_congr {d₁ d₂ : Dialect} (op : Alu) (x y : Register)
    (h : (Instruction.alu op x y).isAmbiguous = true → d₁ = d₂) :
    op.eval d₁ (m.reg x) (m.reg y) = op.eval d₂ (m.reg x) (m.reg y) := by
  cases op
  case or | and | xor => rw [h rfl]
  case shr | shl =>
    by_cases hxy : x = y
    case pos => cases d₁ <;> cases d₂ <;> simp [Alu.eval, Dialect.shifted, hxy]
    case neg => rw [h (by simpa [Instruction.isAmbiguous] using hxy)]
  all_goals rfl

theorem draw_withKept (x y : Register) (n : Nibble) :
    (m.withKept k).draw x y n = (m.draw x y n).withKept k := by
  have hr := m.memory.readBlock_restage k.staged m.cpu.index.toNat n
  simp only [draw, withKept, hr]
  split <;> rfl

-- A block that does not fit leaves `I` where it is, in either dialect.
theorem storeBytes_withKept (bs : List UInt8) {f : Machine → Machine}
    (h : (m.storeBytes bs f).fault = none → ∀ memory,
      f ({ m with memory }.withKept k) = (f { m with memory }).withKept k) :
    (m.withKept k).storeBytes bs f = (m.storeBytes bs f).withKept k := by
  have hw := m.memory.writeBlock_restage k.staged m.cpu.index.toNat bs
  simp only [storeBytes, withKept, hw] at h ⊢
  rcases hb : m.memory.writeBlock m.cpu.index.toNat bs with ⟨memory, _ | f⟩
  case none =>
    rw [hb] at h
    exact Outcome.ext (h rfl memory) rfl rfl
  case some => rfl

theorem loadRegisters_withKept (x : Register)
    (h : (m.loadRegisters x).fault = none → k.dialect = m.dialect) :
    (m.withKept k).loadRegisters x = (m.loadRegisters x).withKept k := by
  have hr := m.memory.readBlock_restage k.staged m.cpu.index.toNat (x + 1)
  simp only [loadRegisters, withKept, hr] at h ⊢
  rcases hb : m.memory.readBlock m.cpu.index.toNat (x + 1) with ⟨bs, _ | f⟩
  case none =>
    rw [hb] at h
    let loaded := { m with cpu.registers := m.cpu.registers.overwrite bs }
    exact Outcome.ext (loaded.pointPast_withKept k (h rfl) x) rfl rfl
  case some => rfl

end

variable {m : Machine} {i : Instruction}

theorem execute_withKept {k : Kept} (hu : i.usesKept = false)
    (hd : i.isAmbiguous = true → (m.execute i).fault = none → k.dialect = m.dialect) :
    (m.withKept k).execute i = (m.execute i).withKept k := by
  cases i
  case ret | call | random | skipDown | skipUp | readDelay | awaitKey | setDelay | setSound =>
    cases hu
  case skipEqByte | skipNeByte | skipEq | skipNe => exact Outcome.ext (skipIf_withKept ..) rfl rfl
  case alu op x y   =>
    have he := m.eval_alu_congr op x y fun ha => hd ha rfl
    have hr := m.setResult_withKept k x (op.eval m.dialect (m.reg x) (m.reg y))
    exact Outcome.ext ((congrArg _ he).trans hr) rfl rfl
  case draw         => exact draw_withKept ..
  case storeDecimal => exact m.storeBytes_withKept k _ fun _ _ => rfl
  case store x      =>
    exact m.storeBytes_withKept k _ fun hf memory =>
      { m with memory }.pointPast_withKept k (hd rfl hf) x
  case load x       => exact m.loadRegisters_withKept k x (hd rfl)
  all_goals rfl

theorem kept_execute_of_usesKept (hu : i.usesKept = false) :
    (m.execute i).machine.kept = m.kept := by
  rw [kept_execute]
  cases i
  case ret | call | random | awaitKey | setDelay | setSound => cases hu
  all_goals rfl

-- An instruction that uses none of these parts does the same when they are changed, unless it is
-- the dialect that changes and one on which the dialects disagree.
theorem execute_mapKept (change : Kept → Kept) (hu : i.usesKept = false)
    (hd : i.isAmbiguous = true → (m.execute i).fault = none →
      (change m.kept).dialect = m.dialect) :
    (m.mapKept change).execute i = (m.execute i).mapKept change := by
  rw [mapKept, execute_withKept hu hd, ← kept_execute_of_usesKept hu]
  rfl

end Machine
end Chip8
