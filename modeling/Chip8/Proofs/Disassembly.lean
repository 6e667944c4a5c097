import Chip8.Instruction.Assembly
import Chip8.Machine.Tick
import Chip8.Proofs.Decoding
import Chip8.Proofs.Legible

namespace Chip8

theorem Register.name_injective : Function.Injective Register.name := by
  intro r s
  decide +revert

namespace Operand

def isTextChar (c : Char) : Bool :=
  c.isAlphanum || c == '[' || c == ']'

-- The first character of the text. No two kinds of operand share it.
def initial : Operand → Char
  | register _ => 'V'
  | number ..  => '0'
  | index      => 'I'
  | memory     => '['
  | delay      => 'D'
  | sound      => 'S'
  | key        => 'K'
  | glyph      => 'F'
  | decimal    => 'B'

theorem head?_text (o : Operand) : o.text.toList.head? = some o.initial := by
  cases o
  case register r => decide +revert
  case number     => simp [text, Numeral.hex, initial]
  all_goals rfl

-- The text of a number does not tell how many digits it has at least.
def unpadded : Operand → Operand
  | number _ n => number 0 n
  | o          => o

theorem unpadded_factorsThrough_text : unpadded.FactorsThrough text := by
  intro o o' h
  have hi : some o.initial = some o'.initial := by rw [← head?_text, ← head?_text, h]
  cases o <;> cases o' <;> cases hi
  case register.register r r' => exact congrArg register <| Register.name_injective h
  case number.number          => exact congrArg (number 0) <| Numeral.eq_of_hex_eq h
  all_goals rfl

theorem map_unpadded_eq_of_map_text_eq {os os' : List Operand} (h : os.map text = os'.map text) :
    os.map unpadded = os'.map unpadded := by
  have : Nonempty Operand := ⟨.index⟩
  have ⟨read, hr⟩ := Function.factorsThrough_iff unpadded |>.mp unpadded_factorsThrough_text
  rw [hr, ← List.map_map, ← List.map_map, h]

theorem all_name : ∀ r : Register, r.name.toList.all isTextChar = true := by
  decide

theorem legible_text : Legible isTextChar text where
  chars o c hc := by
    cases o
    case register r     => exact List.all_eq_true.mp (all_name r) c hc
    case number width n => simp [isTextChar, (Numeral.legible_hex width).chars n c hc]
    all_goals exact List.all_eq_true.mp rfl c hc
  ne_nil o     := by
    intro h
    have hi := o.head?_text
    rw [h] at hi
    cases hi

theorem intercalate_text_append_iff {os os' : List Operand} {r s : List Char} :
    (String.intercalate ", " (os.map text)).toList ++ '\n' :: r =
      (String.intercalate ", " (os'.map text)).toList ++ '\n' :: s ↔
        os.map text = os'.map text ∧ r = s :=
  legible_text.intercalate_append_cons_iff rfl rfl (by decide)

end Operand

namespace Instruction

variable {α β ν μ : Type} {r s : List Char}

theorem leftInverse_map {f : α → β} {f' : β → α} {g : ν → μ} {g' : μ → ν}
    (hf : Function.LeftInverse f' f) (hg : Function.LeftInverse g' g) :
    Function.LeftInverse (map f' g') (map f g) := by
  intro i
  cases i
  all_goals simp [map, hf _, hg _]

theorem widen_injective : Function.Injective widen := by
  have ha : Function.LeftInverse (fun w : UInt16 => Fin.ofNat 0x1000 w.toNat)
      (fun a : Address => UInt16.ofNat a) := by
    intro a
    ext
    simp
  have hn : Function.LeftInverse (fun b : UInt8 => Fin.ofNat 16 b.toNat)
      (fun n : Nibble => UInt8.ofNat n) := by
    intro n
    ext
    simp
  exact (leftInverse_map ha hn).injective

section

variable {i j k : Instruction α ν}

theorem eq_shr_or_eq_shl {op : Alu} (h : op ∈ [Alu.shr, .shl]) : op = .shr ∨ op = .shl := by
  simpa using h

-- Two instructions with the same text: they may be two shifts that differ in the register that is
-- not shown.
inductive LooksLike : Instruction α ν → Instruction α ν → Prop
  | refl (i : Instruction α ν) : LooksLike i i
  | shift {op : Alu} (h : op ∈ [Alu.shr, .shl]) (x y z : Register) :
    LooksLike (alu op x y) (alu op x z)

-- As it is read again from the text, which leaves out one register of a shift.
def shown : Instruction α ν → Instruction α ν
  | alu .shr x _ => alu .shr x 0
  | alu .shl x _ => alu .shl x 0
  | i            => i

namespace LooksLike

theorem symm : i.LooksLike j → j.LooksLike i
  | refl i        => refl i
  | shift h x y z => shift h x z y

theorem trans : i.LooksLike j → j.LooksLike k → i.LooksLike k
  | h, refl _                    => h
  | refl _, h                    => h
  | shift h x y _, shift _ _ _ z => shift h x y z

end LooksLike

theorem looksLike_shown (i : Instruction α ν) : i.LooksLike i.shown := by
  unfold shown
  split
  case h_1 | h_2 => exact .shift (by decide) ..
  case h_3       => exact .refl _

theorem looksLike_iff_shown : i.LooksLike j ↔ i.shown = j.shown := by
  constructor
  case mp  =>
    rintro (_ | ⟨hs, x, y, z⟩)
    case refl  => rfl
    case shift => rcases eq_shr_or_eq_shl hs with rfl | rfl <;> rfl
  case mpr => exact fun h => i.looksLike_shown.trans <| h ▸ j.looksLike_shown.symm

theorem shown_map (f : α → β) (g : ν → μ) (i : Instruction α ν) :
    (i.map f g).shown = i.shown.map f g := by
  cases i
  case alu op x y => cases op <;> rfl
  all_goals rfl

theorem isAlphanum_mnemonic (i : Instruction α ν) :
    ∀ c ∈ i.mnemonic.toList, c.isAlphanum = true := by
  cases i
  case alu op _ _ => cases op <;> simp [mnemonic, Alu.mnemonic]
  all_goals simp [mnemonic]

theorem mnemonic_append_cons_iff {c d : Char} (hc : c.isAlphanum = false)
    (hd : d.isAlphanum = false) :
    i.mnemonic.toList ++ c :: r = j.mnemonic.toList ++ d :: s ↔
      i.mnemonic = j.mnemonic ∧ c = d ∧ r = s := by
  rw [append_cons_inj i.isAlphanum_mnemonic j.isAlphanum_mnemonic hc hd, String.toList_inj]

end

theorem looksLike_widen_iff {i j : Instruction} : i.widen.LooksLike j.widen ↔ i.LooksLike j := by
  rw [looksLike_iff_shown, looksLike_iff_shown, widen, shown_map, shown_map]
  exact widen_injective.eq_iff

-- The instruction that a mnemonic and operands stand for. The register that the text of a shift
-- leaves out is taken to be `V0`.
def assemble? : String → List Operand → Option (Instruction UInt16 UInt8)
  | "CLS",  []                                      => some clear
  | "RET",  []                                      => some ret
  | "SYS",  [.number _ nnn]                         => some (sys (.ofNat nnn))
  | "JP",   [.number _ nnn]                         => some (jump (.ofNat nnn))
  | "JP",   [.register 0, .number _ nnn]            => some (jumpOffset (.ofNat nnn))
  | "CALL", [.number _ nnn]                         => some (call (.ofNat nnn))
  | "SE",   [.register x, .number _ kk]             => some (skipEqByte x (.ofNat kk))
  | "SE",   [.register x, .register y]              => some (skipEq x y)
  | "SNE",  [.register x, .number _ kk]             => some (skipNeByte x (.ofNat kk))
  | "SNE",  [.register x, .register y]              => some (skipNe x y)
  | "LD",   [.register x, .number _ kk]             => some (setByte x (.ofNat kk))
  | "LD",   [.register x, .register y]              => some (alu .copy x y)
  | "LD",   [.index, .number _ nnn]                 => some (setIndex (.ofNat nnn))
  | "LD",   [.register x, .delay]                   => some (readDelay x)
  | "LD",   [.register x, .key]                     => some (awaitKey x)
  | "LD",   [.delay, .register x]                   => some (setDelay x)
  | "LD",   [.sound, .register x]                   => some (setSound x)
  | "LD",   [.glyph, .register x]                   => some (pointGlyph x)
  | "LD",   [.decimal, .register x]                 => some (storeDecimal x)
  | "LD",   [.memory, .register x]                  => some (store x)
  | "LD",   [.register x, .memory]                  => some (load x)
  | "ADD",  [.register x, .number _ kk]             => some (addByte x (.ofNat kk))
  | "ADD",  [.register x, .register y]              => some (alu .add x y)
  | "ADD",  [.index, .register x]                   => some (addIndex x)
  | "OR",   [.register x, .register y]              => some (alu .or x y)
  | "AND",  [.register x, .register y]              => some (alu .and x y)
  | "XOR",  [.register x, .register y]              => some (alu .xor x y)
  | "SUB",  [.register x, .register y]              => some (alu .sub x y)
  | "SUBN", [.register x, .register y]              => some (alu .subn x y)
  | "SHR",  [.register x]                           => some (alu .shr x 0)
  | "SHL",  [.register x]                           => some (alu .shl x 0)
  | "RND",  [.register x, .number _ kk]             => some (random x (.ofNat kk))
  | "DRW",  [.register x, .register y, .number _ n] => some (draw x y (.ofNat n))
  | "SKP",  [.register x]                           => some (skipDown x)
  | "SKNP", [.register x]                           => some (skipUp x)
  | _,      _                                       => none

section

variable {i j : Instruction UInt16 UInt8}

theorem assemble?_eq_shown (i : Instruction UInt16 UInt8) :
    assemble? i.mnemonic (i.operands.map Operand.unpadded) = some i.shown := by
  cases i
  case alu op x y => cases op <;> rfl
  case sys | jump | call | setIndex | jumpOffset =>
    exact congrArg some <| congrArg _ UInt16.ofNat_toNat
  case skipEqByte | skipNeByte | setByte | addByte | random | draw =>
    exact congrArg some <| congrArg _ UInt8.ofNat_toNat
  all_goals rfl

theorem looksLike_iff : i.LooksLike j ↔
    i.mnemonic = j.mnemonic ∧ i.operands.map Operand.text = j.operands.map Operand.text := by
  constructor
  case mp  =>
    rintro (_ | ⟨hs, x, y, z⟩)
    case refl  => exact ⟨rfl, rfl⟩
    case shift => rcases eq_shr_or_eq_shl hs with rfl | rfl <;> exact ⟨rfl, rfl⟩
  case mpr =>
    intro ⟨hm, ho⟩
    have h := i.assemble?_eq_shown
    rw [hm, Operand.map_unpadded_eq_of_map_text_eq ho, assemble?_eq_shown] at h
    exact looksLike_iff_shown.mpr <| Option.some.inj h.symm

-- What stands before the end of a line is told from the text.
theorem text_append_iff :
    i.text.toList ++ '\n' :: r = j.text.toList ++ '\n' :: s ↔ i.LooksLike j ∧ r = s := by
  have hs : Char.isAlphanum ' ' = false := rfl
  have hn : Char.isAlphanum '\n' = false := rfl
  rw [looksLike_iff]
  unfold text
  cases i.operands <;> cases j.operands
  case nil.nil   => simp [mnemonic_append_cons_iff hn hn]
  case nil.cons  => simp [mnemonic_append_cons_iff hn hs]
  case cons.nil  => simp [mnemonic_append_cons_iff hs hn]
  case cons.cons =>
    simp [-String.toList_intercalate, -List.map_cons, mnemonic_append_cons_iff hs hs,
      Operand.intercalate_text_append_iff, and_assoc]

theorem text_eq_iff : i.text = j.text ↔ i.LooksLike j := by
  have h := @text_append_iff [] [] i j
  rwa [List.append_left_inj, and_iff_left rfl, String.toList_inj] at h

end

variable {i j : Instruction}

theorem assembly_eq_iff : i.assembly = j.assembly ↔ i.LooksLike j :=
  text_eq_iff.trans looksLike_widen_iff

theorem ofWord?_eq_alu_iff {w : Word} {op : Alu} {x y : Register} :
    ofWord? w = some (alu op x y) ↔
      op.opcode.pattern.fits w = true ∧ w.x = x ∧ w.y = y := by
  have hn : op.opcode ≠ .sys := by cases op <;> decide
  constructor
  case mp  =>
    intro h
    have ho : Opcode.ofWord? w = some op.opcode := by rw [← map_opcode_ofWord?, h]; rfl
    rw [ofWord?, ho, Option.map_some, ofFields_alu] at h
    cases h
    exact ⟨Opcode.fits_of_ofWord? ho, rfl, rfl⟩
  case mpr =>
    rintro ⟨hf, rfl, rfl⟩
    have ho : Opcode.ofWord? w = some op.opcode :=
      Opcode.ofWord?_eq_some_iff.mpr ⟨hf, fun h => absurd h hn⟩
    rw [ofWord?, ho, Option.map_some, ofFields_alu]

-- Two words that differ in nothing but the second register of a shift.
def DifferUnshown (w₁ w₂ : Word) : Prop :=
  ∃ op ∈ [Alu.shr, .shl], op.opcode.pattern.fits w₁ = true ∧ op.opcode.pattern.fits w₂ = true ∧
    w₁.x = w₂.x ∧ w₁.y ≠ w₂.y

theorem looksLike_iff_of_ofWord? {w₁ w₂ : Word} (h₁ : ofWord? w₁ = some i)
    (h₂ : ofWord? w₂ = some j) : i.LooksLike j ↔ w₁ = w₂ ∨ DifferUnshown w₁ w₂ := by
  constructor
  case mp  =>
    rintro (_ | ⟨hs, x, y, z⟩)
    case refl  => exact .inl <| (encode_of_ofWord? h₁).symm.trans <| encode_of_ofWord? h₂
    case shift =>
      have ⟨hf₁, hx₁, hy₁⟩ := ofWord?_eq_alu_iff.mp h₁
      have ⟨hf₂, hx₂, hy₂⟩ := ofWord?_eq_alu_iff.mp h₂
      by_cases hy : y = z
      case pos => exact .inl <| (encode_of_ofWord? h₁).symm.trans <| hy ▸ encode_of_ofWord? h₂
      case neg => exact .inr ⟨_, hs, hf₁, hf₂, hx₁.trans hx₂.symm, hy₁ ▸ hy₂ ▸ hy⟩
  case mpr =>
    rintro (rfl | ⟨op, hs, hf₁, hf₂, hx, _⟩)
    · cases h₁.symm.trans h₂
      exact .refl _
    · cases h₁.symm.trans <| ofWord?_eq_alu_iff.mpr ⟨hf₁, rfl, rfl⟩
      cases h₂.symm.trans <| ofWord?_eq_alu_iff.mpr ⟨hf₂, hx.symm, rfl⟩
      exact .shift hs ..

end Instruction

namespace Machine

open Instruction

variable {m : Machine} {i j : Instruction} {op : Alu} {x y z : Register}

-- Two machines that differ at most in the last instruction, which has the same text in both.
structure Resembles (m₁ m₂ : Machine) : Prop where
  last : m₁.cpu.last.map assembly = m₂.cpu.last.map assembly
  rest : m₂ = { m₁ with cpu.last := m₂.cpu.last }

-- What two instructions lead to, read from two words: the same, but for the text of the word.
structure ActAlike (m : Machine) (w₁ w₂ : Word) (i₁ i₂ : Instruction) : Prop where
  outcome : m.execute i₁ = m.execute i₂
  value   : (m.runInstruction w₁ i₁).value.Resembles (m.runInstruction w₂ i₂).value
  reports : (m.runInstruction w₁ i₁).reports.tail = (m.runInstruction w₂ i₂).reports.tail

theorem eval_shift (hs : op ∈ [Alu.shr, .shl]) {d : Dialect} {a b c : UInt8}
    (h : d = .modern ∨ b = c) : op.eval d a b = op.eval d a c := by
  rcases h with rfl | rfl
  case inr => rfl
  case inl => rcases eq_shr_or_eq_shl hs with rfl | rfl <;> rfl

theorem resembles_complete_setResult (m : Machine) (x : Register) (h : i.assembly = j.assembly) :
    (res : UInt8 × Option UInt8) →
    ((m.start i).setResult x res).complete.Resembles ((m.start j).setResult x res).complete
  | (_, none) | (_, some _) => ⟨congrArg some h, rfl⟩

theorem actAlike_refl (m : Machine) (w : Word) (i : Instruction) : m.ActAlike w w i i :=
  ⟨rfl, ⟨rfl, rfl⟩, rfl⟩

theorem actAlike_shift (w₁ w₂ : Word) (hs : op ∈ [Alu.shr, .shl])
    (h : m.dialect = .modern ∨ m.reg y = m.reg z) :
    m.ActAlike w₁ w₂ (alu op x y) (alu op x z) := by
  have he : op.eval m.dialect (m.reg x) (m.reg y) = op.eval m.dialect (m.reg x) (m.reg z) :=
    eval_shift hs h
  have ht : (alu op x y).assembly = (alu op x z).assembly := assembly_eq_iff.mpr <| .shift hs ..
  refine ⟨?outcome, ?value, rfl⟩
  case outcome => simp only [execute, he]
  case value   =>
    have hv (w : Word) (y : Register) : (m.runInstruction w (alu op x y)).value =
        ((m.start (alu op x y)).setResult x
          (op.eval m.dialect (m.reg x) (m.reg y))).complete := rfl
    rw [hv, hv, he]
    exact m.resembles_complete_setResult x ht _

-- Instructions have the same text if and only if they are read from the same word, or from two words
-- of one kind of shift that differ in the second register. Then they do the same to every machine
-- that does not look at this register or finds the same in both.
theorem assembly_determines_effect {w₁ w₂ : Word} {i₁ i₂ : Instruction}
    (h₁ : ofWord? w₁ = some i₁) (h₂ : ofWord? w₂ = some i₂) :
    (i₁.assembly = i₂.assembly ↔ w₁ = w₂ ∨ DifferUnshown w₁ w₂) ∧
    (i₁.assembly = i₂.assembly → ∀ m : Machine,
      m.dialect = .modern ∨ m.reg w₁.y = m.reg w₂.y → m.ActAlike w₁ w₂ i₁ i₂) := by
  have hw : i₁.assembly = i₂.assembly ↔ w₁ = w₂ ∨ DifferUnshown w₁ w₂ := by
    rw [assembly_eq_iff, looksLike_iff_of_ofWord? h₁ h₂]
  refine ⟨hw, fun ht m hy => ?_⟩
  rcases hw.mp ht with rfl | ⟨op, hs, hf₁, hf₂, hx, _⟩
  · cases h₁.symm.trans h₂
    exact m.actAlike_refl ..
  · cases h₁.symm.trans <| ofWord?_eq_alu_iff.mpr ⟨hf₁, rfl, rfl⟩
    cases h₂.symm.trans <| ofWord?_eq_alu_iff.mpr ⟨hf₂, hx.symm, rfl⟩
    exact actAlike_shift _ _ hs hy

-- Shifts of `VA` by two words, in the older dialect with the same in `V1` and `V2`.
theorem assembly_determines_effect_of_shift : ∃ (m : Machine) (i₁ i₂ : Instruction),
    ofWord? 0x8A16 = some i₁ ∧ ofWord? 0x8A26 = some i₂ ∧ i₁ ≠ i₂ ∧
    i₁.assembly = "SHR VA" ∧ i₂.assembly = "SHR VA" ∧ DifferUnshown 0x8A16 0x8A26 ∧
    m.dialect = .compatible ∧ m.reg 1 = 0x35 ∧ m.ActAlike 0x8A16 0x8A26 i₁ i₂ := by
  let start := fresh .mute .compatible .unlimited ⟨fun _ => 0, 0⟩
  let m := (start.setReg 1 0x35).setReg 2 0x35
  have h₁ : ofWord? 0x8A16 = some (alu .shr 0xA 1) := by decide
  have h₂ : ofWord? 0x8A26 = some (alu .shr 0xA 2) := by decide
  have ⟨same, alike⟩ := assembly_determines_effect h₁ h₂
  have ht : (alu .shr 0xA 1).assembly = (alu .shr 0xA 2).assembly := rfl
  have hr : m.reg 1 = 0x35 := by decide
  refine ⟨m, _, _, h₁, h₂, by decide, by decide, by decide, ?_, rfl, hr, alike ht m (.inr ?_)⟩
  · exact (same.mp ht).resolve_left (by decide)
  · exact hr.trans (by decide)

end Machine
end Chip8
