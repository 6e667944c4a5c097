import Chip8.Instruction
import Mathlib.Algebra.Group.Nat.Defs
import Mathlib.Logic.ExistsUnique

namespace Chip8

-- What a block of ones selects of a number.
theorem and_ones_mul_two_pow (n a b : Nat) :
    n &&& (2 ^ a - 1) * 2 ^ b = n / 2 ^ b % 2 ^ a * 2 ^ b := by
  apply Nat.eq_of_testBit_eq
  intro i
  simp only [Nat.testBit_and, Nat.testBit_mul_two_pow, Nat.testBit_mod_two_pow,
    Nat.testBit_div_two_pow, Nat.testBit_two_pow_sub_one]
  grind

namespace Word

-- A word consists of what a mask selects and of the rest.
theorem and_or_and_not (w m : Word) : w &&& m ||| w &&& ~~~m = w := by
  apply UInt16.eq_of_toBitVec_eq
  ext
  simp only [UInt16.toBitVec_or, UInt16.toBitVec_and, UInt16.toBitVec_not]
  grind

variable {a b m w : Word} {n : Nat}

-- Two words that share no bit of a mask can be told apart in their union.
theorem or_and (ha : a &&& m = a) (hb : b &&& ~~~m = b) : (a ||| b) &&& m = a := by
  rw [← ha, ← hb]
  apply UInt16.eq_of_toBitVec_eq
  ext
  simp only [UInt16.toBitVec_or, UInt16.toBitVec_and, UInt16.toBitVec_not]
  grind

theorem or_and_not (ha : a &&& m = a) (hb : b &&& ~~~m = b) : (a ||| b) &&& ~~~m = b := by
  rw [UInt16.or_comm]
  exact or_and hb <| by rwa [UInt16.not_not]

-- The digits from the second on, in their places, are what a mask leaves of a word.
theorem ofNat_digits (count : Nat) (w : Word)
    (hm : ~~~m = UInt16.ofNat ((16 ^ count - 1) * 16 ^ (3 - count))) :
    UInt16.ofNat (w.digits 2 count * 16 ^ (3 - count)) = w &&& ~~~m := by
  have hp (k : Nat) : 16 ^ k = 2 ^ (4 * k) := by rw [Nat.pow_mul]
  have hd : w.digits 2 count = w.toNat / 16 ^ (3 - count) % 16 ^ count := rfl
  rw [hm, hd, hp, hp, ← and_ones_mul_two_pow, UInt16.ofNat_and, UInt16.ofNat_toNat]

-- The operands of a word, each number in its digits, are what the mask of the pattern leaves.

theorem ofNat_nnn (w : Word) : UInt16.ofNat w.nnn = w &&& ~~~0xF000 := by
  rw [← ofNat_digits 3 w (by decide)]
  exact congrArg _ (Nat.mul_one _).symm

theorem ofNat_x_kk (w : Word) : UInt16.ofNat (w.x * 0x100 + w.kk.toNat) = w &&& ~~~0xF000 := by
  rw [← ofNat_digits 3 w (by decide)]
  congr 1
  simp only [x, kk, digits, UInt8.toNat_ofNat', Nat.pow_eq]
  omega

theorem ofNat_x_y_n (w : Word) :
    UInt16.ofNat (w.x * 0x100 + w.y * 0x10 + w.n) = w &&& ~~~0xF000 := by
  rw [← ofNat_digits 3 w (by decide)]
  congr 1
  simp only [x, y, n, digits, Nat.pow_eq]
  omega

theorem ofNat_x_y (w : Word) : UInt16.ofNat (w.x * 0x100 + w.y * 0x10) = w &&& ~~~0xF00F := by
  rw [← ofNat_digits 2 w (by decide)]
  congr 1
  simp only [x, y, digits, Nat.pow_eq]
  omega

theorem ofNat_x (w : Word) : UInt16.ofNat (w.x * 0x100) = w &&& ~~~0xF0FF :=
  ofNat_digits 1 w (by decide)

theorem ofNat_zero (w : Word) : UInt16.ofNat 0 = w &&& ~~~0xFFFF := by
  have hd : w.digits 2 0 = 0 := Nat.mod_one _
  rw [← ofNat_digits 0 w (by decide), hd, Nat.zero_mul]

-- A number is read from its digits again.

theorem nnn_ofNat (a : Address) : nnn (UInt16.ofNat a) = a := by
  apply Fin.ext
  simp only [nnn, digits, UInt16.toNat_ofNat', Nat.pow_eq]
  omega

theorem x_ofNat {x : Register} (h : n / 0x100 = x) : Word.x (UInt16.ofNat n) = x := by
  have := x.isLt
  apply Fin.ext
  simp only [Word.x, digits, UInt16.toNat_ofNat', Nat.pow_eq]
  omega

theorem y_ofNat {y : Register} (h : n / 0x10 % 0x10 = y) : Word.y (UInt16.ofNat n) = y := by
  apply Fin.ext
  simp only [Word.y, digits, UInt16.toNat_ofNat', Nat.pow_eq]
  omega

theorem n_ofNat {k : Nibble} (h : n % 0x10 = k) : Word.n (UInt16.ofNat n) = k := by
  apply Fin.ext
  simp only [Word.n, digits, UInt16.toNat_ofNat', Nat.pow_eq]
  omega

theorem kk_ofNat {kk : UInt8} (h : n % 0x100 = kk.toNat) : Word.kk (UInt16.ofNat n) = kk := by
  rw [← UInt8.toNat_inj]
  simp only [Word.kk, digits, UInt16.toNat_ofNat', UInt8.toNat_ofNat', Nat.pow_eq]
  omega

theorem x_ofNat_x_y (x y : Register) : Word.x (UInt16.ofNat (x * 0x100 + y * 0x10)) = x :=
  x_ofNat (by omega)

theorem y_ofNat_x_y (x y : Register) : Word.y (UInt16.ofNat (x * 0x100 + y * 0x10)) = y :=
  y_ofNat (by omega)

end Word

namespace Instruction

-- The operands of a word stand where the mask of its pattern is not set.
theorem ofNat_operandBits_ofFields (op : Opcode) (w : Word) :
    UInt16.ofNat (ofFields op w).operandBits = w &&& ~~~op.pattern.mask := by
  cases op
  case cls | ret => exact w.ofNat_zero
  case sys | jp | call | ldIndex | jpOffset => exact w.ofNat_nnn
  case seByte | sneByte | ldByte | addByte | rnd => exact w.ofNat_x_kk
  case drw => exact w.ofNat_x_y_n
  case se | ld | or | and | xor | add | sub | shr | subn | shl | sne => exact w.ofNat_x_y
  all_goals exact w.ofNat_x

theorem ofFields_alu (op : Alu) (w : Word) : ofFields op.opcode w = alu op w.x w.y := by
  cases op <;> rfl

-- The operands of an instruction are read from the word that they make.
theorem ofFields_operandBits (i : Instruction) :
    ofFields i.opcode (UInt16.ofNat i.operandBits) = i := by
  cases i
  case clear | ret => rfl
  case sys nnn | jump nnn | call nnn | setIndex nnn | jumpOffset nnn =>
    simp only [opcode, operandBits, ofFields, Word.nnn_ofNat]
  case skipEqByte x kk | skipNeByte x kk | setByte x kk | addByte x kk | random x kk =>
    have hk := kk.toNat_lt
    have hx : Word.x (UInt16.ofNat (x * 0x100 + kk.toNat)) = x := Word.x_ofNat (by omega)
    have hk : Word.kk (UInt16.ofNat (x * 0x100 + kk.toNat)) = kk := Word.kk_ofNat (by omega)
    simp only [opcode, operandBits, ofFields, hx, hk]
  case skipEq x y | skipNe x y =>
    simp only [opcode, operandBits, ofFields, Word.x_ofNat_x_y, Word.y_ofNat_x_y]
  case alu op x y =>
    simp only [opcode, operandBits, ofFields_alu, Word.x_ofNat_x_y, Word.y_ofNat_x_y]
  case draw x y n =>
    have hx : Word.x (UInt16.ofNat (x * 0x100 + y * 0x10 + n)) = x := Word.x_ofNat (by omega)
    have hy : Word.y (UInt16.ofNat (x * 0x100 + y * 0x10 + n)) = y := Word.y_ofNat (by omega)
    have hn : Word.n (UInt16.ofNat (x * 0x100 + y * 0x10 + n)) = n := Word.n_ofNat (by omega)
    simp only [opcode, operandBits, ofFields, hx, hy, hn]
  all_goals
    simp only [opcode, operandBits, ofFields, Word.x_ofNat (Nat.mul_div_cancel _ (by decide))]

end Instruction

namespace Opcode

variable {op op' : Opcode} {w : Word}

theorem fits_iff : op.pattern.fits w = true ↔ w &&& op.pattern.mask = op.pattern.bits := by
  simp only [Pattern.fits, beq_iff_eq]

-- Two patterns that one word fits agree where both masks are set. That of `sys` agrees with those of
-- `cls` and `ret`, and no others agree.
theorem eq_or_sys_of_fits (h : op.pattern.fits w = true) (h' : op'.pattern.fits w = true) :
    op = op' ∨ (op ∈ [cls, ret] ∧ op' = sys) ∨ (op = sys ∧ op' ∈ [cls, ret]) := by
  have table : ∀ op ∈ all, ∀ op' ∈ all,
      op.pattern.bits &&& op'.pattern.mask = op'.pattern.bits &&& op.pattern.mask →
      op = op' ∨ (op ∈ [cls, ret] ∧ op' = sys) ∨ (op = sys ∧ op' ∈ [cls, ret]) := by
    decide +kernel
  apply table op op.mem_all op' op'.mem_all
  rw [← fits_iff.mp h, ← fits_iff.mp h', UInt16.and_assoc, UInt16.and_assoc,
    UInt16.and_comm op.pattern.mask]

-- The exact patterns are tried first.
theorem ofWord?_of_mem (hm : op ∈ [cls, ret]) (h : op.pattern.fits w = true) :
    ofWord? w = some op := by
  have hm : op = cls ∨ op = ret := by simpa using hm
  rcases hm with rfl | rfl
  case inl => exact List.find?_cons_of_pos h
  case inr =>
    have hc : ¬cls.pattern.fits w = true := by
      intro hc
      have := eq_or_sys_of_fits hc h
      simp at this
    simp only [ofWord?, all, List.find?_cons, hc, h]

-- A word is of the kind whose pattern it fits, though `sys` has to stand back.
theorem ofWord?_eq_some_iff : ofWord? w = some op ↔
    op.pattern.fits w = true ∧ (op = sys → ∀ op' ∈ [cls, ret], op'.pattern.fits w = false) := by
  constructor
  case mp =>
    intro h
    refine ⟨fits_of_ofWord? h, fun hs op' hm => ?_⟩
    rw [← Bool.not_eq_true]
    intro hf
    cases h.symm.trans <| ofWord?_of_mem hm hf
    simp [hs] at hm
  case mpr =>
    intro ⟨hf, hs⟩
    cases hw : ofWord? w
    case none     => simp [ofWord?_eq_none_iff.mp hw] at hf
    case some op' =>
      have hf' := fits_of_ofWord? hw
      rcases eq_or_sys_of_fits hf hf' with rfl | ⟨hm, _⟩ | ⟨rfl, hm⟩
      · rfl
      · exact hw.symm.trans <| ofWord?_of_mem hm hf
      · simp [hs rfl op' hm] at hf'

-- In a word of an exact pattern no bit is open.
theorem eq_bits_of_fits (hm : op ∈ [cls, ret]) (h : op.pattern.fits w = true) :
    w = op.pattern.bits := by
  have full : ∀ op ∈ [cls, ret], op.pattern.mask = -1 := by decide
  rw [← fits_iff.mp h, full op hm, UInt16.and_neg_one]

theorem bits_and_mask (op : Opcode) : op.pattern.bits &&& op.pattern.mask = op.pattern.bits := by
  cases op <;> rfl

-- The table has the kinds in the order of their definition.
theorem getElem?_all_ctorIdx (op : Opcode) : all[op.ctorIdx]? = some op := by
  cases op <;> rfl

end Opcode

namespace Instruction

variable {i : Instruction} {w : Word}

theorem encode_ofFields {op : Opcode} (h : op.pattern.fits w = true) :
    (ofFields op w).encode = w := by
  rw [encode, opcode_ofFields, ofNat_operandBits_ofFields, ← Opcode.fits_iff.mp h]
  exact w.and_or_and_not _

theorem encode_of_ofWord? (h : ofWord? w = some i) : i.encode = w := by
  obtain ⟨op, ho, rfl⟩ := Option.map_eq_some_iff.mp h
  exact encode_ofFields <| Opcode.fits_of_ofWord? ho

-- The operands stand where the mask of the pattern is not set.
theorem ofNat_operandBits_and (i : Instruction) :
    UInt16.ofNat i.operandBits &&& ~~~i.opcode.pattern.mask = UInt16.ofNat i.operandBits := by
  rw [← ofNat_operandBits_ofFields, ofFields_operandBits]

theorem fits_encode (i : Instruction) : i.opcode.pattern.fits i.encode = true :=
  Opcode.fits_iff.mpr <| Word.or_and i.opcode.bits_and_mask i.ofNat_operandBits_and

theorem ofFields_encode (i : Instruction) : ofFields i.opcode i.encode = i := by
  have hb : i.encode &&& ~~~i.opcode.pattern.mask = UInt16.ofNat i.operandBits :=
    Word.or_and_not i.opcode.bits_and_mask i.ofNat_operandBits_and
  have h := (ofFields i.opcode i.encode).ofFields_operandBits
  rw [opcode_ofFields, ofNat_operandBits_ofFields, hb] at h
  exact h.symm.trans i.ofFields_operandBits

-- The word of an instruction is read as this instruction, if it is not taken for an exact pattern.
theorem ofWord?_encode (h₀ : i ≠ .sys 0x0E0) (hE : i ≠ .sys 0x0EE) :
    ofWord? i.encode = some i := by
  have ho : Opcode.ofWord? i.encode = some i.opcode := by
    refine Opcode.ofWord?_eq_some_iff.mpr ⟨i.fits_encode, fun hs op hm => ?_⟩
    rw [← Bool.not_eq_true]
    intro hf
    have hi : i = ofFields .sys op.pattern.bits := by
      rw [← hs, ← Opcode.eq_bits_of_fits hm hf, ofFields_encode]
    have taken : ∀ op ∈ [Opcode.cls, .ret],
        ofFields .sys op.pattern.bits ∈ [sys 0x0E0, sys 0x0EE] := by decide
    have hi := hi ▸ taken op hm
    simp [h₀, hE] at hi
  rw [ofWord?, ho, Option.map_some, ofFields_encode]

theorem existsUnique_ofWord?_iff :
    (∃! w, ofWord? w = some i) ↔ i ≠ .sys 0x0E0 ∧ i ≠ .sys 0x0EE := by
  constructor
  case mp =>
    intro ⟨w, hw, _⟩
    dsimp only at hw
    rw [← encode_of_ofWord? hw] at hw
    constructor
    all_goals
      rintro rfl
      revert hw
      decide
  case mpr =>
    intro ⟨h₀, hE⟩
    exact ⟨i.encode, ofWord?_encode h₀ hE, fun w hw => (encode_of_ofWord? hw).symm⟩

theorem ofWord?_eq_none_iff :
    ofWord? w = none ↔ ∀ op ∈ Opcode.all, op.pattern.fits w = false := by
  simp [ofWord?, Opcode.ofWord?]

-- Each word is what the pattern of its kind and its operands make, so no two words are read as one
-- instruction. Every instruction is read from a word, but for the two calls of the host whose words
-- mean something else. A word is no instruction exactly if it fits no row of the table.
theorem decoding_loses_nothing :
    (∀ w₁ w₂ i, ofWord? w₁ = some i → ofWord? w₂ = some i → w₁ = w₂) ∧
    (∀ w i, ofWord? w = some i →
      Opcode.ofWord? w = some i.opcode ∧ i = ofFields i.opcode w ∧
      w = i.opcode.pattern.bits ||| UInt16.ofNat i.operandBits ∧
      w &&& i.opcode.pattern.mask = i.opcode.pattern.bits) ∧
    (∀ i, (∃! w, ofWord? w = some i) ↔ i ≠ sys 0x0E0 ∧ i ≠ sys 0x0EE) ∧
    (∀ w, ofWord? w = none ↔ ∀ op ∈ Opcode.all, op.pattern.fits w = false) ∧
    (∀ w, ∀ op ∈ [Opcode.cls, Opcode.ret], op.pattern.fits w = true →
      Opcode.sys.pattern.fits w = true ∧ ofWord? w = some (ofFields op w)) ∧
    ∀ op : Opcode, Opcode.all[op.ctorIdx]? = some op := by
  refine ⟨fun w₁ w₂ i h₁ h₂ => ?injective, fun w i h => ?parts, fun i => existsUnique_ofWord?_iff,
    fun w => ofWord?_eq_none_iff, fun w op hm hf => ?exact, Opcode.getElem?_all_ctorIdx⟩
  case injective => exact (encode_of_ofWord? h₁).symm.trans <| encode_of_ofWord? h₂
  case parts =>
    have ho : Opcode.ofWord? w = some i.opcode := by rw [← map_opcode_ofWord?, h]; rfl
    have he := encode_of_ofWord? h
    have hf := Opcode.fits_iff.mp <| Opcode.fits_of_ofWord? ho
    exact ⟨ho, he ▸ i.ofFields_encode.symm, he.symm, hf⟩
  case exact =>
    have fits : ∀ op ∈ [Opcode.cls, .ret], Opcode.sys.pattern.fits op.pattern.bits = true := by
      decide
    rw [ofWord?, Opcode.ofWord?_of_mem hm hf]
    exact ⟨Opcode.eq_bits_of_fits hm hf ▸ fits op hm, rfl⟩

-- A shift to the right, of which the second register counts though its text does not show it.
theorem decoding_loses_nothing_of_shr :
    ofWord? 0x8A16 = some (alu .shr 0xA 1) ∧
    (∀ w, ofWord? w = some (alu .shr 0xA 1) → w = 0x8A16) ∧
    (0x8A16 : Word) = 0x8006 ||| UInt16.ofNat 0x0A10 ∧
    (∃! w, ofWord? w = some (alu .shr 0xA 1)) ∧
    ¬(∃! w, ofWord? w = some (sys 0x0E0)) ∧ ofWord? 0x00E0 = some clear := by
  have hw : ofWord? 0x8A16 = some (alu .shr 0xA 1) := by decide
  have ⟨injective, parts, unique, _, exact, _⟩ := decoding_loses_nothing
  have ⟨_, _, bits, _⟩ := parts _ _ hw
  have ⟨_, hc⟩ := exact 0x00E0 .cls (by decide) (by decide)
  exact ⟨hw, fun w h => injective _ _ _ h hw, bits, (unique _).mpr (by decide),
    fun h => absurd ((unique _).mp h) (by decide), hc⟩

end Instruction
end Chip8
