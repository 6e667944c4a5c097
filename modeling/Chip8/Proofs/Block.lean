import Chip8.Memory

namespace Chip8

-- The fault of a block of `n` bytes from `a` on, if it does not fit: it names the first byte of the
-- block that is out of bounds.
def blockFault (a n : Nat) : Option Fault :=
  if 0 < n ∧ 0x1000 < a + n then some (.outOfBounds (max a 0x1000)) else none

theorem blockFault_of_lt {a n : Nat} (h : a < 0x1000) :
    blockFault a (n + 1) = blockFault (a + 1) n := by
  simp only [blockFault]
  congr 1
  all_goals simp; omega

theorem blockFault_of_le {a n : Nat} (h : 0x1000 ≤ a) :
    blockFault a (n + 1) = some (.outOfBounds a) := by
  rw [blockFault, if_pos (by omega), Nat.max_eq_left h]

theorem blockFault_eq_some_iff {a n : Nat} {f : Fault} :
    blockFault a n = some f ↔ 0 < n ∧ 0x1000 ≤ a + n - 1 ∧ f = .outOfBounds (max a 0x1000) := by
  rw [blockFault, Option.ite_none_right_eq_some, Option.some.injEq, and_assoc, @eq_comm _ f]
  exact and_congr_right fun h => and_congr_left' <| by omega

theorem blockFault_eq_none_iff {a n : Nat} :
    blockFault a n = none ↔ n = 0 ∨ a + n ≤ 0x1000 := by
  simp only [blockFault, ite_eq_right_iff, reduceCtorEq, imp_false]
  omega

namespace Memory

variable {m : Memory}

-- The word at `a`, its high byte first.
def WordAt (m : Memory) (a : Nat) (w : UInt16) : Prop :=
  ∃ _ : a + 1 < 0x1000, w.toNat = 0x100 * m.bytes[a].toNat + m.bytes[a + 1].toNat

theorem toNat_join (high low : UInt8) :
    (high.toUInt16 <<< 8 ||| low.toUInt16).toNat = 0x100 * high.toNat + low.toNat := by
  have hh := high.toNat_lt
  have hl := low.toNat_lt
  have hs : (high.toUInt16 <<< 8).toNat = high.toNat <<< 8 := by
    have : high.toNat <<< 8 < 2 ^ 16 := by rw [Nat.shiftLeft_eq]; omega
    simpa using Nat.mod_eq_of_lt this
  rw [UInt16.toNat_or, hs, UInt8.toNat_toUInt16, ← Nat.shiftLeft_add_eq_or_of_lt hl,
      Nat.shiftLeft_eq, Nat.mul_comm]

theorem readWord_of_lt {a : UInt16} (h : a.toNat + 1 < 0x1000) :
    m.readWord a = .ok (m.bytes[a.toNat].toUInt16 <<< 8 ||| m.bytes[a.toNat + 1].toUInt16) := by
  have h' := Nat.lt_of_succ_lt h
  simp only [readWord, read, h, h', dif_pos]
  rfl

theorem readWord_of_le {a : UInt16} (h : 0xFFF ≤ a.toNat) :
    m.readWord a = .error (.outOfBounds (max a.toNat 0x1000)) := by
  by_cases ha : a.toNat < 0x1000
  case pos =>
    have : a.toNat = 0xFFF := by omega
    simp only [readWord, read, this]
    rfl
  case neg =>
    simp only [readWord, read, ha, dif_neg, not_false_eq_true]
    rw [Nat.max_eq_left (by omega)]
    rfl

theorem readWord_eq_ok_iff {a w : UInt16} : m.readWord a = .ok w ↔ m.WordAt a.toNat w := by
  by_cases h : a.toNat + 1 < 0x1000
  case pos =>
    rw [readWord_of_lt h, Except.ok.injEq, ← UInt16.toNat_inj, toNat_join, eq_comm]
    simp [WordAt, h]
  case neg =>
    rw [readWord_of_le (by omega)]
    simp [WordAt, h]

theorem readWord_eq_error_iff {a : UInt16} {f : Fault} :
    m.readWord a = .error f ↔ 0xFFF ≤ a.toNat ∧ f = .outOfBounds (max a.toNat 0x1000) := by
  by_cases h : a.toNat + 1 < 0x1000
  case pos =>
    rw [readWord_of_lt h]
    simp
    omega
  case neg =>
    have h' : 0xFFF ≤ a.toNat := by omega
    rw [readWord_of_le h', Except.error.injEq, eq_comm]
    exact (and_iff_right h').symm

theorem readBlock_fault (m : Memory) (a n : Nat) : (m.readBlock a n).2 = blockFault a n := by
  induction n generalizing a
  case zero => rfl
  case succ n ih =>
    by_cases h : a < 0x1000
    case pos => simp [readBlock, read, h, ih, blockFault_of_lt h]
    case neg => simp [readBlock, read, h, blockFault_of_le (Nat.not_lt.mp h)]

theorem getElem?_readBlock (m : Memory) (a n i : Nat) :
    (m.readBlock a n).1[i]? = if i < n then m.bytes[a + i]? else none := by
  induction n generalizing a i
  case zero => simp [readBlock]
  case succ n ih =>
    by_cases h : a < 0x1000
    case neg =>
      have : 0x1000 ≤ a + i := by omega
      simp [readBlock, read, h, this]
    case pos =>
      cases i
      case zero   => simp [readBlock, read, h]
      case succ i => simp [readBlock, read, h, ih, Nat.add_right_comm, Nat.add_assoc]

-- The bytes of a block, as far as memory goes.
theorem readBlock_bytes (m : Memory) (a n : Nat) :
    (m.readBlock a n).1 = (m.bytes.toList.drop a).take n := by
  ext1 i
  rw [getElem?_readBlock, List.getElem?_take, List.getElem?_drop, Vector.getElem?_toList]

theorem writeBlock_fault (m : Memory) (a : Nat) (bs : List UInt8) :
    (m.writeBlock a bs).2 = blockFault a bs.length := by
  induction bs generalizing m a
  case nil => rfl
  case cons b bs ih =>
    by_cases h : a < 0x1000
    case pos => simp [writeBlock, write, h, ih, blockFault_of_lt h]
    case neg => simp [writeBlock, write, h, blockFault_of_le (Nat.not_lt.mp h)]

theorem get_writeBlock (m : Memory) (a : Nat) (bs : List UInt8) (c : Address) :
    (m.writeBlock a bs).1.bytes.get c =
      (if a ≤ c then bs[c.val - a]? else none).getD (m.bytes.get c) := by
  change (m.writeBlock a bs).1.bytes[c] = Option.getD _ m.bytes[c]
  induction bs generalizing m a
  case nil => simp [writeBlock]
  case cons b bs ih =>
    by_cases h : a < 0x1000
    case neg =>
      have : ¬a ≤ c := by omega
      simp [writeBlock, write, h, this]
    case pos =>
      simp only [writeBlock, write, h, dif_pos, ih]
      rcases Nat.lt_trichotomy a c with hc | hc | hc
      · have hs : c.val - a = c - (a + 1) + 1 := by omega
        simp [Nat.succ_le_of_lt hc, Nat.le_of_lt hc, hs, Vector.getElem_set_ne, Nat.ne_of_lt hc]
      · subst hc
        have hl : ¬c.val + 1 ≤ c := by omega
        simp [hl]
      · have hl : ¬a ≤ c := Nat.not_le_of_gt hc
        have hl' : ¬a + 1 ≤ c := by omega
        simp [hl, hl', Vector.getElem_set_ne, Nat.ne_of_gt hc]

variable {a : Nat} {bs cs : List UInt8}

theorem writeBlock_preserves_byte {c : Address} (h : ¬(a ≤ c ∧ c < a + bs.length)) :
    (m.writeBlock a bs).1.bytes.get c = m.bytes.get c := by
  rw [get_writeBlock]
  split
  case isTrue hc =>
    have hl : bs.length ≤ c - a := by omega
    rw [List.getElem?_eq_none hl, Option.getD_none]
  case isFalse   => rfl

theorem writeBlock_fault_of_le (h : a + bs.length ≤ 0x1000) : (m.writeBlock a bs).2 = none :=
  (writeBlock_fault ..).trans <| blockFault_eq_none_iff.mpr <| .inr h

theorem writeBlock_append (h : (m.writeBlock a bs).2 = none) :
    m.writeBlock a (bs ++ cs) = (m.writeBlock a bs).1.writeBlock (a + bs.length) cs := by
  induction bs generalizing m a
  case nil => rfl
  case cons b bs ih =>
    simp only [List.cons_append, List.length_cons, writeBlock] at h ⊢
    split at h
    case h_1 => cases h
    case h_2 => simp only [ih h, Nat.add_right_comm, Nat.add_assoc]

-- The bytes from `a` on are those of the list.
def Holds (m : Memory) (a : Nat) (bs : List UInt8) : Prop :=
  m.readBlock a bs.length = (bs, none)

theorem holds_iff :
    m.Holds a bs ↔ (m.bytes.toList.drop a).take bs.length = bs ∧ blockFault a bs.length = none := by
  rw [Holds, Prod.ext_iff, readBlock_bytes, readBlock_fault]

theorem Holds.of_append (h : m.Holds a (bs ++ cs)) :
    m.Holds a bs ∧ m.Holds (a + bs.length) cs := by
  simp only [holds_iff, List.length_append, blockFault_eq_none_iff] at h ⊢
  have ⟨hm, hf⟩ := h
  rw [List.take_add, List.drop_drop] at hm
  have hl : ((m.bytes.toList.drop a).take bs.length).length = bs.length := by
    simp
    omega
  have ⟨hb, hc⟩ := List.append_inj hm hl
  exact ⟨⟨hb, by omega⟩, hc, by omega⟩

theorem holds_writeBlock (h : (m.writeBlock a bs).2 = none) : (m.writeBlock a bs).1.Holds a bs := by
  have hf := m.writeBlock_fault a bs ▸ h
  refine Prod.ext (List.ext_getElem? fun i => ?_) <| (readBlock_fault ..).trans hf
  rw [getElem?_readBlock]
  split
  case isFalse hi => exact (List.getElem?_eq_none <| Nat.not_lt.mp hi).symm
  case isTrue hi  =>
    have hc : a + i < 4096 := by
      have := blockFault_eq_none_iff.mp hf
      omega
    have hg : (m.writeBlock a bs).1.bytes[a + i] = bs[i] :=
      (m.get_writeBlock a bs ⟨a + i, hc⟩).trans <| by simp [hi]
    rw [Vector.getElem?_eq_getElem hc, List.getElem?_eq_getElem hi, hg]

end Memory
end Chip8
