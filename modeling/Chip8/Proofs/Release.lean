import Chip8.Keypad

namespace Chip8

namespace Key

theorem toByte_injective {j k : Key} (h : j.toByte = k.toByte) : j = k :=
  Fin.ext <| by rw [← j.toNat_toByte, h, k.toNat_toByte]

end Key

namespace Keypad

variable {p : Keypad} {j k : Key} {down : Bool}

-- The key was down before its latest move that has not been forgotten, and is up now.
structure IsReleased (p : Keypad) (k : Key) : Prop where
  down : p.wasDown k = true
  up   : p.isDown k = false

-- The key that is given to a register that waits.
structure IsLowestReleased (p : Keypad) (k : Key) : Prop where
  released : p.IsReleased k
  lowest   : ∀ j, p.IsReleased j → k ≤ j

theorem isReleased_iff : p.IsReleased k ↔ (p.wasDown k && !p.isDown k) = true := by
  rw [Bool.and_eq_true, Bool.not_eq_true']
  exact ⟨fun ⟨hd, hu⟩ => ⟨hd, hu⟩, fun ⟨hd, hu⟩ => ⟨hd, hu⟩⟩

theorem released?_eq_none_iff : p.released? = none ↔ ∀ k, ¬p.IsReleased k := by
  simp only [released?, List.find?_eq_none, List.mem_finRange, true_imp_iff, isReleased_iff]

theorem released?_eq_some_iff : p.released? = some k ↔ p.IsLowestReleased k := by
  simp only [released?, List.find?_eq_some_iff_getElem, ← isReleased_iff]
  constructor
  case mp =>
    intro ⟨hr, i, hi, hk, hl⟩
    have hi : i = k := by simpa [Fin.ext_iff] using hk
    refine ⟨hr, fun j hj => Nat.le_of_not_lt fun hlt => ?_⟩
    have hn := hl j (hi ▸ hlt)
    rw [Bool.not_eq_true', ← Bool.not_eq_true, ← isReleased_iff, List.getElem_finRange] at hn
    exact hn hj
  case mpr =>
    intro ⟨hr, hl⟩
    refine ⟨hr, k, by simp, by simp, fun j hj => ?_⟩
    rw [Bool.not_eq_true', ← Bool.not_eq_true, ← isReleased_iff, List.getElem_finRange]
    exact fun hn => absurd (hl _ hn) (Nat.not_le_of_lt hj)

theorem not_isReleased_forgetPrevious : ¬p.forgetPrevious.IsReleased k :=
  fun h => absurd h.down <| by simp [wasDown_forgetPrevious]

-- A key is released by the move that lets it go, and a move of another key leaves it as it is.
theorem isReleased_move_iff :
    (p.move k down).IsReleased j ↔
      if j = k then p.isDown k = true ∧ down = false else p.IsReleased j := by
  rw [isReleased_iff, wasDown_move, isDown_move]
  split
  next => simp
  next => rw [isReleased_iff]

end Keypad
end Chip8
