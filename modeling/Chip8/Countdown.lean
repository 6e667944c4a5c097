namespace Chip8

-- Goes down by one with each step of a clock, and stays at zero.
@[ext]
structure Countdown where
  count : UInt8 := 0
  deriving DecidableEq

namespace Countdown

-- Steps in a second.
def rate : Nat := 60

def isActive (t : Countdown) : Bool :=
  t.count ≠ 0

def tick (t : Countdown) : Countdown :=
  ⟨if t.count = 0 then 0 else t.count - 1⟩

theorem count_tick_toNat (t : Countdown) : t.tick.count.toNat = t.count.toNat - 1 := by
  by_cases h : t.count = 0
  · simp [tick, h]
  · have hn : t.count.toNat ≠ 0 := fun e => h (UInt8.toNat_inj.mp (by simpa using e))
    simp only [tick, if_neg h]
    rw [UInt8.toNat_sub_of_le _ _ (UInt8.le_iff_toNat_le.mpr (by simp; omega))]
    rfl

end Countdown
end Chip8
