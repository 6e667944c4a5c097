import Chip8.Fault

namespace Chip8

-- The return addresses of the calls under way. The innermost call comes first.
@[ext]
structure CallStack where
  returns : List UInt16 := []
  depth_le : returns.length ≤ 16 := by decide
  deriving DecidableEq

namespace CallStack

-- The greatest depth.
def capacity : Nat := 16

def depth (s : CallStack) : Nat :=
  s.returns.length

-- The outermost call comes first.
def toList (s : CallStack) : List UInt16 :=
  s.returns.reverse

-- `pc` is the address of the call, for the fault.
def push (s : CallStack) (address pc : UInt16) : Except Fault CallStack :=
  if h : s.depth < capacity then .ok ⟨address :: s.returns, h⟩ else .error (.stackOverflow pc)

-- The address to return to, and the stack below it. `pc` is the address of the return.
def pop (s : CallStack) (pc : UInt16) : Except Fault (UInt16 × CallStack) :=
  match s with
  | ⟨[], _⟩ => .error (.stackUnderflow pc)
  | ⟨a :: as, h⟩ => .ok (a, ⟨as, Nat.le_of_succ_le h⟩)

theorem toList_of_push {s t : CallStack} {address pc : UInt16} (h : s.push address pc = .ok t) :
    t.toList = s.toList ++ [address] := by
  simp only [push] at h
  split at h
  · cases h
    simp [toList]
  · cases h

theorem toList_of_pop {s t : CallStack} {address pc : UInt16} (h : s.pop pc = .ok (address, t)) :
    s.toList = t.toList ++ [address] := by
  rcases s with ⟨_ | ⟨a, as⟩, hs⟩
  · cases h
  · cases h
    simp [toList]

end CallStack
end Chip8
