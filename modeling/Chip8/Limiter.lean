namespace Chip8

@[ext]
structure Limiter where
  -- The processor may run while it has completed fewer cycles than this.
  bound : UInt64
  paused : Bool
  -- The bound while not paused.
  ceiling : UInt64
  deriving DecidableEq

namespace Limiter

def capped (ceiling : UInt64) : Limiter :=
  ⟨ceiling, false, ceiling⟩

def unlimited : Limiter :=
  capped 0xFFFFFFFFFFFFFFFF

-- Pauses after the cycles completed so far, or lets the processor run again.
def toggle (l : Limiter) (cycles : UInt64) : Limiter :=
  { l with paused := !l.paused, bound := if l.paused then l.ceiling else cycles }

-- One more cycle, while paused. The bound does not move past the greatest number of cycles.
def allowStep (l : Limiter) : Limiter :=
  if l.paused ∧ l.bound ≠ 0xFFFFFFFFFFFFFFFF then { l with bound := l.bound + 1 } else l

-- For a processor that starts again from no cycles.
def restart (l : Limiter) : Limiter :=
  { l with bound := if l.paused then 0 else l.ceiling }

def allows (l : Limiter) (cycles : UInt64) : Bool :=
  cycles < l.bound

end Limiter
end Chip8
