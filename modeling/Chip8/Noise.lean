import Chip8.ChaCha

namespace Chip8

-- A stream of random bytes, and the place that has been reached in it.
@[ext]
structure Noise where
  stream : Nat → UInt8
  -- Bytes drawn so far.
  drawn : Nat

namespace Noise

-- The bytes that a generator gives for a seed, from the first one on.
def seeded (generate : UInt64 → Nat → UInt8) (seed : UInt64) : Noise where
  stream := generate seed
  drawn := 0

-- One step of the generator that spreads a seed over a key.
def spread (s : UInt64) : UInt64 :=
  s * 6364136223846793005 + 11634580027462260723

-- The word that the generator gives in a state.
def spreadWord (s : UInt64) : UInt32 :=
  let x := (((s >>> 18) ^^^ s) >>> 27).toUInt32
  let r := (s >>> 59).toUInt32
  x >>> r ||| x <<< ((32 - r) % 32)

-- The state after `n` steps.
def spreadBy (seed : UInt64) : Nat → UInt64
  | 0 => seed
  | n + 1 => spread (spreadBy seed n)

def keyOf (seed : UInt64) : ChaCha.Key :=
  Vector.ofFn fun i => spreadWord (spreadBy seed (i + 1))

-- The byte at place `n` of the stream of a seed: the low byte of one word. The blocks follow each
-- other without a gap.
def byteAt (seed : UInt64) (n : Nat) : UInt8 :=
  ((ChaCha.block (keyOf seed) (UInt64.ofNat (n / 16)))[n % 16]).toUInt8

def ofSeed : UInt64 → Noise :=
  seeded byteAt

def current (g : Noise) : UInt8 :=
  g.stream g.drawn

def next (g : Noise) : Noise :=
  { g with drawn := g.drawn + 1 }

end Noise
end Chip8
