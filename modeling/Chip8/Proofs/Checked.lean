import Chip8.Machine.Event

namespace Chip8

-- What breaks down when something that has been relied on does not hold.
inductive Breakdown
  -- There are only `size` places.
  | place (index size : Nat)
  | cell (e : NoSuchCell)
  -- The range is no part of `size` places.
  | range (first beyond size : Nat)
  -- Bytes are copied to a range of another length.
  | lengths (source target : Nat)
  -- The number has more bits than there is room for.
  | overflow (width n : Nat)
  -- The difference is negative.
  | underflow (a b : Nat)
  -- The shift moves a number by all its bits or more.
  | shift (width places : Nat)
  -- The program to be staged is longer than a program may be.
  | program (size : Nat)
  -- More calls are under way than there may be.
  | calls (depth : Nat)
  deriving DecidableEq

abbrev Checked := Except Breakdown

namespace Checked

variable {α β σ : Type}

@[simp] theorem ok_bind (a : α) (f : α → Checked β) : (Except.ok a >>= f) = f a :=
  rfl

@[simp] theorem pure_eq_ok (a : α) : (pure a : Checked α) = .ok a :=
  rfl

-- Numbers.

-- The first number that has more bits.
def limit (width : Nat) : Nat :=
  Nat.pow 2 width

-- The bits of the numbers by which a host counts places, as few as they may be.
def placeWidth : Nat := 32

theorem limit_placeWidth : limit placeWidth = 0x100000000 :=
  rfl

def fit (width n : Nat) : Checked Nat :=
  if n < limit width then .ok n else .error (.overflow width n)

def add (width a b : Nat) : Checked Nat :=
  fit width (a + b)

def mul (width a b : Nat) : Checked Nat :=
  fit width (a * b)

def sub (a b : Nat) : Checked Nat :=
  if b ≤ a then .ok (a - b) else .error (.underflow a b)

-- What is moved out at the top is lost.
def shiftLeft (width a places : Nat) : Checked Nat :=
  if places < width then .ok (a <<< places % limit width) else .error (.shift width places)

def shiftRight (width a places : Nat) : Checked Nat :=
  if places < width then .ok (a >>> places) else .error (.shift width places)

theorem add_of_lt {width a b : Nat} (h : a + b < limit width) : add width a b = .ok (a + b) :=
  if_pos h

example : add 16 0xFFFF 1 = .error (.overflow 16 0x10000) := rfl

theorem mul_of_lt {width a b : Nat} (h : a * b < limit width) : mul width a b = .ok (a * b) :=
  if_pos h

theorem sub_of_le {a b : Nat} (h : b ≤ a) : sub a b = .ok (a - b) :=
  if_pos h

theorem shiftLeft_of_lt {width a places : Nat} (h : places < width) :
    shiftLeft width a places = .ok (a <<< places % limit width) :=
  if_pos h

theorem shiftRight_of_lt {width a places : Nat} (h : places < width) :
    shiftRight width a places = .ok (a >>> places) :=
  if_pos h

-- Places.

def get {n : Nat} (v : Vector α n) (i : Nat) : Checked α :=
  if h : i < n then .ok v[i] else .error (.place i n)

def set {n : Nat} (v : Vector α n) (i : Nat) (a : α) : Checked (Vector α n) :=
  if h : i < n then .ok (v.set i a) else .error (.place i n)

theorem get_of_lt {n i : Nat} {v : Vector α n} (h : i < n) : get v i = .ok v[i] :=
  dif_pos h

theorem set_of_lt {n i : Nat} {v : Vector α n} {a : α} (h : i < n) :
    set v i a = .ok (v.set i a) :=
  dif_pos h

@[simp] theorem get_fin {n : Nat} (v : Vector α n) (i : Fin n) : get v i = .ok v[i] :=
  get_of_lt i.isLt

@[simp] theorem set_fin {n : Nat} (v : Vector α n) (i : Fin n) (a : α) :
    set v i a = .ok (v.set i a) :=
  set_of_lt i.isLt

-- A register or a key, by its place in the table of all sixteen.
def ofIndex (i : Nat) : Checked (Fin 16) :=
  get (Vector.ofFn id) i

-- A byte names a register or a key by its low nibble.
def named (b : UInt8) : Checked (Fin 16) :=
  ofIndex (b &&& 0xF).toNat

theorem ofIndex_of_lt {i : Nat} (h : i < 16) : ofIndex i = .ok ⟨i, h⟩ := by
  rw [ofIndex, get_of_lt h, Vector.getElem_ofFn]
  rfl

@[simp] theorem ofIndex_fin (r : Fin 16) : ofIndex r = .ok r :=
  ofIndex_of_lt r.isLt

@[simp] theorem named_eq (b : UInt8) : named b = .ok (Fin.ofNat 16 b.toNat) := by
  have h : (b &&& 0xF).toNat = b.toNat % 16 := Nat.and_two_pow_sub_one_eq_mod b.toNat 4
  rw [named, h]
  exact ofIndex_of_lt (Nat.mod_lt _ (by decide))

-- Loops, of which no round breaks down.

theorem foldlM_eq_ok {f : σ → α → Checked σ} {g : σ → α → σ} {as : List α}
    (h : ∀ s, ∀ a ∈ as, f s a = .ok (g s a)) (s : σ) : as.foldlM f s = .ok (as.foldl g s) := by
  induction as generalizing s
  case nil          => rfl
  case cons a as ih =>
    have ⟨ha, has⟩ := forall_and.mp fun s => List.forall_mem_cons.mp (h s)
    rw [List.foldlM_cons, ha, ok_bind, ih has, List.foldl_cons]

theorem mapM_eq_ok {f : α → Checked β} {g : α → β} {as : List α}
    (h : ∀ a ∈ as, f a = .ok (g a)) : as.mapM f = .ok (as.map g) := by
  induction as
  case nil          => rfl
  case cons a as ih =>
    have ⟨ha, has⟩ := List.forall_mem_cons.mp h
    rw [List.mapM_cons, ha, ok_bind, ih has, ok_bind, List.map_cons]
    rfl

-- Words.

-- How far down the digits of a word have to be moved.
def places (first count : Nat) : Checked Nat := do
  mul 8 (← sub (← sub 4 count) (← sub first 1)) 4

-- So many digits `F`.
def mask : Nat → Checked Nat
  | 0     => .ok 0
  | n + 1 => do return (← shiftLeft 16 (← mask n) 4) ||| 0xF

def digits (w : Word) (first count : Nat) : Checked Nat := do
  let places ← places first count
  let field ← shiftLeft 16 (← mask count) places
  shiftRight 16 (w.toNat &&& field) places

theorem places_eq {first count : Nat} (hf : 0 < first) (hc : first + count ≤ 5) :
    places first count = .ok (4 * (5 - first - count)) := by
  have hp : (4 - count - (first - 1)) * 4 = 4 * (5 - first - count) := by omega
  have hl : 4 * (5 - first - count) < 0x100 := by omega
  rw [places, sub_of_le (by omega), ok_bind, sub_of_le (by omega), ok_bind,
    sub_of_le (by omega), ok_bind, mul_of_lt (hp ▸ hl), hp]

theorem limit_add (a b : Nat) : limit (a + b) = limit a * limit b :=
  Nat.pow_add 2 a b

theorem limit_pos (width : Nat) : 0 < limit width :=
  Nat.two_pow_pos width

-- Ones that still fit where they are moved.
theorem shiftLeft_ones {width ones places : Nat} (hp : places < width)
    (h : ones + places ≤ width) :
    shiftLeft width (limit ones - 1) places = .ok ((limit ones - 1) <<< places) := by
  have hl : limit ones * limit places ≤ limit width := by
    rw [← limit_add]
    exact Nat.pow_le_pow_right (by decide) h
  rw [shiftLeft_of_lt hp, Nat.mod_eq_of_lt]
  refine Nat.lt_of_lt_of_le ?_ hl
  rw [Nat.shiftLeft_eq]
  exact Nat.mul_lt_mul_of_pos_right (Nat.sub_lt (limit_pos ones) (by decide)) (limit_pos places)

theorem mask_eq {n : Nat} (h : n ≤ 4) : mask n = .ok (limit (4 * n) - 1) := by
  induction n
  case zero      => rfl
  case succ n ih =>
    have hl : limit (4 * (n + 1)) = limit (4 * n) * 0x10 := limit_add (4 * n) 4
    have hpos := limit_pos (4 * n)
    rw [mask, ih (Nat.le_of_succ_le h), ok_bind, shiftLeft_ones (by decide) (by omega), ok_bind,
      ← Nat.shiftLeft_add_eq_or_of_lt (by decide), Nat.shiftLeft_eq, hl]
    exact congrArg Except.ok (by omega)

-- The digits of a word, cut out of it by a mask that is moved to where they stand.
theorem digits_eq (w : Word) {first count : Nat} (hf : 0 < first) (hn : 0 < count)
    (hc : first + count ≤ 5) : digits w first count = .ok (w.digits first count) := by
  have hp : 4 * (5 - first - count) < 16 := by omega
  have hpow (n : Nat) : Nat.pow 16 n = Nat.pow 2 (4 * n) := (Nat.pow_mul 2 4 n).symm
  rw [digits, places_eq hf hc, ok_bind, mask_eq (by omega), ok_bind,
    shiftLeft_ones hp (by omega), ok_bind, shiftRight_of_lt hp, Nat.shiftRight_and_distrib,
    Nat.shiftLeft_shiftRight, limit, Nat.pow_eq, Nat.and_two_pow_sub_one_eq_mod,
    Nat.shiftRight_eq_div_pow, Word.digits, hpow, hpow]
  rfl

def nnn (w : Word) : Checked Address := do
  return Fin.ofNat 4096 (← digits w 2 3)

def x (w : Word) : Checked Register := do
  named (.ofNat (← digits w 2 1))

def y (w : Word) : Checked Register := do
  named (.ofNat (← digits w 3 1))

def n (w : Word) : Checked Nibble := do
  return Fin.ofNat 16 (← digits w 4 1)

def kk (w : Word) : Checked UInt8 := do
  return .ofNat (← digits w 3 2)

@[simp] theorem nnn_eq (w : Word) : nnn w = .ok w.nnn := by
  rw [nnn, digits_eq w (by decide) (by decide) (by decide)]
  exact congrArg Except.ok <| Fin.ext <| Nat.mod_eq_of_lt (w.digits_lt 2 3)

theorem named_ofNat_eq {d : Nat} (h : d < 16) : named (.ofNat d) = .ok ⟨d, h⟩ := by
  rw [named_eq]
  refine congrArg Except.ok <| Fin.ext ?_
  simp
  omega

@[simp] theorem x_eq (w : Word) : x w = .ok w.x := by
  rw [x, digits_eq w (by decide) (by decide) (by decide)]
  exact named_ofNat_eq (w.digits_lt 2 1)

@[simp] theorem y_eq (w : Word) : y w = .ok w.y := by
  rw [y, digits_eq w (by decide) (by decide) (by decide)]
  exact named_ofNat_eq (w.digits_lt 3 1)

@[simp] theorem n_eq (w : Word) : n w = .ok w.n := by
  rw [n, digits_eq w (by decide) (by decide) (by decide)]
  exact congrArg Except.ok <| Fin.ext <| Nat.mod_eq_of_lt (w.digits_lt 4 1)

@[simp] theorem kk_eq (w : Word) : kk w = .ok w.kk := by
  rw [kk, digits_eq w (by decide) (by decide) (by decide)]
  rfl

def ofFields (op : Opcode) (w : Word) : Checked Instruction :=
  match op with
  | .cls          => return .clear
  | .ret          => return .ret
  | .sys          => return .sys (← nnn w)
  | .jp           => return .jump (← nnn w)
  | .call         => return .call (← nnn w)
  | .seByte       => return .skipEqByte (← x w) (← kk w)
  | .sneByte      => return .skipNeByte (← x w) (← kk w)
  | .se           => return .skipEq (← x w) (← y w)
  | .ldByte       => return .setByte (← x w) (← kk w)
  | .addByte      => return .addByte (← x w) (← kk w)
  | .ld           => return .alu .copy (← x w) (← y w)
  | .or           => return .alu .or (← x w) (← y w)
  | .and          => return .alu .and (← x w) (← y w)
  | .xor          => return .alu .xor (← x w) (← y w)
  | .add          => return .alu .add (← x w) (← y w)
  | .sub          => return .alu .sub (← x w) (← y w)
  | .shr          => return .alu .shr (← x w) (← y w)
  | .subn         => return .alu .subn (← x w) (← y w)
  | .shl          => return .alu .shl (← x w) (← y w)
  | .sne          => return .skipNe (← x w) (← y w)
  | .ldIndex      => return .setIndex (← nnn w)
  | .jpOffset     => return .jumpOffset (← nnn w)
  | .rnd          => return .random (← x w) (← kk w)
  | .drw          => return .draw (← x w) (← y w) (← n w)
  | .skp          => return .skipDown (← x w)
  | .sknp         => return .skipUp (← x w)
  | .ldFromDelay  => return .readDelay (← x w)
  | .ldKey        => return .awaitKey (← x w)
  | .ldToDelay    => return .setDelay (← x w)
  | .ldToSound    => return .setSound (← x w)
  | .addIndex     => return .addIndex (← x w)
  | .ldGlyph      => return .pointGlyph (← x w)
  | .ldDecimal    => return .storeDecimal (← x w)
  | .ldToMemory   => return .store (← x w)
  | .ldFromMemory => return .load (← x w)

def ofWord? (w : Word) : Checked (Option Instruction) :=
  match Opcode.ofWord? w with
  | none    => return none
  | some op => return some (← ofFields op w)

@[simp] theorem ofFields_eq (op : Opcode) (w : Word) :
    ofFields op w = .ok (Instruction.ofFields op w) := by
  cases op <;> simp [ofFields, Instruction.ofFields]

@[simp] theorem ofWord?_eq (w : Word) : ofWord? w = .ok (Instruction.ofWord? w) := by
  unfold ofWord? Instruction.ofWord?
  cases Opcode.ofWord? w <;> simp

end Checked
end Chip8
