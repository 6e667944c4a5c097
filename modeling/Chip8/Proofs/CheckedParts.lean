import Chip8.Proofs.Checked
import Chip8.Proofs.Halt
import Chip8.Proofs.Painting

namespace Chip8.Checked

-- Registers.

def reg (m : Machine) (r : Register) : Checked UInt8 :=
  get m.cpu.registers.bytes r

def setReg (m : Machine) (r : Register) (b : UInt8) : Checked Machine := do
  return { m with cpu.registers := ⟨← set m.cpu.registers.bytes r b⟩ }

def setResult (m : Machine) (x : Register) : UInt8 × Option UInt8 → Checked Machine
  | (b, none)      => setReg m x b
  | (b, some flag) => do setReg (← setReg m x b) .flag flag

def firstThrough (v : Registers) (last : Register) : Checked (List UInt8) :=
  (List.range (last + 1)).mapM fun i => do get v.bytes (← ofIndex i)

-- The registers from number `i` on take the bytes of the list.
def overwrite (v : Registers) (i : Nat) : List UInt8 → Checked Registers
  | []      => .ok v
  | b :: bs => do overwrite ⟨← set v.bytes (← ofIndex i) b⟩ (i + 1) bs

@[simp] theorem reg_eq (m : Machine) (r : Register) : reg m r = .ok (m.reg r) :=
  get_fin ..

@[simp] theorem setReg_eq (m : Machine) (r : Register) (b : UInt8) :
    setReg m r b = .ok (m.setReg r b) := by
  rw [setReg, set_fin]
  rfl

@[simp] theorem setResult_eq (m : Machine) (x : Register) :
    (b : UInt8 × Option UInt8) → setResult m x b = .ok (m.setResult x b)
  | (_, none)   => setReg_eq ..
  | (_, some _) => by simp [setResult, Machine.setResult]

theorem map_val_through (x : Register) :
    (Register.through 0 x).map Fin.val = List.range (x + 1) := by
  decide +revert

@[simp] theorem firstThrough_eq (v : Registers) (last : Register) :
    firstThrough v last = .ok (v.firstThrough last) := by
  rw [firstThrough, ← map_val_through, List.mapM_map]
  refine mapM_eq_ok fun r _ => ?_
  simp [Registers.get]

theorem exists_overwrite (v : Registers) {i : Nat} {bs : List UInt8} (h : i + bs.length ≤ 16) :
    ∃ w, overwrite v i bs = .ok w ∧ ∀ r : Register,
      w.get r = (if i ≤ r then bs[r.val - i]? else none).getD (v.get r) := by
  induction bs generalizing v i
  case nil          => exact ⟨v, rfl, fun r => by simp⟩
  case cons b bs ih =>
    rw [List.length_cons] at h
    have hi : i < 16 := by omega
    obtain ⟨w, hw, hg⟩ := ih (v.set ⟨i, hi⟩ b) (i := i + 1) (by omega)
    refine ⟨w, ?_, fun r => ?_⟩
    · rw [overwrite, ofIndex_of_lt hi, ok_bind, set_of_lt hi]
      exact hw
    · rw [hg, Registers.get_set]
      rcases Nat.lt_trichotomy i r with hr | hr | hr
      · have hs : r.val - i = r - (i + 1) + 1 := by omega
        have hn : r ≠ ⟨i, hi⟩ := fun e => Nat.ne_of_gt hr (congrArg Fin.val e)
        simp [hs, hn, Nat.le_of_lt hr, Nat.succ_le_of_lt hr]
      · subst hr
        have hl : ¬r.val + 1 ≤ r := by omega
        simp [hl]
      · have hl : ¬i + 1 ≤ r := by omega
        have hn : r ≠ ⟨i, hi⟩ := fun e => Nat.ne_of_lt hr (congrArg Fin.val e)
        simp [hl, hn, Nat.not_le_of_gt hr]

theorem overwrite_eq (v : Registers) {bs : List UInt8} (h : bs.length ≤ 16) :
    overwrite v 0 bs = .ok (v.overwrite bs) := by
  have hl : 0 + bs.length ≤ 16 := by omega
  have ⟨w, hw, hg⟩ := exists_overwrite v hl
  rw [hw]
  refine congrArg Except.ok <| Registers.ext_get fun r => ?_
  rw [hg, Registers.get_overwrite, if_pos (Nat.zero_le _)]
  rfl

-- The keypad.

def isDown (p : Keypad) (k : Key) : Checked Bool :=
  get p.down k

def move (p : Keypad) (k : Key) (down : Bool) : Checked Keypad := do
  return { p with
    previous := ← set p.previous k (← get p.down k)
    down     := ← set p.down k down }

def released? (p : Keypad) : Checked (Option Key) :=
  (List.finRange 16).findM? fun k => return (← get p.previous k) && !(← get p.down k)

@[simp] theorem isDown_eq (p : Keypad) (k : Key) : isDown p k = .ok (p.isDown k) :=
  get_fin ..

@[simp] theorem move_eq (p : Keypad) (k : Key) (down : Bool) :
    move p k down = .ok (p.move k down) := by
  simp [move, Keypad.move]

@[simp] theorem released?_eq (p : Keypad) : released? p = .ok p.released? := by
  simp only [released?, get_fin, ok_bind]
  exact List.findM?_pure ..

-- The screen.

def cell {α : Type} (a : Except NoSuchCell α) : Checked α :=
  a.mapError .cell

-- A row of a sprite, and whether a lit cell has been switched off before.
def paintRow (x y : Nat) (row : UInt8) (s : Screen × Bool) : Checked (Screen × Bool) :=
  (List.range 8).foldlM (fun (s, hit) j => do
    let bit ← shiftRight 8 row.toNat (← sub 7 j)
    if bit &&& 1 = 0 then return (s, hit)
    let column ← add placeWidth x j
    let on ← cell (s.get (column % Screen.width) y)
    return (← cell (s.set (column % Screen.width) y !on), hit || on)) s

-- The rows of a sprite from row `i` on.
def paintRows (x y i : Nat) : List UInt8 → Screen × Bool → Checked (Screen × Bool)
  | [], s          => .ok s
  | row :: rows, s => do
    let line ← add placeWidth y i
    paintRows x y (i + 1) rows (← paintRow x (line % Screen.height) row s)

def paint (s : Screen) (x y : UInt8) (rows : List UInt8) : Checked (Screen × Bool) :=
  paintRows x.toNat y.toNat 0 rows (s, false)

-- One cell of a sprite.
def strike (s : Screen × Bool) (c : Cell) : Screen × Bool :=
  (s.1.toggle c, s.2 || s.1.lit c)

theorem foldl_strike (cs : List Cell) (s : Screen) (hit : Bool) :
    cs.foldl strike (s, hit) = ((s.toggleAll cs).1, hit || (s.toggleAll cs).2) := by
  induction cs generalizing s hit
  case nil          => simp [Screen.toggleAll]
  case cons c cs ih => simp [Screen.toggleAll, strike, ih, Bool.or_assoc]

theorem cellAt_wrap (x y : Nat) :
    Screen.cellAt (x % Screen.width) (y % Screen.height) = .ok (Cell.wrap x y) :=
  dif_pos (Cell.wrap x y).isLt

theorem paintRow_eq {x : Nat} (hx : x + 8 ≤ limit placeWidth) (y : Nat) (row : UInt8)
    (s : Screen × Bool) : paintRow x (y % Screen.height) row s =
      .ok (((Sprite.columns row).map fun j => Cell.wrap (x + j) y).foldl strike s) := by
  rw [Sprite.columns, List.foldl_map, List.foldl_filter]
  refine foldlM_eq_ok (fun s j hj => ?_) s
  have hj : j < 8 := List.mem_range.mp hj
  have hs : 7 - j < 8 := by omega
  have ha : x + j < limit placeWidth := by omega
  have hb : row.toNat >>> (7 - j) &&& 1 = (row.toNat.testBit (7 - j)).toNat := by
    rw [Nat.and_one_is_mod, Nat.toNat_testBit, Nat.shiftRight_eq_div_pow]
  simp only [sub_of_le (Nat.le_of_lt_succ hj), ok_bind, shiftRight_of_lt hs, hb, add_of_lt ha]
  cases row.toNat.testBit (7 - j)
  case false => rfl
  case true  =>
    simp only [Screen.get, Screen.set, cellAt_wrap]
    rfl

theorem paintRows_eq {x y i : Nat} {rows : List UInt8} (hx : x + 8 ≤ limit placeWidth)
    (hy : y + i + rows.length ≤ limit placeWidth) (s : Screen × Bool) :
    paintRows x y i rows s = .ok ((Sprite.cells x (y + i) rows).foldl strike s) := by
  induction rows generalizing i s
  case nil            => rfl
  case cons row rows ih =>
    rw [List.length_cons] at hy
    rw [paintRows, add_of_lt (by omega), ok_bind, paintRow_eq hx, ok_bind, ih (by omega),
      Sprite.cells, List.foldl_append]
    rfl

theorem paint_eq (s : Screen) (x y : UInt8) {rows : List UInt8} (h : rows.length ≤ 16) :
    paint s x y rows = .ok (s.paint x y rows) := by
  have hx := x.toNat_lt
  have hy := y.toNat_lt
  have hw := limit_placeWidth
  rw [paint, paintRows_eq (by omega) (by omega), foldl_strike, Bool.false_or]
  rfl

-- Memory.

-- The next `n` bytes of a block that begins at `a`, from its byte number `i` on.
def readBlock (m : Memory) (a i : Nat) : Nat → Checked (List UInt8 × Option Fault)
  | 0     => .ok ([], none)
  | n + 1 => do
    match m.read (← add placeWidth a i) with
    | .error f => return ([], some f)
    | .ok b    =>
      let (bs, f) ← readBlock m a (i + 1) n
      return (b :: bs, f)

def writeBlock (m : Memory) (a i : Nat) : List UInt8 → Checked (Memory × Option Fault)
  | []      => .ok (m, none)
  | b :: bs => do
    match m.write (← add placeWidth a i) b with
    | .error f => return (m, some f)
    | .ok m    => writeBlock m a (i + 1) bs

def readWord (m : Memory) (a : UInt16) : Checked (Except Fault Word) := do
  match m.read a.toNat with
  | .error f => return .error f
  | .ok high =>
    match m.read (← add placeWidth a.toNat 1) with
    | .error f => return .error f
    | .ok low  => return .ok (.ofNat (← shiftLeft 16 high.toNat 8) ||| low.toUInt16)

-- The block takes the place of so many bytes from `first` on, which have to be as many.
def overlay (bytes : Vector UInt8 4096) (first count : Nat) (block : List UInt8) :
    Checked (Vector UInt8 4096) := do
  let beyond ← add placeWidth first count
  if hb : beyond ≤ 4096 then
    if hl : first + block.length = beyond then
      return Memory.overlay bytes first block (hl ▸ hb)
    else throw (.lengths block.length count)
  else throw (.range first beyond 4096)

def image (staged : Option Rom) : Checked Memory := do
  let glyphs ← overlay (.replicate 4096 0) Glyph.first 80 Glyph.bytes.toList
  match staged with
  | none     => return ⟨glyphs, none⟩
  | some rom => return ⟨← overlay glyphs Rom.first rom.bytes.size rom.bytes.toList, some rom⟩

-- As much of a program as may be staged.
def stage (program : Array UInt8) : Checked Rom := do
  let size := min program.size Rom.capacity
  if size ≤ program.size then
    let bytes := program.take size
    if h : bytes.size ≤ 3584 then return ⟨bytes, h⟩ else throw (.program bytes.size)
  else throw (.range 0 size program.size)

theorem readBlock_eq (m : Memory) {a i n : Nat} (h : a + i + n ≤ limit placeWidth) :
    readBlock m a i n = .ok (m.readBlock (a + i) n) := by
  induction n generalizing i
  case zero      => rfl
  case succ n ih =>
    rw [readBlock, add_of_lt (by omega), ok_bind, Memory.readBlock]
    cases m.read (a + i)
    case error => rfl
    case ok    =>
      simp only [ih (i := i + 1) (by omega)]
      rfl

theorem writeBlock_eq (m : Memory) {a i : Nat} {bs : List UInt8}
    (h : a + i + bs.length ≤ limit placeWidth) :
    writeBlock m a i bs = .ok (m.writeBlock (a + i) bs) := by
  induction bs generalizing m i
  case nil          => rfl
  case cons b bs ih =>
    rw [List.length_cons] at h
    rw [writeBlock, add_of_lt (by omega), ok_bind, Memory.writeBlock]
    cases m.write (a + i) b
    case error => rfl
    case ok    => exact ih _ (by omega)

theorem ofNat_shiftLeft_eight (b : UInt8) :
    UInt16.ofNat (b.toNat <<< 8 % limit 16) = b.toUInt16 <<< 8 := by
  refine UInt16.toNat_inj.mp ?_
  simp [limit]

theorem readWord_eq (m : Memory) (a : UInt16) : readWord m a = .ok (m.readWord a) := by
  have ha : a.toNat + 1 < limit placeWidth := by
    have := a.toNat_lt
    have hw := limit_placeWidth
    omega
  unfold readWord Memory.readWord
  rw [add_of_lt ha]
  cases m.read a.toNat
  case error   => rfl
  case ok high =>
    simp only [ok_bind]
    cases m.read (a.toNat + 1)
    case error  => rfl
    case ok low =>
      simp only [shiftLeft_of_lt (show 8 < 16 by decide), ok_bind, ofNat_shiftLeft_eight]
      rfl

theorem overlay_eq {bytes : Vector UInt8 4096} {first count : Nat} {block : List UInt8}
    (hl : block.length = count) (h : first + block.length ≤ 4096) :
    overlay bytes first count block = .ok (Memory.overlay bytes first block h) := by
  subst hl
  have hw := limit_placeWidth
  rw [overlay, add_of_lt (by omega), ok_bind, dif_pos h, dif_pos rfl]
  rfl

theorem image_eq (staged : Option Rom) : image staged = .ok (Memory.image staged) := by
  rw [image, overlay_eq Vector.length_toList (by decide), ok_bind]
  cases staged
  case none     => rfl
  case some rom =>
    simp only [overlay_eq Array.length_toList rom.first_add_length_le]
    rfl

theorem stage_eq (program : Array UInt8) : stage program = .ok (Rom.ofBytes program) := by
  have hm : program.take (min program.size Rom.capacity) = (Rom.ofBytes program).bytes := by
    simp only [Rom.ofBytes, Array.take_eq_extract]
    rw [Array.extract_eq_extract_right]
    omega
  have hs : (program.take (min program.size Rom.capacity)).size ≤ 3584 :=
    hm ▸ (Rom.ofBytes program).size_le
  simp only [stage, if_pos (Nat.min_le_left ..), dif_pos hs]
  exact congrArg Except.ok <| Rom.ext hm

-- The call stack and the countdowns.

def push (s : CallStack) (address pc : UInt16) : Checked (Except Fault CallStack) :=
  if s.depth = CallStack.capacity then return .error (.stackOverflow pc)
  else if h : (address :: s.returns).length ≤ 16 then return .ok ⟨address :: s.returns, h⟩
  else throw (.calls (s.depth + 1))

def countDown (t : Countdown) : Checked Countdown := do
  if t.count = 0 then return t else return ⟨.ofNat (← sub t.count.toNat 1)⟩

theorem push_eq (s : CallStack) (address pc : UInt16) :
    push s address pc = .ok (s.push address pc) := by
  by_cases h : s.depth = CallStack.capacity
  case pos =>
    rw [push, if_pos h, CallStack.push_of_depth_eq h]
    rfl
  case neg =>
    have hl : s.depth < CallStack.capacity := Nat.lt_of_le_of_ne s.depth_le h
    have hc : (address :: s.returns).length ≤ 16 := hl
    rw [push, if_neg h, dif_pos hc, CallStack.push, dif_pos hl]
    rfl

theorem countDown_eq (t : Countdown) : countDown t = .ok t.tick := by
  by_cases h : t.count = 0
  case pos =>
    rw [countDown, if_pos h]
    exact congrArg Except.ok <| Countdown.ext <| by simp [Countdown.tick, h]
  case neg =>
    have hn : 1 ≤ t.count.toNat := Nat.one_le_iff_ne_zero.mpr fun e => h <| UInt8.toNat_inj.mp e
    have hb := t.count.toNat_lt
    rw [countDown, if_neg h, sub_of_le hn]
    refine congrArg Except.ok <| Countdown.ext <| UInt8.toNat_inj.mp ?_
    rw [Countdown.count_tick_toNat]
    exact UInt8.toNat_ofNat_of_lt (Nat.lt_of_le_of_lt (Nat.sub_le ..) hb)

end Chip8.Checked
