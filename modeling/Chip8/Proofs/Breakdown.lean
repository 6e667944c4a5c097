import Chip8.Proofs.CheckedParts
import Chip8.Proofs.Progress

namespace Chip8.Checked

variable {m : Machine}

-- What instructions do, with everything checked that they rely on.

def pointPast (m : Machine) (last : Register) : Checked Machine := do
  match m.dialect with
  | .modern     => return m
  | .compatible => return m.pointTo (m.cpu.index + .ofNat (← add 16 last 1))

def draw (m : Machine) (x y : Register) (n : Nibble) : Checked Outcome := do
  match ← readBlock m.memory m.cpu.index.toNat 0 n with
  | (_, some f)  => return ⟨m, some f, []⟩
  | (rows, none) =>
    let (screen, hit) ← paint m.screen (← reg m x) (← reg m y) rows
    return { machine := ← setReg { m with screen := screen } .flag hit.toUInt8 }

def storeBytes (m : Machine) (bs : List UInt8) (next : Machine → Checked Machine) :
    Checked Outcome := do
  match ← writeBlock m.memory m.cpu.index.toNat 0 bs with
  | (memory, some f) => return ⟨{ m with memory := memory }, some f, []⟩
  | (memory, none)   => return { machine := ← next { m with memory := memory } }

def loadRegisters (m : Machine) (last : Register) : Checked Outcome := do
  match ← readBlock m.memory m.cpu.index.toNat 0 (last + 1) with
  | (bs, some f) =>
    return ⟨{ m with cpu.registers := ← overwrite m.cpu.registers 0 bs }, some f, []⟩
  | (bs, none)   =>
    let registers ← overwrite m.cpu.registers 0 bs
    return { machine := ← pointPast { m with cpu.registers := registers } last }

def execute (m : Machine) : Instruction → Checked Outcome
  | .call nnn        => do
    match ← push m.cpu.stack m.cpu.pc m.origin with
    | .error f  => return ⟨m, some f, []⟩
    | .ok stack => return { machine := { m with cpu.stack := stack }.jumpTo (.ofNat nnn) }
  | .skipEqByte x kk => return { machine := m.skipIf ((← reg m x) = kk) }
  | .skipNeByte x kk => return { machine := m.skipIf ((← reg m x) ≠ kk) }
  | .skipEq x y      => return { machine := m.skipIf ((← reg m x) = (← reg m y)) }
  | .skipNe x y      => return { machine := m.skipIf ((← reg m x) ≠ (← reg m y)) }
  | .setByte x kk    => return { machine := ← setReg m x kk }
  | .addByte x kk    => return { machine := ← setReg m x ((← reg m x) + kk) }
  | .alu op x y      =>
    return { machine := ← setResult m x (op.eval m.dialect (← reg m x) (← reg m y)) }
  | .jumpOffset nnn  => return { machine := m.jumpTo (.ofNat nnn + (← reg m 0).toUInt16) }
  | .random x kk     =>
    return { machine := ← setReg { m with noise := m.noise.next } x (m.noise.current &&& kk) }
  | .draw x y n      => draw m x y n
  | .skipDown x      =>
    return { machine := m.skipIf (← isDown m.keypad (← named (← reg m x))) }
  | .skipUp x        =>
    return { machine := m.skipIf (¬(← isDown m.keypad (← named (← reg m x)))) }
  | .readDelay x     => return { machine := ← setReg m x m.cpu.delay.count }
  | .setDelay x      => return { machine := { m with cpu.delay := ⟨← reg m x⟩ } }
  | .setSound x      => return { machine := { m with cpu.sound := ⟨← reg m x⟩ } }
  | .addIndex x      => return { machine := m.pointTo (m.cpu.index + (← reg m x).toUInt16) }
  | .pointGlyph x    => do
    let offset ← mul 16 Glyph.height (← reg m x).toNat
    return { machine := m.pointTo (.ofNat (← add 16 Glyph.first offset)) }
  | .storeDecimal x  => do storeBytes m (Machine.decimalDigits (← reg m x)) pure
  | .store x         => do storeBytes m (← firstThrough m.cpu.registers x) (pointPast · x)
  | .load x          => loadRegisters m x
  -- The others take nothing for granted.
  | i                => return m.execute i

@[simp] theorem pointPast_eq (m : Machine) (last : Register) :
    pointPast m last = .ok (m.pointPast last) := by
  unfold pointPast Machine.pointPast
  cases m.dialect
  case modern     => rfl
  case compatible =>
    have hl : last.val + 1 < limit 16 := Nat.lt_of_le_of_lt last.isLt (by decide)
    rw [add_of_lt hl, ok_bind, UInt16.ofNat_add, ← UInt16.add_assoc]
    rfl

-- A block from `I` on is far from the end of the numbers that count places.
theorem index_add_le (m : Machine) {n : Nat} (h : n ≤ 16) :
    m.cpu.index.toNat + 0 + n ≤ limit placeWidth := by
  have hi := m.cpu.index.toNat_lt
  have hw := limit_placeWidth
  omega

theorem readBlock_index (m : Machine) {n : Nat} (h : n ≤ 16) :
    readBlock m.memory m.cpu.index.toNat 0 n = .ok (m.memory.readBlock m.cpu.index.toNat n) :=
  readBlock_eq m.memory <| index_add_le m h

theorem writeBlock_index (m : Machine) {bs : List UInt8} (h : bs.length ≤ 16) :
    writeBlock m.memory m.cpu.index.toNat 0 bs = .ok (m.memory.writeBlock m.cpu.index.toNat bs) :=
  writeBlock_eq m.memory <| index_add_le m h

theorem length_readBlock_le (m : Memory) (a n : Nat) : (m.readBlock a n).1.length ≤ n := by
  have h := m.getElem?_readBlock a n n
  rw [if_neg (Nat.lt_irrefl n)] at h
  exact List.getElem?_eq_none_iff.mp h

theorem draw_eq (m : Machine) (x y : Register) (n : Nibble) :
    draw m x y n = .ok (m.draw x y n) := by
  have hn : n.val ≤ 16 := Nat.le_of_lt n.isLt
  have hl := length_readBlock_le m.memory m.cpu.index.toNat n
  rw [draw, readBlock_index m hn, Machine.draw]
  rcases hb : m.memory.readBlock m.cpu.index.toNat n with ⟨rows, _ | f⟩
  case some => rfl
  case none =>
    rw [hb] at hl
    simp [paint_eq m.screen _ _ (Nat.le_trans hl hn)]

theorem storeBytes_eq (m : Machine) {bs : List UInt8} (h : bs.length ≤ 16)
    {next : Machine → Checked Machine} {next' : Machine → Machine}
    (hn : ∀ m, next m = .ok (next' m)) : storeBytes m bs next = .ok (m.storeBytes bs next') := by
  rw [storeBytes, writeBlock_index m h, Machine.storeBytes]
  rcases m.memory.writeBlock m.cpu.index.toNat bs with ⟨memory, _ | f⟩
  case some => rfl
  case none => simp [hn]

theorem loadRegisters_eq (m : Machine) (last : Register) :
    loadRegisters m last = .ok (m.loadRegisters last) := by
  have hn : last.val + 1 ≤ 16 := last.isLt
  have hl := length_readBlock_le m.memory m.cpu.index.toNat (last + 1)
  rw [loadRegisters, readBlock_index m hn, Machine.loadRegisters]
  rcases hb : m.memory.readBlock m.cpu.index.toNat (last + 1) with ⟨bs, _ | f⟩
  all_goals
    rw [hb] at hl
    simp [overwrite_eq m.cpu.registers (Nat.le_trans hl hn)]

-- The address of a glyph has far less than sixteen bits.
theorem pointGlyph_eq (m : Machine) (x : Register) :
    execute m (.pointGlyph x) = .ok (m.execute (.pointGlyph x)) := by
  have hb := (m.reg x).toNat_lt
  have hm : Glyph.height * (m.reg x).toNat < limit 16 := by
    change 5 * (m.reg x).toNat < 0x10000
    omega
  have ha : Glyph.first + Glyph.height * (m.reg x).toNat < limit 16 := by
    change 0x50 + 5 * (m.reg x).toNat < 0x10000
    omega
  simp [execute, Machine.execute, mul_of_lt hm, add_of_lt ha]

theorem call_eq (m : Machine) (nnn : Address) :
    execute m (.call nnn) = .ok (m.execute (.call nnn)) := by
  simp only [execute, Machine.execute, push_eq, ok_bind]
  cases m.cpu.stack.push m.cpu.pc m.origin <;> rfl

theorem execute_eq (m : Machine) (i : Instruction) : execute m i = .ok (m.execute i) := by
  cases i
  case call              => exact call_eq ..
  case pointGlyph        => exact pointGlyph_eq ..
  case draw              => exact draw_eq ..
  case load              => exact loadRegisters_eq ..
  case storeDecimal      =>
    rw [execute, reg_eq, ok_bind]
    exact storeBytes_eq m (Nat.le_of_ble_eq_true rfl) fun _ => rfl
  case store x           =>
    have hl : (m.cpu.registers.firstThrough x).length ≤ 16 := by
      rw [Registers.length_firstThrough]
      exact x.isLt
    rw [execute, firstThrough_eq, ok_bind]
    exact storeBytes_eq m hl (pointPast_eq · x)
  case skipDown | skipUp =>
    simp only [execute, reg_eq, ok_bind, named_eq, isDown_eq]
    rfl
  all_goals simp [execute, Machine.execute]

-- Ticks.

def fetch (m : Machine) : Checked (Except Fault (Word × Instruction)) := do
  match ← readWord m.memory m.cpu.pc with
  | .error f => return .error f
  | .ok w    =>
    match ← ofWord? w with
    | none   => return .error (.invalidInstruction w m.cpu.pc)
    | some i => return .ok (w, i)

def checkKey (m : Machine) : Checked (Option Key × Machine) := do
  match m.keypad.wait, ← released? m.keypad with
  | some r, some k => return (some k, ← setReg { m with keypad.wait := none } r k.toByte)
  | _, _           => return (none, m)

def poll (m : Machine) : Checked (Reported Machine) := do
  match ← checkKey m with
  | (some k, m) => return ⟨m, [.log (.waitResolved k)]⟩
  | (none, m)   => return ⟨m, [.log .waiting]⟩

def complete (m : Machine) : Checked Machine := do
  let cycles ← add 64 m.cpu.cycles.toNat 1
  return { m with cpu.cycles := .ofNat cycles, keypad := m.keypad.forgetPrevious }

def finish (o : Outcome) : Checked (Reported Machine) := do
  match o.fault with
  | none   => return ⟨← complete o.machine, []⟩
  | some f => return o.machine.halt f

def runInstruction (m : Machine) (w : Word) (i : Instruction) : Checked (Reported Machine) := do
  let o ← execute (m.start i) i
  let r ← finish o
  return ⟨r.value, .log (.fetched w i) :: o.reports ++ r.reports⟩

def cpuTick (m : Machine) : Checked (Reported Machine) := do
  if m.keypad.wait.isSome then poll m
  else if m.cpu.running ∧ m.limiter.allows m.cpu.cycles then
    match ← fetch m with
    | .error f    => return m.halt f
    | .ok (w, i) => runInstruction m w i
  else return ⟨m, []⟩

def timerTick (m : Machine) : Checked (Reported Machine) := do
  let delay ← countDown m.cpu.delay
  let sound ← countDown m.cpu.sound
  return (m.tell m.tone).andThen fun m =>
    ⟨{ m with cpu := { m.cpu with delay, sound } }, [.log (.countedDown delay.count sound.count)]⟩

theorem fetch_eq (m : Machine) : fetch m = .ok m.fetch := by
  rw [fetch, readWord_eq, ok_bind, Machine.fetch]
  cases m.memory.readWord m.cpu.pc
  case error => rfl
  case ok w  =>
    simp only [ofWord?_eq, ok_bind]
    cases Instruction.ofWord? w <;> rfl

theorem checkKey_eq (m : Machine) : checkKey m = .ok m.checkKey := by
  rw [checkKey, released?_eq, ok_bind, Machine.checkKey, Keypad.resolve?]
  cases m.keypad.wait
  case none   => rfl
  case some r =>
    cases m.keypad.released?
    case none   => rfl
    case some k => simp

theorem poll_eq (m : Machine) : poll m = .ok m.poll := by
  rw [poll, checkKey_eq, ok_bind, Machine.poll]
  rcases m.checkKey with ⟨_ | k, m'⟩ <;> rfl

-- Where the limiter lets an instruction run, the count of cycles is not at its end.
theorem complete_eq {bound : UInt64} (h : m.cpu.cycles < bound) : complete m = .ok m.complete := by
  have hl := UInt64.lt_iff_toNat_lt.mp h
  have hb := bound.toNat_lt
  have hc : m.cpu.cycles.toNat + 1 < limit 64 := Nat.lt_of_le_of_lt hl hb
  rw [complete, add_of_lt hc, ok_bind, UInt64.ofNat_add, UInt64.ofNat_toNat]
  rfl

theorem finish_eq {o : Outcome} {bound : UInt64} (h : o.machine.cpu.cycles < bound) :
    finish o = .ok (Machine.finish o) := by
  rw [finish, Machine.finish, complete_eq h]
  cases o.fault <;> rfl

theorem runInstruction_eq {w : Word} {i : Instruction} (h : m.limiter.allows m.cpu.cycles = true) :
    runInstruction m w i = .ok (m.runInstruction w i) := by
  have hl : ((m.start i).execute i).machine.cpu.cycles < m.limiter.bound := by
    rw [Machine.execute_preserves_cycles]
    exact of_decide_eq_true h
  rw [runInstruction, execute_eq, ok_bind, finish_eq hl]
  rfl

theorem cpuTick_eq (m : Machine) : cpuTick m = .ok m.cpuTick := by
  unfold cpuTick Machine.cpuTick Machine.turn
  split
  case isTrue  => exact poll_eq m
  case isFalse =>
    split
    case isFalse     => rfl
    case isTrue hr =>
      rw [fetch_eq, ok_bind]
      cases m.fetch
      case error => rfl
      case ok    => exact runInstruction_eq hr.right

theorem timerTick_eq (m : Machine) : timerTick m = .ok m.timerTick := by
  rw [timerTick, countDown_eq, ok_bind, countDown_eq, ok_bind]
  rfl

-- Events.

def reset (m : Machine) : Checked (Reported Machine) := do
  let memory ← image m.memory.staged
  return m.clear.map fun m => { m with memory, cpu.running := memory.staged.isSome }

def load (m : Machine) (program : Array UInt8) : Checked (Reported Machine) := do
  let memory ← image (some (← stage program))
  return m.clear.andThen fun m =>
    ⟨{ m with memory, cpu.running := true }, Machine.cutReports program⟩

def handle (m : Machine) : Event → Checked (Reported Machine)
  | .load program => load m program
  | .reset        => reset m
  | .cpuTick      => cpuTick m
  | .timerTick    => timerTick m
  | .key k down   => return ⟨{ m with keypad := ← move m.keypad k down }, []⟩
  -- The others take nothing for granted.
  | e             => return m.handle e

def run (m : Machine) : List Event → Checked (Reported Machine)
  | []      => return ⟨m, []⟩
  | e :: es => do
    let r ← handle m e
    let s ← run r.value es
    return r.andThen fun _ => s

theorem reset_eq (m : Machine) : reset m = .ok m.reset := by
  rw [reset, image_eq]
  rfl

theorem load_eq (m : Machine) (program : Array UInt8) : load m program = .ok (m.load program) := by
  rw [load, stage_eq, ok_bind, image_eq]
  rfl

theorem handle_eq (m : Machine) (e : Event) : handle m e = .ok (m.handle e) := by
  cases e
  case load      => exact load_eq ..
  case reset     => exact reset_eq m
  case cpuTick   => exact cpuTick_eq m
  case timerTick => exact timerTick_eq m
  case key       => simp [handle, Machine.handle]
  all_goals rfl

theorem run_eq (m : Machine) (es : List Event) : run m es = .ok (m.run es) := by
  induction es generalizing m
  case nil          => rfl
  case cons e es ih =>
    rw [run, handle_eq, ok_bind, ih, ok_bind]
    rfl

-- Whatever is in a machine and whatever happens to it, no check fails: every place, range, sum,
-- difference and shift is as it is relied on to be, and the interpreter that checks them does what
-- the machine does. The calls under way and the staged program never become more than they may be.
theorem never_breaks_down (m : Machine) :
    (∀ e, handle m e = .ok (m.handle e)) ∧
    ∀ es, run m es = .ok (m.run es) ∧ (m.after es).cpu.stack.depth ≤ 16 ∧
      ∀ rom, (m.after es).memory.staged = some rom → rom.bytes.size ≤ 3584 :=
  ⟨handle_eq m, fun es => ⟨run_eq m es, CallStack.depth_le _, fun rom _ => rom.size_le⟩⟩

end Chip8.Checked
