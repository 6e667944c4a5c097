import Chip8.Proofs.Footprint

namespace Chip8

namespace Registers

theorem get_overwrite_firstThrough (v w : Registers) (x r : Register) :
    (w.overwrite (v.firstThrough x)).get r = if r ≤ x then v.get r else w.get r := by
  simp only [get_overwrite, getElem?_firstThrough, Fin.ofNat_val_eq_self, Fin.le_def]
  split <;> rfl

end Registers

-- How far storing or loading a block moves `I` by itself.
def Dialect.advance (d : Dialect) (size : Nat) : Nat :=
  match d with
  | modern     => 0
  | compatible => size

-- The registers up to and including the last one: all registers as they stand when the block is
-- stored, and as they stand when it is loaded again.
structure Block where
  last   : Register
  stored : Registers
  found  : Registers

namespace Block

def bytes (b : Block) : List UInt8 :=
  b.stored.firstThrough b.last

def size (b : Block) : Nat :=
  b.last + 1

-- How many bytes blocks take up together.
def total : List Block → Nat
  | []      => 0
  | b :: bs => b.size + total bs

theorem ofNat_size (b : Block) : UInt16.ofNat b.size = .ofNat b.last + 1 :=
  UInt16.ofNat_add ..

theorem length_bytes (b : Block) : b.bytes.length = b.size :=
  b.stored.length_firstThrough b.last

theorem total_append (bs cs : List Block) : total (bs ++ cs) = total bs + total cs := by
  induction bs
  case nil          => exact (Nat.zero_add _).symm
  case cons b bs ih => rw [List.cons_append, total, total, ih, Nat.add_assoc]

theorem length_flatMap_bytes (bs : List Block) : (bs.flatMap bytes).length = total bs := by
  induction bs
  case nil          => rfl
  case cons b bs ih => rw [List.flatMap_cons, List.length_append, length_bytes, total, ih]

end Block

namespace Machine

open Block (total)

def storeBlock (m : Machine) (b : Block) : Outcome :=
  { m with cpu.registers := b.stored }.execute (.store b.last)

def loadBlock (m : Machine) (b : Block) : Outcome :=
  { m with cpu.registers := b.found }.execute (.load b.last)

-- Moves `I` past a block, if the instruction has not done so itself.
def passBlock (m : Machine) (b : Block) : Machine :=
  match m.dialect with
  | .modern     => m.pointTo (m.cpu.index + .ofNat b.size)
  | .compatible => m

-- One block behind the other, from `I` on.
def stream (op : Machine → Block → Outcome) (m : Machine) (bs : List Block) : Machine :=
  bs.foldl (fun m b => (op m b).machine.passBlock b) m

-- The machine with other memory and registers, and `I` elsewhere.
def moved (m : Machine) (memory : Memory) (v : Registers) (a : UInt16) : Machine :=
  { m with memory := memory, cpu.registers := v, cpu.index := a }

variable {m : Machine} {b : Block} {bs before : List Block} {memory : Memory} {v : Registers}
variable {op : Machine → Block → Outcome}

theorem moved_memory (m : Machine) (memory : Memory) (v : Registers) (a : UInt16) :
    (m.moved memory v a).memory = memory :=
  rfl

theorem toNat_index_pointPast (h : m.cpu.index.toNat + b.size ≤ 0x1000) :
    (m.pointPast b.last).cpu.index.toNat = m.cpu.index.toNat + m.dialect.advance b.size := by
  cases hd : m.dialect
  case modern     => simp [pointPast, hd, Dialect.advance]
  case compatible =>
    rw [index_pointPast hd, UInt16.add_assoc, ← b.ofNat_size, toNat_add_ofNat h]
    rfl

theorem passBlock_pointPast (m : Machine) (b : Block) :
    (m.pointPast b.last).passBlock b = m.pointTo (m.cpu.index + .ofNat b.size) := by
  cases h : m.dialect
  case modern     => simp [passBlock, pointPast, h]
  case compatible => simp [passBlock, pointPast, pointTo, h, b.ofNat_size, UInt16.add_assoc]

theorem storeBlock_eq (h : m.cpu.index.toNat + b.size ≤ 0x1000) :
    let memory := (m.memory.writeBlock m.cpu.index.toNat b.bytes).1
    m.storeBlock b = { machine := (m.moved memory b.stored m.cpu.index).pointPast b.last } := by
  have hf : (m.storeBlock b).fault = none :=
    (execute_fault ..).trans <| blockFault_eq_none_iff.mpr <| .inr h
  exact storeBytes_of_fault_eq_none hf

theorem loadBlock_eq (h : m.memory.Holds m.cpu.index.toNat b.bytes) :
    let v := b.found.overwrite b.bytes
    m.loadBlock b = { machine := (m.moved m.memory v m.cpu.index).pointPast b.last } := by
  have hr : m.memory.readBlock m.cpu.index.toNat (b.last + 1) = (b.bytes, none) := by
    rwa [Memory.Holds, b.length_bytes] at h
  have hf : (m.loadBlock b).fault = none := by
    rw [loadBlock, execute, loadRegisters_fault, ← Memory.readBlock_fault m.memory, hr]
  refine (loadRegisters_of_fault_eq_none hf).trans ?_
  simp only [hr]
  rfl

theorem stream_nil (op : Machine → Block → Outcome) (m : Machine) :
    m.stream op [] = m.moved m.memory m.cpu.registers (m.cpu.index + .ofNat (total [])) := by
  simp [stream, moved, total]

theorem exists_stream_cons {memory' : Memory} {a : UInt16} (ha : a = m.cpu.index + .ofNat b.size)
    (ho : op m b = { machine := (m.moved memory v m.cpu.index).pointPast b.last })
    (hs : ∃ v', (m.moved memory v a).stream op bs =
      (m.moved memory v a).moved memory' v' (a + .ofNat (total bs))) :
    ∃ v', m.stream op (b :: bs) = m.moved memory' v' (m.cpu.index + .ofNat (total (b :: bs))) := by
  have hc : m.stream op (b :: bs) = (m.moved memory v a).stream op bs := by
    rw [stream, List.foldl_cons, ho, passBlock_pointPast, ha]
    rfl
  rwa [hc, total, UInt16.ofNat_add, ← UInt16.add_assoc, ← ha]

-- Blocks that are stored one behind the other make up one larger block.
theorem stream_storeBlock (h : m.cpu.index.toNat + total bs ≤ 0x1000) :
    ∃ v, m.stream storeBlock bs =
      m.moved (m.memory.writeBlock m.cpu.index.toNat (bs.flatMap Block.bytes)).1 v
        (m.cpu.index + .ofNat (total bs)) := by
  induction bs generalizing m
  case nil          => exact ⟨_, stream_nil ..⟩
  case cons b bs ih =>
    rw [total, ← Nat.add_assoc] at h
    have hb := Nat.le_of_add_right_le h
    have hi := toNat_add_ofNat hb
    have hf := Memory.writeBlock_fault_of_le (m := m.memory) (b.length_bytes ▸ hb)
    rw [List.flatMap_cons, Memory.writeBlock_append hf, b.length_bytes, ← hi]
    rw [← hi] at h
    refine exists_stream_cons rfl (storeBlock_eq hb) ?_
    exact ih h

theorem stream_loadBlock (hm : m.memory = memory)
    (h : memory.Holds m.cpu.index.toNat (bs.flatMap Block.bytes))
    (hi : m.cpu.index.toNat + total bs ≤ 0x1000) :
    ∃ v, m.stream loadBlock bs = m.moved memory v (m.cpu.index + .ofNat (total bs)) := by
  induction bs generalizing m
  case nil          => exact ⟨_, hm ▸ stream_nil ..⟩
  case cons b bs ih =>
    rw [List.flatMap_cons] at h
    have ⟨hb, hs⟩ := h.of_append
    rw [total, ← Nat.add_assoc] at hi
    have hn := toNat_add_ofNat (Nat.le_of_add_right_le hi)
    rw [← hn] at hi
    rw [b.length_bytes, ← hn] at hs
    refine exists_stream_cons rfl (loadBlock_eq (hm ▸ hb)) ?_
    rw [hm]
    exact ih (moved_memory ..) hs hi

-- An operation on a block behind others: it finds `I` at the block, and it goes through.
structure Passes (m : Machine) (op : Machine → Block → Outcome) (before : List Block)
    (b : Block) : Prop where
  found : (m.stream op before).cpu.index.toNat = m.cpu.index.toNat + total before
  fault : (op (m.stream op before) b).fault = none
  left  : (op (m.stream op before) b).machine.cpu.index.toNat =
    m.cpu.index.toNat + total before + m.dialect.advance b.size

theorem passes_of_eq {memory' : Memory} {v' : Registers}
    (h : m.cpu.index.toNat + total before + b.size ≤ 0x1000)
    (hs : m.stream op before = m.moved memory v (m.cpu.index + .ofNat (total before)))
    (ho : op (m.stream op before) b = { machine :=
      ((m.stream op before).moved memory' v' (m.stream op before).cpu.index).pointPast b.last }) :
    m.Passes op before b := by
  have hi : (m.stream op before).cpu.index.toNat = m.cpu.index.toNat + total before := by
    rw [hs]
    exact toNat_add_ofNat <| Nat.le_of_add_right_le h
  have hd : (m.stream op before).dialect = m.dialect := by rw [hs]; rfl
  rw [← hi] at h
  exact {
    found := hi
    fault := by rw [ho]
    left  := by
      rw [ho, ← hi, ← hd]
      exact ((m.stream op before).moved memory' v' _).toNat_index_pointPast h }

theorem reg_pointPast (m : Machine) (x r : Register) : (m.pointPast x).reg r = m.reg r :=
  pointPast_preserves (·.reg r) (fun _ _ => rfl) ..

theorem passes_storeBlock (h : m.cpu.index.toNat + total before + b.size ≤ 0x1000) :
    m.Passes storeBlock before b := by
  have ⟨v, hs⟩ := stream_storeBlock <| Nat.le_of_add_right_le h
  refine passes_of_eq h hs <| storeBlock_eq ?_
  rw [← toNat_add_ofNat <| Nat.le_of_add_right_le h] at h
  rwa [hs]

theorem passes_loadBlock
    (h : m.memory.Holds m.cpu.index.toNat (before.flatMap Block.bytes ++ b.bytes))
    (hi : m.cpu.index.toNat + total before + b.size ≤ 0x1000) :
    m.Passes loadBlock before b ∧ ∀ r,
      ((m.stream loadBlock before).loadBlock b).machine.reg r =
        if r ≤ b.last then b.stored.get r else b.found.get r := by
  have ⟨hh, hb⟩ := h.of_append
  have ⟨v, hs⟩ := stream_loadBlock rfl hh <| Nat.le_of_add_right_le hi
  have ho := @loadBlock_eq (m.stream loadBlock before) b <| by
    rw [hs, moved_memory]
    rw [Block.length_flatMap_bytes, ← toNat_add_ofNat <| Nat.le_of_add_right_le hi] at hb
    exact hb
  refine ⟨passes_of_eq hi hs ho, fun r => ?_⟩
  rw [ho]
  exact (reg_pointPast ..).trans <| Registers.get_overwrite_firstThrough ..

-- What is stored block by block is loaded again block by block, whichever registers stand there by
-- then, as long as it fits into memory.
theorem load_stream_store (m : Machine) (bs : List Block)
    (h : m.cpu.index.toNat + total bs ≤ 0x1000) :
    let start  := m.cpu.index.toNat
    let stored := m.stream storeBlock bs
    let ready  := stored.pointTo m.cpu.index
    let loaded := ready.stream loadBlock bs
    (∀ before b behind, bs = before ++ b :: behind →
      m.Passes storeBlock before b ∧ ready.Passes loadBlock before b ∧
      ∀ r, ((ready.stream loadBlock before).loadBlock b).machine.reg r =
        if r ≤ b.last then b.stored.get r else b.found.get r) ∧
    stored.dialect = m.dialect ∧
    stored.cpu.index.toNat = start + total bs ∧ loaded.cpu.index.toNat = start + total bs ∧
    loaded.memory = stored.memory ∧
    ∀ a : Address, ¬(start ≤ a ∧ a < start + total bs) →
      stored.memory.bytes.get a = m.memory.bytes.get a := by
  intro start stored ready loaded
  have ⟨v, hs⟩ := stream_storeBlock h
  have hf : (m.memory.writeBlock start (bs.flatMap Block.bytes)).2 = none :=
    Memory.writeBlock_fault_of_le <| Block.length_flatMap_bytes bs ▸ h
  have hm : ready.memory = (m.memory.writeBlock start (bs.flatMap Block.bytes)).1 :=
    congrArg memory hs
  have hh : ready.memory.Holds start (bs.flatMap Block.bytes) :=
    hm ▸ Memory.holds_writeBlock hf
  have ⟨w, hl⟩ := @stream_loadBlock ready bs _ rfl hh h
  refine ⟨?blocks, ?dialect, ?stored, ?loaded, ?memory, ?rest⟩
  case blocks =>
    rintro before b behind rfl
    have hi : start + total before + b.size ≤ 0x1000 := by
      rw [Block.total_append, total, ← Nat.add_assoc, ← Nat.add_assoc] at h
      exact Nat.le_of_add_right_le h
    rw [List.flatMap_append, List.flatMap_cons, ← List.append_assoc] at hh
    exact ⟨passes_storeBlock hi, passes_loadBlock hh.of_append.1 hi⟩
  case dialect => exact congrArg (·.dialect) hs
  case stored  => exact (congrArg (·.cpu.index.toNat) hs).trans <| toNat_add_ofNat h
  case loaded  =>
    have hi : ready.cpu.index.toNat + total bs ≤ 0x1000 := h
    exact (congrArg (·.cpu.index.toNat) hl).trans <| toNat_add_ofNat hi
  case memory  => exact congrArg (·.memory) hl
  case rest    =>
    intro a ha
    rw [← Block.length_flatMap_bytes] at ha
    exact (congrArg (·.memory.bytes.get a) hs).trans <| Memory.writeBlock_preserves_byte ha

-- Two blocks that end with the last byte of memory. The second does not reach `V2`, which stays as
-- it is found.
theorem load_stream_store_at_end_of_memory : ∃ (m : Machine) (first second : Block),
    m.dialect = .compatible ∧ m.cpu.index = 0xFFB ∧ first.last = 2 ∧ second.last = 1 ∧
    let ready := (m.stream storeBlock [first, second]).pointTo m.cpu.index
    let o := (ready.stream loadBlock [first]).loadBlock second
    o.fault = none ∧ o.machine.cpu.index.toNat = 0x1000 ∧
    o.machine.reg 0 = 0xA0 ∧ o.machine.reg 1 = 0xA1 ∧ o.machine.reg 2 = 0xFF := by
  let m := (fresh .mute .compatible .unlimited ⟨fun _ => 0, 0⟩).pointTo 0xFFB
  let found : Registers := ⟨.replicate 16 0xFF⟩
  let first : Block := ⟨2, .zero, found⟩
  let second : Block := ⟨1, (Registers.zero.set 0 0xA0).set 1 0xA1, found⟩
  have ⟨blocks, hd, _⟩ := m.load_stream_store [first, second] (by decide)
  have ⟨_, load, hr⟩ := blocks [first] second [] rfl
  refine ⟨m, first, second, rfl, rfl, rfl, rfl, load.fault, ?_, ?_, ?_, ?_⟩
  · exact load.left.trans <| congrArg (0xFFB + 3 + Dialect.advance · 2) hd
  · exact hr 0
  · exact hr 1
  · exact hr 2

end Machine
end Chip8
