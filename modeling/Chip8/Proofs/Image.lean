import Chip8.Proofs.Refit
import Chip8.Proofs.Restart

namespace Chip8

namespace Memory

section

variable {bytes : Vector UInt8 4096} {a c : Nat} {block : List UInt8}

theorem getElem_overlay_of_mem (fits : a + block.length ≤ 4096) (hc : c < 4096) (ha : a ≤ c)
    (hb : c - a < block.length) : (overlay bytes a block fits)[c] = block[c - a] := by
  have hl : (bytes.toList.take a).length = a := by
    simp
    omega
  simp only [overlay, Vector.getElem_mk, List.getElem_toArray, List.append_assoc]
  rw [List.getElem_append_right (by omega)]
  simp only [hl]
  exact List.getElem_append_left hb

theorem getElem_overlay_of_not_mem (fits : a + block.length ≤ 4096) (hc : c < 4096)
    (h : c < a ∨ a + block.length ≤ c) : (overlay bytes a block fits)[c] = bytes[c] := by
  have hl : (bytes.toList.take a ++ block).length = a + block.length := by
    simp
    omega
  simp only [overlay, Vector.getElem_mk, List.getElem_toArray]
  rcases h with h | h
  · rw [List.getElem_append_left (by omega), List.getElem_append_left (by simp; omega),
      List.getElem_take, Vector.getElem_toList]
  · rw [List.getElem_append_right (by omega), List.getElem_drop, Vector.getElem_toList]
    simp only [hl, Nat.add_sub_cancel' h]

end

-- The byte at an address when a program begins: the glyphs have their place, the program has its
-- own up to where it ends or memory does, and all the rest is zero.
def imageByte (program : Array UInt8) (a : Nat) : UInt8 :=
  if h : 0x050 ≤ a ∧ a ≤ 0x09F then Glyph.bytes[a - 0x050]
  else if 0x200 ≤ a then program.getD (a - 0x200) 0
  else 0

def imageBytes (program : Array UInt8) : Vector UInt8 4096 :=
  .ofFn fun a => imageByte program a

theorem getElem_imageBytes (program : Array UInt8) {a : Nat} (h : a < 4096) :
    (imageBytes program)[a] = imageByte program a :=
  Vector.getElem_ofFn ..

theorem getElem_glyphs {a : Nat} (h : a < 4096) : glyphs[a] = imageByte #[] a := by
  have hf : Glyph.first = 0x050 := rfl
  have hl : Glyph.bytes.toList.length = 80 := Vector.length_toList
  unfold glyphs imageByte
  by_cases hg : 0x050 ≤ a ∧ a ≤ 0x09F
  case pos =>
    rw [getElem_overlay_of_mem _ h (by omega) (by omega), dif_pos hg,
      ← Vector.getElem_toList]
    rfl
  case neg =>
    rw [getElem_overlay_of_not_mem _ h (by omega), dif_neg hg]
    simp

theorem getElem_image_ofBytes (program : Array UInt8) {a : Nat} (h : a < 4096) :
    (image (some (Rom.ofBytes program))).bytes[a] = imageByte program a := by
  have hf : Rom.first = 0x200 := rfl
  have hs : (Rom.ofBytes program).bytes.toList.length = min 3584 program.size := by
    simp [Rom.ofBytes, Rom.capacity]
  simp only [image]
  by_cases hr : 0x200 ≤ a ∧ a - 0x200 < program.size
  case pos =>
    have hg : ¬(0x050 ≤ a ∧ a ≤ 0x09F) := by omega
    rw [getElem_overlay_of_mem _ h (by omega) (by omega), imageByte, dif_neg hg, if_pos hr.left]
    simp [Rom.ofBytes, hf, hr]
  case neg =>
    rw [getElem_overlay_of_not_mem _ h (by omega), getElem_glyphs]
    unfold imageByte
    by_cases ha : 0x200 ≤ a
    case pos => simp [show program.size ≤ a - 0x200 by omega]
    case neg => simp [ha]

-- Without a program, the image is that of an empty one.
theorem bytes_image : (program? : Option (Array UInt8)) →
    (image (program?.map Rom.ofBytes)).bytes = imageBytes (program?.getD #[])
  | none         => Vector.ext fun _ h => (getElem_glyphs h).trans (getElem_imageBytes _ h).symm
  | some program => Vector.ext fun _ h =>
    (getElem_image_ofBytes program h).trans (getElem_imageBytes _ h).symm

theorem imageBytes_congr {program₁ program₂ : Array UInt8}
    (h : ∀ k < 3584, program₁.getD k 0 = program₂.getD k 0) :
    imageBytes program₁ = imageBytes program₂ :=
  congrArg Vector.ofFn <| funext fun a => by
    have := a.isLt
    simp only [imageByte, h (a - 0x200) (by omega)]

-- What can be done to memory.
inductive Change
  | write (a : Nat) (b : UInt8)
  | load (program : Array UInt8)
  | reset

namespace Change

def restarts : Change → Bool
  | write .. => false
  | load _ | reset => true

def program? : Change → Option (Array UInt8)
  | load program => some program
  | write .. | reset => none

def lastProgram? (cs : List Change) : Option (Array UInt8) :=
  (cs.filterMap program?).getLast?

theorem lastProgram?_cons (c : Change) (cs : List Change) :
    lastProgram? (c :: cs) = (lastProgram? cs).or c.program? :=
  getLast?_filterMap_cons ..

end Change

-- A write that is out of bounds changes nothing.
def change (m : Memory) : Change → Memory
  | .write a b => (m.write a b).toOption.getD m
  | .load program => .load program
  | .reset => m.reset

def changed (m : Memory) (cs : List Change) : Memory :=
  cs.foldl change m

theorem changed_concat (m : Memory) (cs : List Change) (c : Change) :
    m.changed (cs ++ [c]) = (m.changed cs).change c :=
  List.foldl_append

theorem staged_change (m : Memory) (c : Change) :
    (m.change c).staged = (c.program?.map Rom.ofBytes).or m.staged := by
  cases c
  case write a b =>
    cases h : m.write a b
    case error => simp [change, h, Except.toOption, Change.program?]
    case ok    => simpa [change, h, Except.toOption, Change.program?] using write_preserves_staged h
  all_goals rfl

theorem staged_changed (m : Memory) (cs : List Change) :
    (m.changed cs).staged = ((Change.lastProgram? cs).map Rom.ofBytes).or m.staged := by
  induction cs generalizing m
  case nil          => rfl
  case cons c cs ih =>
    have hc : m.changed (c :: cs) = (m.change c).changed cs := rfl
    rw [hc, ih, staged_change, Change.lastProgram?_cons]
    cases Change.lastProgram? cs <;> rfl

theorem change_of_restarts {m : Memory} {c : Change} (h : c.restarts = true) :
    m.change c = image (m.change c).staged := by
  cases c
  case write        => cases h
  case load | reset => rfl

theorem staged_blank_changed (cs : List Change) :
    (blank.changed cs).staged = (Change.lastProgram? cs).map Rom.ofBytes := by
  rw [staged_changed]
  exact Option.or_none

theorem bytes_blank_changed {cs : List Change} {c : Change} (hc : cs.getLast? = some c)
    (h : c.restarts = true) :
    (blank.changed cs).bytes = imageBytes ((Change.lastProgram? cs).getD #[]) := by
  have ⟨cs', hcs⟩ := List.getLast?_eq_some_iff.mp hc
  have hi : blank.changed cs = image (blank.changed cs).staged := by
    rw [hcs, changed_concat]
    exact change_of_restarts h
  rw [hi, staged_blank_changed, bytes_image]

end Memory

namespace Rom

-- What is staged of a program.
theorem map_bytes_ofBytes (program? : Option (Array UInt8)) :
    (program?.map ofBytes).map (·.bytes) = program?.map (·.take 3584) := by
  rw [Option.map_map]
  rfl

-- A reset makes the same of either staged program.
structure Interchangeable (rom₁ rom₂ : Option Rom) : Prop where
  bytes  : (Memory.image rom₁).bytes = (Memory.image rom₂).bytes
  isSome : rom₁.isSome = rom₂.isSome

namespace Interchangeable

theorem or {rom₁ rom₂ : Option Rom} (h : Interchangeable rom₁ rom₂) :
    (rom : Option Rom) → Interchangeable (rom.or rom₁) (rom.or rom₂)
  | none   => h
  | some _ => ⟨rfl, rfl⟩

-- Programs are padded with zeros, and cut where memory ends.
theorem of_padded {program₁ program₂ : Array UInt8}
    (h : ∀ k < 3584, program₁.getD k 0 = program₂.getD k 0) :
    Interchangeable (some (ofBytes program₁)) (some (ofBytes program₂)) where
  bytes  := by
    have h₁ := Memory.bytes_image (some program₁)
    have h₂ := Memory.bytes_image (some program₂)
    exact h₁.trans <| (Memory.imageBytes_congr h).trans h₂.symm
  isSome := rfl

end Interchangeable
end Rom

namespace Machine

variable {m : Machine}

-- The machine with another program to be begun at a reset.
def restage (m : Machine) (staged : Option Rom) : Machine :=
  { m with memory.staged := staged }

theorem cpuTick_restage (m : Machine) (staged : Option Rom) :
    (m.restage staged).cpuTick = m.cpuTick.map (·.restage staged) := by
  have h : m.cpuTick.value.refit m.dialect staged = m.cpuTick.value.restage staged := by
    rw [← m.tick.preserves_dialect]
    rfl
  calc (m.restage staged).cpuTick
    _ = m.cpuTick.map (·.refit m.dialect staged) := cpuTick_refit staged fun _ _ _ => rfl
    _ = m.cpuTick.map (·.restage staged)         := Reported.ext h rfl

-- A reset is the only step that looks at the staged program.
theorem reset_restage {staged : Option Rom} (h : Rom.Interchangeable staged m.memory.staged) :
    (m.restage staged).reset = m.reset.map (·.restage staged) := by
  have hm : (m.restage staged).memory.reset = { m.memory.reset with staged } :=
    Memory.ext h.bytes rfl
  refine Reported.ext ?_ rfl
  simp only [Reported.map]
  rw [reset_value, reset_value, hm, restage, restage]
  simp only [h.isSome]

theorem handle_restage {staged : Option Rom} (h : Rom.Interchangeable staged m.memory.staged)
    (e : Event) : (m.restage staged).handle e =
      (m.handle e).map (·.restage ((e.program?.map Rom.ofBytes).or staged)) := by
  cases e
  case reset   => exact reset_restage h
  case cpuTick => exact cpuTick_restage m staged
  all_goals rfl

theorem run_restage {staged : Option Rom} (h : Rom.Interchangeable staged m.memory.staged)
    (es : List Event) : (m.restage staged).run es =
      (m.run es).map (·.restage (((Event.lastProgram? es).map Rom.ofBytes).or staged)) := by
  induction es generalizing m staged
  case nil          => rfl
  case cons e es ih =>
    have hs := h.or (e.program?.map Rom.ofBytes)
    rw [← staged_handle] at hs
    rw [run, handle_restage h]
    simp only [Reported.andThen, Reported.map, ih hs, run, Event.lastProgram?_cons]
    cases Event.lastProgram? es <;> rfl

theorem load_restage (m : Machine) {program₁ program₂ : Array UInt8}
    (h : ∀ k < 3584, program₁.getD k 0 = program₂.getD k 0) :
    (m.load program₂).value = (m.load program₁).value.restage (some (Rom.ofBytes program₂)) := by
  have hm : Memory.load program₂ =
      { Memory.load program₁ with staged := some (Rom.ofBytes program₂) } :=
    Memory.ext (Rom.Interchangeable.of_padded h).bytes.symm rfl
  rw [load_value, load_value, hm]
  rfl

theorem memory_handle_of_restarts {e : Event} (h : e.restarts = true) :
    (m.handle e).value.memory = .image (m.handle e).value.memory.staged := by
  cases e
  case load | reset => rfl
  all_goals cases h

section

variable {start : Machine} (hs : start.memory = .blank)
include hs

theorem staged_after_blank (es : List Event) :
    (start.after es).memory.staged = (Event.lastProgram? es).map Rom.ofBytes := by
  rw [staged_after, hs]
  exact Option.or_none

theorem bytes_after_blank {es : List Event} {e : Event} (he : es.getLast? = some e)
    (h : e.restarts = true) :
    (start.after es).memory.bytes = Memory.imageBytes ((Event.lastProgram? es).getD #[]) := by
  have ⟨es', hes⟩ := List.getLast?_eq_some_iff.mp he
  have hi : (start.after es).memory = .image (start.after es).memory.staged := by
    rw [hes, after_concat]
    exact memory_handle_of_restarts h
  rw [hi, staged_after_blank hs, Memory.bytes_image]

end

-- Whatever has been done to memory, by itself or in a machine, the staged program is the one that
-- was put in last, cut to what fits, and a load or a reset leaves the image of that program, with
-- nothing of what was there before. So two programs that differ in no more than zeros at their ends
-- and in what does not fit run the same, whatever happens, and leave the same machine but for the
-- staged program.
theorem begins_with_image :
    (∀ cs : List Memory.Change,
      let memory := Memory.blank.changed cs
      memory.staged.map (·.bytes) = (Memory.Change.lastProgram? cs).map (·.take 3584) ∧
      ∀ c, cs.getLast? = some c → c.restarts = true →
        memory.bytes = Memory.imageBytes ((Memory.Change.lastProgram? cs).getD #[])) ∧
    (∀ (start : Machine) (es : List Event), start.memory = .blank →
      let memory := (start.after es).memory
      memory.staged.map (·.bytes) = (Event.lastProgram? es).map (·.take 3584) ∧
      ∀ e, es.getLast? = some e → e.restarts = true →
        memory.bytes = Memory.imageBytes ((Event.lastProgram? es).getD #[])) ∧
    ∀ (m : Machine) (program₁ program₂ : Array UInt8),
      (∀ k < 3584, program₁.getD k 0 = program₂.getD k 0) →
      let m₁ := (m.load program₁).value
      let m₂ := (m.load program₂).value
      ∀ es, m₂.after es = { m₁.after es with memory.staged := (m₂.after es).memory.staged } ∧
        (m₂.run es).reports = (m₁.run es).reports := by
  refine ⟨?memory, ?machine, ?programs⟩
  case memory =>
    intro cs memory
    refine ⟨?_, fun c hc h => Memory.bytes_blank_changed hc h⟩
    rw [← Rom.map_bytes_ofBytes, ← Memory.staged_blank_changed]
  case machine =>
    intro start es hs memory
    refine ⟨?_, fun e he h => bytes_after_blank hs he h⟩
    rw [← Rom.map_bytes_ofBytes, ← staged_after_blank hs]
  case programs =>
    intro m program₁ program₂ h m₁ m₂ es
    have hi := Rom.Interchangeable.of_padded fun k hk => (h k hk).symm
    have hr : m₂.run es = _ := (congrArg (·.run es) <| m.load_restage h).trans <| run_restage hi es
    rw [after, hr]
    exact ⟨rfl, rfl⟩

-- The program is put in after a longer one, and stores two registers over its own first word; then
-- it is begun anew.
theorem begins_with_image_after_store : ∃ (start : Machine) (es : List Event)
    (longer program padded : Array UInt8), start.memory = .blank ∧
    (let cs : List Memory.Change := [.load longer, .write 0x300 0x5A, .write 0x1000 1, .load program]
     (Memory.blank.changed cs).bytes = Memory.imageBytes program) ∧
    (start.after es).memory.bytes[0x201] = 0x5A ∧
    (start.after (es ++ [.reset])).memory.bytes = Memory.imageBytes program ∧
    Memory.imageByte program 0x201 = 0x00 ∧
    padded ≠ program ∧
    (let m₁ := (start.load program).value.after es
     let m₂ := (start.load padded).value.after es
     m₂ = { m₁ with memory.staged := m₂.memory.staged }) := by
  let start := fresh .mute .modern .unlimited ⟨fun _ => 0, 0⟩
  let longer : Array UInt8 := #[0x12, 0x00, 0xFF, 0xFF, 0xFF, 0xFF, 0xFF, 0xFF, 0xFF, 0xFF]
  let program : Array UInt8 := #[0xA2, 0x00, 0x61, 0x5A, 0xF1, 0x55]
  let padded : Array UInt8 := #[0xA2, 0x00, 0x61, 0x5A, 0xF1, 0x55, 0x00, 0x00]
  let es : List Event := [.load longer, .cpuTick, .load program, .cpuTick, .cpuTick, .cpuTick]
  have hs : start.memory = .blank := rfl
  have hp : ∀ k < 3584, program.getD k 0 = padded.getD k 0 := by
    intro k _
    by_cases hk : k < 8
    case pos => exact (by decide : ∀ k < 8, program.getD k 0 = padded.getD k 0) k hk
    case neg => simp [program, padded, show 6 ≤ k by omega, show 8 ≤ k by omega]
  have hi : (start.after es).memory.bytes[0x201] = 0x5A := by decide +kernel
  have hz : Memory.imageByte program 0x201 = 0x00 := by decide +kernel
  have ⟨hmemory, hmachine, hprograms⟩ := begins_with_image
  have ⟨_, hc⟩ := hmemory [.load longer, .write 0x300 0x5A, .write 0x1000 1, .load program]
  have ⟨_, he⟩ := hmachine start (es ++ [.reset]) hs
  have ⟨hv, _⟩ := hprograms start program padded hp es
  have hc' := hc _ rfl rfl
  have he' := he _ rfl rfl
  exact ⟨start, es, longer, program, padded, hs, hc', hi, he', hz, by decide, hv⟩

end Machine
end Chip8
