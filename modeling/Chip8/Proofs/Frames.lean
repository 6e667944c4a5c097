import Chip8.Proofs.Footprint
import Chip8.Proofs.Painting
import Chip8.Proofs.Run

namespace Chip8

-- A picture in two colours, row by row in one run.
abbrev Frame := Vector UInt32 2048

namespace Screen

theorem get_snapshot (s : Screen) (x : Fin 64) (y : Fin 32) :
    (s.snapshot.get y).get x = s.lit (.ofPosition x y) := by
  change s.snapshot[y][x] = s.lit (.ofPosition x y)
  simp [snapshot]

-- The two ways to read the picture agree cell by cell.
theorem getElem?_pixels (s : Screen) (on off : UInt32) (x : Fin 64) (y : Fin 32) :
    (s.pixels on off)[y.val * 64 + x.val]? =
      some (if (s.snapshot.get y).get x then on else off) := by
  have hc : y.val * 64 + x.val < 2048 := (Cell.ofPosition x y).isLt
  simp [get_snapshot, pixels, lit, Cell.ofPosition, hc]

-- What is painted on a screen marks it, unless there is nothing to paint.
theorem paint_eq_self_or_changed (s : Screen) (x y : UInt8) (rows : List UInt8) :
    (s.paint x y rows).1 = s ∨ (s.paint x y rows).1.changed = true := by
  unfold paint
  cases h : Sprite.cells x.toNat y.toNat rows
  case nil  => exact .inl rfl
  case cons => exact .inr <| by simp [changed_toggleAll]

end Screen

namespace Machine

variable {m m' : Machine} {e : Event} {on off : UInt32}

-- If a step touches the picture, it leaves it marked.
def Marks (m m' : Machine) : Prop :=
  m'.screen = m.screen ∨ m'.screen.changed = true

theorem draw_marks (m : Machine) (x y : Register) (n : Nibble) :
    m.Marks (m.draw x y n).machine := by
  unfold draw
  split
  · exact .inl rfl
  · exact m.screen.paint_eq_self_or_changed ..

theorem execute_marks (m : Machine) (i : Instruction) : m.Marks (m.execute i).machine := by
  cases i
  case clear => exact .inr rfl
  case draw  => exact m.draw_marks ..
  all_goals exact .inl <| execute_preserves_screen nofun nofun

theorem Tick.marks : Tick m m' → m.Marks m'
  | wait .. | resolve .. | rest _ | stuck _ => .inl rfl
  | @complete _ _ i _ _                     => (m.start i).execute_marks i
  | @fail _ _ i _ _ _                       => (m.start i).execute_marks i

theorem handle_marks (he : e ≠ .takeFrame) : m.Marks (m.handle e).value := by
  cases e
  case takeFrame    => exact absurd rfl he
  case load | reset => exact .inr rfl
  case cpuTick      => exact m.tick.marks
  all_goals exact .inl rfl

-- A host that shows this frame, or nothing yet, shows the picture unless that is marked.
def UpToDate (on off : UInt32) (m : Machine) (shown : Option Frame) : Prop :=
  m.screen.changed = false → shown = some (m.screen.pixels on off)

theorem Marks.upToDate {shown : Option Frame} (h : m.Marks m') (hs : m.UpToDate on off shown) :
    m'.UpToDate on off shown := by
  intro hc
  rcases h with h | h
  · rw [h] at hc ⊢
    exact hs hc
  · cases hc.symm.trans h

end Machine

namespace Emulator

variable {em : Emulator} {e : Event} {on off : UInt32} {last : Option Frame}

-- The frame that a host is given at an event.
def given? (on off : UInt32) (em : Emulator) : Event → Option Frame
  | .takeFrame => em.frame? on off
  | _          => none

-- The frame that a host shows after a run, if it shows `last` before and then draws every frame
-- that it is given.
def shown (on off : UInt32) (em : Emulator) (last : Option Frame) : List Event → Option Frame
  | []      => last
  | e :: es => (em.handle e).value.shown on off ((em.given? on off e).or last) es

theorem given?_of_ne (he : e ≠ .takeFrame) : em.given? on off e = none := by
  cases e
  case takeFrame => exact absurd rfl he
  all_goals rfl

theorem shown_of_not_taken {es : List Event} (h : ∀ e ∈ es, e ≠ .takeFrame) :
    em.shown on off last es = last := by
  induction es generalizing em
  case nil          => rfl
  case cons e es ih =>
    have ⟨he, hes⟩ := List.forall_mem_cons.mp h
    rw [shown, given?_of_ne he]
    exact ih hes

-- Whether there is a frame to be given or not, the picture is what a host shows once it has asked.
theorem shown_takeFrame (h : em.machine.UpToDate on off last) :
    em.shown on off last [.takeFrame] = some (em.machine.screen.pixels on off) := by
  simp only [shown, given?, frame?, Machine.frame?]
  cases hc : em.machine.screen.changed
  case false => exact h hc
  case true  => rfl

-- A new screen is marked.
theorem upToDate_ofSettings {s : Settings} {speaker : Speaker} {noise : Noise} :
    (Emulator.ofSettings s speaker noise).machine.UpToDate on off last :=
  fun h => nomatch h

theorem upToDate_handle (h : em.machine.UpToDate on off last) (e : Event) :
    (em.handle e).value.machine.UpToDate on off ((em.given? on off e).or last) := by
  by_cases he : e = .takeFrame
  case pos =>
    subst he
    exact fun _ => shown_takeFrame h
  case neg =>
    rw [given?_of_ne he]
    exact (Machine.handle_marks he).upToDate h

theorem upToDate_after (h : em.machine.UpToDate on off last) (es : List Event) :
    (em.after es).machine.UpToDate on off (em.shown on off last es) := by
  induction es generalizing em last
  case nil          => exact h
  case cons e es ih => exact ih <| upToDate_handle h e

-- Whatever happens to a new emulator, right after a frame has been asked for, be it given or not,
-- a host that has drawn all frames given so far shows the picture as it is, cell by cell. The first
-- one to ask is given a frame.
theorem host_shows_picture (s : Settings) (speaker : Speaker) (noise : Noise) (on off : UInt32)
    (es : List Event) :
    let start := Emulator.ofSettings s speaker noise
    let em    := start.after (es ++ [.takeFrame])
    (∃ frame, start.shown on off none (es ++ [.takeFrame]) = some frame ∧
      ∀ (x : Fin 64) (y : Fin 32), frame[y.val * 64 + x.val]? =
        some (if (em.machine.screen.snapshot.get y).get x then on else off)) ∧
    ((∀ e ∈ es, e ≠ .takeFrame) → ((start.after es).frame? on off).isSome) := by
  intro start em
  have hu {es : List Event} :
      (start.after es).machine.UpToDate on off (start.shown on off none es) :=
    upToDate_after upToDate_ofSettings es
  have hc : em.machine.screen.changed = false := by
    rw [machine_after, Machine.after_concat]
    rfl
  refine ⟨⟨_, hu hc, em.machine.screen.getElem?_pixels on off⟩, fun he => ?first⟩
  case first =>
    have hm : (start.after es).machine.screen.changed = true := by
      rw [← Bool.not_eq_false]
      exact fun hf => nomatch (shown_of_not_taken he).symm.trans <| hu hf
    rw [frame?, Machine.frame?, if_pos hm]
    rfl

-- A glyph is drawn, and then drawn over itself.
theorem host_shows_picture_of_glyph : ∃ (s : Settings) (es fs : List Event),
    let start := Emulator.ofSettings s .mute ⟨fun _ => 0, 0⟩
    (∀ e ∈ es, e ≠ .takeFrame) ∧ ((start.after es).frame? 7 1).isSome ∧
    (∃ frame, start.shown 7 1 none (es ++ [.takeFrame]) = some frame ∧ frame[0]? = some 7) ∧
    ∃ frame, start.shown 7 1 none (fs ++ [.takeFrame]) = some frame ∧ frame[0]? = some 1 := by
  let es : List Event := [
    .load #[0xA0, 0x50, 0xD0, 0x05, 0xD0, 0x05], .cpuTick, .timerTick, .cpuTick]
  let fs : List Event := es ++ [.takeFrame, .takeFrame, .key 3 true, .cpuTick]
  have he : ∀ e ∈ es, e ≠ .takeFrame := by decide
  have ⟨⟨frame, hf, hc⟩, h⟩ := host_shows_picture {} .mute ⟨fun _ => 0, 0⟩ 7 1 es
  have ⟨⟨frame', hf', hc'⟩, _⟩ := host_shows_picture {} .mute ⟨fun _ => 0, 0⟩ 7 1 fs
  have hon : frame[0]? = some 7 := (hc 0 0).trans <| congrArg some <| if_pos (by decide +kernel)
  have hoff : frame'[0]? = some 1 :=
    (hc' 0 0).trans <| congrArg some <| if_neg (by decide +kernel)
  exact ⟨{}, es, fs, he, h he, ⟨frame, hf, hon⟩, frame', hf', hoff⟩

end Emulator
end Chip8
