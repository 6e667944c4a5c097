import Chip8.Proofs.Consistency

namespace Chip8

namespace Keypad

variable {p : Keypad} {k : Key} {move : Key × Bool} {moves : List (Key × Bool)}

-- The keypad after keys have moved, each up or down.
def moved (p : Keypad) (moves : List (Key × Bool)) : Keypad :=
  moves.foldl (fun p move => p.move move.1 move.2) p

-- The key is not among the moves.
def Unmoved (moves : List (Key × Bool)) (k : Key) : Prop :=
  ∀ down, (k, down) ∉ moves

-- One of the moves lets the key go, which is down until then. The rest of the moves comes later.
def LetsGo (p : Keypad) (moves : List (Key × Bool)) (k : Key) (later : List (Key × Bool)) : Prop :=
  ∃ before, moves = before ++ (k, false) :: later ∧ (p.moved before).isDown k = true

-- The last move of the key lets it go.
def LetsGoLast (p : Keypad) (moves : List (Key × Bool)) (k : Key) : Prop :=
  ∃ later, p.LetsGo moves k later ∧ Unmoved later k

theorem wait_moved (p : Keypad) (moves : List (Key × Bool)) : (p.moved moves).wait = p.wait := by
  induction moves generalizing p
  case nil                => rfl
  case cons move moves ih => exact ih _

theorem unmoved_cons : Unmoved (move :: moves) k ↔ k ≠ move.1 ∧ Unmoved moves k := by
  simp only [Unmoved, List.mem_cons, not_or, forall_and, Prod.ext_iff]
  exact and_congr_left' ⟨fun h hk => h move.2 ⟨hk, rfl⟩, fun h down hm => h hm.left⟩

theorem letsGoLast_cons :
    p.LetsGoLast (move :: moves) k ↔
      (p.move move.1 move.2).LetsGoLast moves k ∨
      (move = (k, false) ∧ p.isDown k = true ∧ Unmoved moves k) := by
  constructor
  case mp =>
    rintro ⟨later, ⟨_ | ⟨_, before⟩, hm, hd⟩, hl⟩ <;> cases hm
    · exact .inr ⟨rfl, hd, hl⟩
    · exact .inl ⟨later, ⟨before, rfl, hd⟩, hl⟩
  case mpr =>
    rintro (⟨later, ⟨before, rfl, hd⟩, hl⟩ | ⟨rfl, hd, hl⟩)
    · exact ⟨later, ⟨move :: before, rfl, hd⟩, hl⟩
    · exact ⟨moves, ⟨[], rfl, hd⟩, hl⟩

-- A key counts as let go if its last move lets it go, or if it has counted so before and is not
-- among the moves.
theorem isReleased_moved_iff :
    (p.moved moves).IsReleased k ↔
      p.LetsGoLast moves k ∨ (p.IsReleased k ∧ Unmoved moves k) := by
  induction moves generalizing p
  case nil                => simp [moved, LetsGoLast, LetsGo, Unmoved]
  case cons move moves ih =>
    obtain ⟨j, down⟩ := move
    have hm : p.moved ((j, down) :: moves) = (p.move j down).moved moves := rfl
    rw [hm, ih, letsGoLast_cons, isReleased_move_iff, unmoved_cons, or_assoc]
    refine or_congr_right ?_
    by_cases hj : k = j
    case pos => subst hj; grind
    case neg => grind

theorem isReleased_moved_iff_of_unreleased (h : ∀ k, ¬p.IsReleased k) :
    (p.moved moves).IsReleased k ↔ p.LetsGoLast moves k := by
  rw [isReleased_moved_iff, or_iff_left fun hk => h k hk.left]

end Keypad

-- The move of a key that an event is.
def Event.move? : Event → Option (Key × Bool)
  | key k down => some (k, down)
  | _          => none

namespace Machine

variable {m : Machine} {e : Event} {es : List Event} {x : Register}

-- Between two ticks nothing but the moves of keys reaches the keypad.
theorem keypad_after (he : ∀ e ∈ es, e.restarts = false ∧ e ≠ .cpuTick) :
    (m.after es).keypad = m.keypad.moved (es.filterMap Event.move?) := by
  induction es generalizing m
  case nil          => rfl
  case cons e es ih =>
    have ⟨⟨hr, ht⟩, hes⟩ := List.forall_mem_cons.mp he
    rw [after_cons, ih hes]
    cases e
    case load | reset => cases hr
    case cpuTick      => exact absurd rfl ht
    all_goals rfl

-- A tick leaves no key that counts as let go if a register waits after it.
theorem unreleased_cpuTick (h : m.cpuTick.value.keypad.wait = some x) :
    m.cpuTick.value.Unreleased := by
  rcases cpuTick_waits h with ⟨_, hu, hm⟩ | ⟨w, ht⟩
  · rwa [hm]
  · rw [cpuTick_awaitKey ht]
    exact fun k => Keypad.not_isReleased_forgetPrevious

theorem wait_after (he : ∀ e ∈ es, e.restarts = false ∧ e ≠ .cpuTick)
    (h : m.keypad.wait = some x) : (m.after es).keypad.wait = some x := by
  rw [keypad_after he, Keypad.wait_moved, h]

-- While a register waits, whatever happens between two ticks of the processor, the second tick ends
-- the wait if there is a key whose last move since the first tick lets it go: the register is given
-- the lowest such key. If there is no such key, the tick changes nothing.
theorem wait_ends_by_last_move (hw : m.cpuTick.value.keypad.wait = some x)
    (he : ∀ e ∈ es, e.restarts = false ∧ e ≠ .cpuTick) :
    let before := m.cpuTick.value
    let after  := before.after es
    let LetGo (k : Key) := before.keypad.LetsGoLast (es.filterMap Event.move?) k
    ((∃ k, LetGo k) → ∃ k, LetGo k ∧ (∀ j, LetGo j → k ≤ j) ∧ after.Given x k after.cpuTick.value) ∧
    ((¬∃ k, LetGo k) → after.cpuTick.value = after) := by
  intro before after LetGo
  have hk (k : Key) : after.keypad.IsReleased k ↔ LetGo k := by
    rw [keypad_after he]
    exact Keypad.isReleased_moved_iff_of_unreleased <| unreleased_cpuTick hw
  have hu : after.Unreleased ↔ ¬∃ k, LetGo k := by
    rw [not_exists]
    exact forall_congr' fun k => not_congr (hk k)
  have hb : after.Blocked x := blocked_of_wait <| wait_after he hw
  refine ⟨fun hl => ?ends, fun hl => hb.unreleased <| hu.mpr hl⟩
  case ends =>
    have ⟨k, hr, hg⟩ := hb.released fun h => hu.mp h hl
    exact ⟨k, (hk k).mp hr.released, fun j hj => hr.lowest j <| (hk j).mpr hj, hg⟩

-- Three keys go up between two ticks, and the lowest of them goes down again.
theorem wait_ends_by_last_move_of_three : ∃ m : Machine, ∃ es : List Event,
    m.cpuTick.value.keypad.wait = some 5 ∧ (∀ e ∈ es, e.restarts = false ∧ e ≠ .cpuTick) ∧
    let before := m.cpuTick.value
    let after  := before.after es
    let LetGo (k : Key) := before.keypad.LetsGoLast (es.filterMap Event.move?) k
    LetGo 7 ∧ after.cpuTick.value.reg 5 = 7 ∧
    ∃ k, LetGo k ∧ (∀ j, LetGo j → k ≤ j) ∧ after.Given 5 k after.cpuTick.value := by
  let m := (fresh .mute .modern .unlimited ⟨fun _ => 0, 0⟩).load #[0xF5, 0x0A] |>.value
  let es : List Event := [.key 3 true, .key 7 true, .key 12 true, .timerTick,
    .key 3 false, .key 12 false, .key 7 false, .key 3 true]
  have hw : m.cpuTick.value.keypad.wait = some 5 := by decide +kernel
  have he : ∀ e ∈ es, e.restarts = false ∧ e ≠ .cpuTick := by decide
  have hl : m.cpuTick.value.keypad.LetsGoLast (es.filterMap Event.move?) 7 :=
    ⟨[(3, true)], ⟨[(3, true), (7, true), (12, true), (3, false), (12, false)], rfl,
      by decide +kernel⟩, by simp [Keypad.Unmoved]⟩
  have ⟨h, _⟩ := wait_ends_by_last_move hw he
  exact ⟨m, es, hw, he, hl, by decide +kernel, h ⟨7, hl⟩⟩

-- So not every release is seen: where a key is let go twice in a row, the second move hides that the
-- first has let it go, and the wait goes on.
theorem release_hidden_by_second_move :
    ¬∀ (start : Machine) (history es : List Event) (x : Register), start.IsNew →
      let before := start.after (history ++ [.cpuTick])
      let after  := before.after es
      let LetGo (k : Key) := ∃ later, before.keypad.LetsGo (es.filterMap Event.move?) k later
      before.keypad.wait = some x → (∀ e ∈ es, ∃ k down, e = .key k down) → (∃ k, LetGo k) →
        ∃ k, LetGo k ∧ after.cpuTick.value.keypad.wait = none ∧
          after.cpuTick.value.reg x = k.toByte := by
  intro h
  have ⟨_, _, hw, _⟩ := h (fresh .mute .modern .unlimited ⟨fun _ => 0, 0⟩)
    [.load #[0xF5, 0x0A]] [.key 3 true, .key 3 false, .key 3 false] 5 rfl (by decide +kernel)
    (by simp) ⟨3, [(3, false)], [(3, true)], rfl, by decide +kernel⟩
  revert hw
  decide +kernel

end Machine
end Chip8
