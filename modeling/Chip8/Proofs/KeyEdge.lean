import Chip8.Proofs.KeyWait

namespace Chip8.Machine

variable {m : Machine} {e : Event} {es : List Event} {x : Register} {k : Key}
variable {began edge now : Nat}

-- A move that has let go of a key that was down. The key has been up since.
structure LetGo (m : Machine) (es : List Event) (k : Key) (began edge now : Nat) : Prop where
  after  : began < edge
  before : edge < now
  move   : es[edge]? = some (.key k false)
  down   : (m.upTo es edge).keypad.isDown k = true
  up     : ∀ n, edge < n → n ≤ now → (m.upTo es n).keypad.isDown k = false

namespace LetGo

theorem extend (h : m.LetGo es k began edge now)
    (hu : (m.upTo es (now + 1)).keypad.isDown k = false) : m.LetGo es k began edge (now + 1) where
  after       := h.after
  before      := Nat.lt_succ_of_lt h.before
  move        := h.move
  down        := h.down
  up n he hle := by
    rcases Nat.le_succ_iff.mp hle with hn | rfl
    · exact h.up n he hn
    · exact hu

theorem of_move (hb : began < now) (hm : es[now]? = some (.key k false))
    (hd : (m.upTo es now).keypad.isDown k = true)
    (hu : (m.upTo es (now + 1)).keypad.isDown k = false) : m.LetGo es k began now (now + 1) where
  after       := hb
  before      := Nat.lt_succ_self now
  move        := hm
  down        := hd
  up n he hle := by
    cases Nat.le_antisymm hle he
    exact hu

end LetGo

-- Nothing but a move of a key touches the keypad as long as a wait goes on.
theorem handle_keypad_of_wait (h : m.keypad.wait = some x)
    (h' : (m.handle e).value.keypad.wait = some x) :
    (m.handle e).value.keypad = m.keypad ∨
    ∃ k down, e = .key k down ∧ (m.handle e).value.keypad = m.keypad.move k down := by
  cases e
  case load | reset => cases h'
  case key k down   => exact .inr ⟨k, down, rfl, rfl⟩
  case cpuTick      =>
    rcases m.tick.of_wait h with ⟨_, hm⟩ | ⟨k, _, hm⟩
    · exact .inl <| congrArg Machine.keypad hm
    · rw [handle, hm] at h'
      cases h'
  all_goals exact .inl rfl

-- As long as a wait goes on, a key counts as let go only if it has been let go since the wait
-- began: the instruction that began the wait has the keypad forget all earlier moves.
theorem WaitsSince.letGo (h : m.WaitsSince es x began now) (hl : now ≤ es.length) :
    (m.upTo es now).keypad.IsReleased k → ∃ edge, m.LetGo es k began edge now := by
  refine m.upTo_induction (P := fun n => (m.upTo es n).keypad.IsReleased k → ∃ edge,
    m.LetGo es k began edge n) h.before hl ?base ?step
  case base =>
    obtain ⟨w, hw⟩ := h.begins
    rw [upTo_succ h.tick, handle, cpuTick_awaitKey hw]
    exact fun hk => absurd hk Keypad.not_isReleased_forgetPrevious
  case step =>
    intro n e hb hn he hs ih hk
    have hw  := h.pending n hb (Nat.le_of_lt hn)
    have hw' := hs ▸ h.pending (n + 1) (Nat.lt_succ_of_lt hb) hn
    have earlier (hk' : (m.upTo es n).keypad.IsReleased k) :
        ∃ edge, m.LetGo es k began edge (n + 1) := by
      obtain ⟨edge, hg⟩ := ih hk'
      exact ⟨edge, hg.extend hk.up⟩
    rcases handle_keypad_of_wait hw hw' with hp | ⟨j, down, rfl, hp⟩
    · exact earlier <| by rwa [hs, hp] at hk
    · have hj := hk
      rw [hs, hp, Keypad.isReleased_move_iff] at hj
      split at hj
      next hkj =>
        obtain ⟨hd, rfl⟩ := hj
        cases hkj
        exact ⟨n, .of_move hb he hd hk.up⟩
      next => exact earlier hj

-- A tick in a run that ends the wait of a register, which is given a key.
structure EndsWait (m : Machine) (es : List Event) (x : Register) (k : Key) (n : Nat) : Prop where
  tick  : es[n]? = some .cpuTick
  waits : (m.upTo es n).keypad.wait = some x
  done  : (m.upTo es (n + 1)).keypad.wait = none
  given : (m.upTo es (n + 1)).reg x = k.toByte

namespace EndsWait

variable {n : Nat}

theorem le_length (h : m.EndsWait es x k n) : n ≤ es.length :=
  have ⟨hn, _⟩ := List.getElem?_eq_some_iff.mp h.tick
  Nat.le_of_lt hn

theorem isReleased (h : m.EndsWait es x k n) : (m.upTo es n).keypad.IsReleased k := by
  have hd := h.done
  have hg := h.given
  rw [upTo_succ h.tick, handle] at hd hg
  rcases (m.upTo es n).tick.of_wait h.waits with ⟨_, hm⟩ | ⟨j, hj, hm⟩
  · rw [hm, h.waits] at hd
    cases hd
  · rw [hm, reg, setReg, Registers.get_set_self] at hg
    cases Key.toByte_injective hg
    exact Keypad.released?_eq_some_iff.mp hj |>.released

end EndsWait

-- The course of a wait in a run: the places where it begins, where the key is let go that it is
-- waiting for, and where it ends.
structure EndsBy (m : Machine) (es : List Event) (x : Register) (k : Key) (began edge n : Nat) :
    Prop where
  ends  : m.EndsWait es x k n
  waits : m.WaitsSince es x began n
  letGo : m.LetGo es k began edge n

namespace EndsBy

variable {x₁ x₂ : Register} {k₁ k₂ : Key} {began₁ edge₁ n₁ began₂ edge₂ n₂ : Nat}

-- A wait is over before the next one begins.
theorem ended_before_next (h₁ : m.EndsBy es x₁ k₁ began₁ edge₁ n₁)
    (h₂ : m.EndsBy es x₂ k₂ began₂ edge₂ n₂) (hn : n₁ < n₂) : n₁ < began₂ := by
  apply Nat.lt_of_not_le
  intro hb
  have hw := h₂.waits.pending (n₁ + 1) (Nat.lt_succ_of_le hb) hn
  cases h₁.ends.done.symm.trans hw

theorem edge_lt_edge (h₁ : m.EndsBy es x₁ k₁ began₁ edge₁ n₁)
    (h₂ : m.EndsBy es x₂ k₂ began₂ edge₂ n₂) (hn : n₁ < n₂) : edge₁ < edge₂ :=
  calc edge₁ < n₁     := h₁.letGo.before
       _     < began₂ := h₁.ended_before_next h₂ hn
       _     < edge₂  := h₂.letGo.after

end EndsBy

-- Whatever happens to a new machine, a wait ends only by a key that is let go after the instruction
-- that began this very wait and is still up, and no two waits end by the same move of a key.
theorem wait_ends_by_fresh_release (hm : m.IsNew) (es : List Event) :
    (∀ x k n, m.EndsWait es x k n → ∃ began edge, m.EndsBy es x k began edge n) ∧
    ∀ x₁ k₁ began₁ edge₁ n₁ x₂ k₂ began₂ edge₂ n₂, n₁ < n₂ →
      m.EndsBy es x₁ k₁ began₁ edge₁ n₁ → m.EndsBy es x₂ k₂ began₂ edge₂ n₂ → edge₁ < edge₂ := by
  constructor
  case left =>
    intro x k n h
    have hn : m.keypad.wait = none := by rw [hm.keypad]
    have ⟨began, hb⟩ := WaitsSince.of_wait hn h.le_length h.waits
    have ⟨edge, hg⟩ := hb.letGo h.le_length h.isReleased
    exact ⟨began, edge, h, hb, hg⟩
  case right =>
    intro x₁ k₁ began₁ edge₁ n₁ x₂ k₂ began₂ edge₂ n₂ hn h₁ h₂
    exact h₁.edge_lt_edge h₂ hn

-- Two registers wait one after the other, and the same key is let go twice.
theorem wait_ends_by_fresh_release_twice : ∃ m : Machine, ∃ es : List Event,
    m.IsNew ∧ ∃ began₁ edge₁ began₂ edge₂,
      m.EndsBy es 5 3 began₁ edge₁ 4 ∧ m.EndsBy es 6 3 began₂ edge₂ 9 ∧ edge₁ < edge₂ := by
  let m := fresh .mute .modern .unlimited ⟨fun _ => 0, 0⟩
  let es : List Event := [.load #[0xF5, 0x0A, 0xF6, 0x0A],
    .cpuTick, .key 3 true, .key 3 false, .cpuTick,
    .cpuTick, .cpuTick, .key 3 true, .key 3 false, .cpuTick]
  have hm : m.IsNew := rfl
  have h₁ : m.EndsWait es 5 3 4 := ⟨rfl, by decide +kernel, by decide +kernel, by decide +kernel⟩
  have h₂ : m.EndsWait es 6 3 9 := ⟨rfl, by decide +kernel, by decide +kernel, by decide +kernel⟩
  have ⟨hl, hr⟩ := wait_ends_by_fresh_release hm es
  have ⟨began₁, edge₁, he₁⟩ := hl _ _ _ h₁
  have ⟨began₂, edge₂, he₂⟩ := hl _ _ _ h₂
  have hlt := hr _ _ _ _ _ _ _ _ _ _ (by decide) he₁ he₂
  exact ⟨m, es, hm, began₁, edge₁, began₂, edge₂, he₁, he₂, hlt⟩

end Chip8.Machine
