import Chip8.Proofs.Release
import Mathlib.Data.List.Induction

namespace Chip8.Keypad

-- What can be done to the keys.
inductive Act
  | move (k : Key) (down : Bool)
  -- No key counts as let go any more.
  | forget
  -- All keys are up.
  | reset
  deriving DecidableEq

def act (p : Keypad) : Act → Keypad
  | .move k down => p.move k down
  | .forget      => p.forgetPrevious
  | .reset       => {}

-- A new keypad, to which all of this has been done in turn.
def acted (acts : List Act) : Keypad :=
  acts.foldl act {}

namespace Act

-- Anything but a move of another key.
def concerns (k : Key) : Act → Bool
  | move j _       => j = k
  | forget | reset => true

-- Leaves the key where it is.
def Spares (k : Key) (a : Act) : Prop :=
  a = forget ∨ a.concerns k = false

-- This act has been done, and since then only quiet ones. The acts before it come first.
def IsLast (Quiet : Act → Prop) (acts before : List Act) (a : Act) : Prop :=
  ∃ later, acts = before ++ a :: later ∧ ∀ b ∈ later, Quiet b

-- The last move of the key since the last reset has put it there.
def LastPut (acts : List Act) (k : Key) (down : Bool) : Prop :=
  ∃ before, IsLast (Spares k) acts before (move k down)

-- The last move of the key has let it go, which had been put down before, and since then there has
-- been neither a reset nor a forgetting.
def LastLetGo (acts : List Act) (k : Key) : Prop :=
  ∃ before, IsLast (·.concerns k = false) acts before (move k false) ∧ LastPut before k true

variable {Quiet : Act → Prop} {acts before : List Act} {a b : Act} {j k : Key} {down : Bool}

theorem concerns_move_eq_false_iff : (move j down).concerns k = false ↔ k ≠ j := by
  simp [concerns, eq_comm]

theorem IsLast.concat (h : IsLast Quiet acts before a) (hb : Quiet b) :
    IsLast Quiet (acts ++ [b]) before a := by
  have ⟨later, he, hl⟩ := h
  refine ⟨later ++ [b], by simp [he], fun c hc => ?_⟩
  rcases List.mem_append.mp hc with hc | hc
  · exact hl c hc
  · exact List.mem_singleton.mp hc ▸ hb

end Act

open Act

variable {acts : List Act} {a : Act} {p : Keypad} {k : Key} {down : Bool}

theorem acted_concat (acts : List Act) (a : Act) : acted (acts ++ [a]) = (acted acts).act a :=
  List.foldl_append ..

section

variable {P : Keypad → Prop} {Quiet : Act → Prop}

-- What an act brings about stays as long as only quiet ones follow.
theorem of_isLast {before : List Act} (done : P ((acted before).act a))
    (quiet : ∀ p b, Quiet b → P p → P (p.act b)) : IsLast Quiet acts before a → P (acted acts) := by
  intro ⟨later, he, hl⟩
  rw [he, acted, List.foldl_append, List.foldl_cons, ← acted]
  generalize (acted before).act a = p at done
  clear he
  induction later generalizing p
  case nil             => exact done
  case cons b later ih =>
    have ⟨hb, hl⟩ := List.forall_mem_cons.mp hl
    exact ih hl _ <| quiet p b hb done

-- What does not hold of a new keypad has been brought about by an act that only quiet ones follow,
-- if all others put an end to it.
theorem exists_isLast {Begins : Keypad → Act → Prop} (new : ¬P {})
    (step : ∀ p a, P (p.act a) → Begins p a ∨ (Quiet a ∧ P p)) (h : P (acted acts)) :
    ∃ before a, IsLast Quiet acts before a ∧ Begins (acted before) a := by
  induction acts using List.reverseRecOn
  case nil                        => exact absurd h new
  case append_singleton acts a ih =>
    rw [acted_concat] at h
    rcases step _ a h with hb | ⟨hq, hp⟩
    · exact ⟨acts, a, ⟨[], rfl, nofun⟩, hb⟩
    · have ⟨before, b, hl, hb⟩ := ih hp
      exact ⟨before, b, hl.concat hq, hb⟩

end

theorem isDown_act (h : a.Spares k) : (p.act a).isDown k = p.isDown k := by
  cases a
  case move j down =>
    have hk := concerns_move_eq_false_iff.mp <| h.resolve_left nofun
    rw [act, isDown_move, if_neg hk]
  case forget => rfl
  case reset  => rcases h with h | h <;> cases h

theorem isDown_act_iff :
    (p.act a).isDown k = true ↔ a = .move k true ∨ (a.Spares k ∧ p.isDown k = true) := by
  cases a
  case move j down =>
    rw [act, isDown_move, Spares, concerns_move_eq_false_iff]
    by_cases hk : k = j
    case pos => simp [hk]
    case neg => simp [hk, Ne.symm hk]
  case forget => simp [act, isDown_forgetPrevious, Spares]
  case reset  => simp [act, isDown, Spares, concerns]

theorem isReleased_act_iff :
    (p.act a).IsReleased k ↔
      (a = .move k false ∧ p.isDown k = true) ∨ (a.concerns k = false ∧ p.IsReleased k) := by
  cases a
  case move j down =>
    rw [act, isReleased_move_iff, concerns_move_eq_false_iff]
    by_cases hk : k = j
    case pos => simp [hk, and_comm]
    case neg => simp [hk, Ne.symm hk]
  case forget => simp [act, not_isReleased_forgetPrevious, concerns]
  case reset  => simp [act, isReleased_iff, wasDown, concerns]

theorem isDown_acted : LastPut acts k down → (acted acts).isDown k = down
  | ⟨_, h⟩ => of_isLast (P := (·.isDown k = down)) (by rw [act, isDown_move, if_pos rfl])
    (fun _ _ hs => (isDown_act hs).trans) h

theorem lastPut_of_isDown (h : (acted acts).isDown k = true) : LastPut acts k true := by
  have ⟨before, _, hl, ha⟩ := exists_isLast (P := (·.isDown k = true)) (by simp [isDown])
    (fun _ _ => isDown_act_iff.mp) h
  exact ⟨before, ha ▸ hl⟩

theorem isReleased_acted_iff : (acted acts).IsReleased k ↔ LastLetGo acts k := by
  constructor
  case mp =>
    intro h
    obtain ⟨before, _, hl, ha, hd⟩ := exists_isLast (P := (·.IsReleased k))
      (by simp [isReleased_iff, wasDown]) (fun _ _ => isReleased_act_iff.mp) h
    exact ⟨before, ha ▸ hl, lastPut_of_isDown hd⟩
  case mpr =>
    rintro ⟨before, hl, hd⟩
    refine of_isLast (P := (·.IsReleased k)) ?_ (fun _ _ hq hr => ?_) hl
    · exact isReleased_act_iff.mpr <| .inl ⟨rfl, isDown_acted hd⟩
    · exact isReleased_act_iff.mpr <| .inr ⟨hq, hr⟩

-- The moves of other keys can be left out.
theorem acted_filter (acts : List Act) (k : Key) :
    (acted (acts.filter (·.concerns k))).isDown k = (acted acts).isDown k ∧
    ((acted (acts.filter (·.concerns k))).IsReleased k ↔ (acted acts).IsReleased k) := by
  induction acts using List.reverseRecOn
  case nil                        => exact ⟨rfl, .rfl⟩
  case append_singleton acts a ih =>
    have ⟨hd, hr⟩ := ih
    rw [List.filter_append, acted_concat]
    cases hc : a.concerns k
    case true  =>
      rw [List.filter_cons_of_pos hc, List.filter_nil, acted_concat, Bool.eq_iff_iff]
      simp only [isDown_act_iff, isReleased_act_iff, hd, hr, and_self]
    case false =>
      have hn : a ≠ .move k false := fun h => by simp [h, concerns] at hc
      rw [List.filter_cons_of_neg (by simp [hc]), List.filter_nil, List.append_nil,
        isDown_act (.inr hc), isReleased_act_iff, or_iff_right fun h => hn h.left,
        and_iff_right hc]
      exact ih

-- Whatever has been done to a new keypad, a key is where its last move since the last reset has put
-- it, and up if there is none. The lowest key is given whose last move has let it go, if this move
-- has not been forgotten and if the key had been put down before, which may have been forgotten. What
-- has been done to other keys does not matter for any of this.
theorem released?_follows_history (acts : List Act) :
    (∀ k down, LastPut acts k down → (acted acts).isDown k = down) ∧
    (∀ k, (∀ down, ¬LastPut acts k down) → (acted acts).isDown k = false) ∧
    (∀ k, (acted acts).released? = some k ↔ LastLetGo acts k ∧ ∀ j, LastLetGo acts j → k ≤ j) ∧
    ((acted acts).released? = none ↔ ∀ k, ¬LastLetGo acts k) ∧
    ∀ k acts', acts'.filter (·.concerns k) = acts.filter (·.concerns k) →
      (acted acts').isDown k = (acted acts).isDown k ∧ (LastLetGo acts' k ↔ LastLetGo acts k) := by
  refine ⟨fun k down => isDown_acted, fun k hn => ?up, fun k => ?some, ?none,
    fun k acts' h => ?other⟩
  case up   => exact Bool.eq_false_iff.mpr fun hd => hn true <| lastPut_of_isDown hd
  case some =>
    simp only [released?_eq_some_iff, ← isReleased_acted_iff]
    exact ⟨fun ⟨hr, hl⟩ => ⟨hr, hl⟩, fun ⟨hr, hl⟩ => ⟨hr, hl⟩⟩
  case none => simp only [released?_eq_none_iff, isReleased_acted_iff]
  case other =>
    have ⟨hd', hr'⟩ := acted_filter acts' k
    have ⟨hd, hr⟩ := acted_filter acts k
    rw [h] at hd' hr'
    rw [← isReleased_acted_iff, ← isReleased_acted_iff]
    exact ⟨hd'.symm.trans hd, hr'.symm.trans hr⟩

-- A key that is held while all is forgotten is let go after a lower one, whose release is hidden as
-- it goes up twice. To the key that is held it is as if the lower one had not moved.
theorem released?_follows_history_of_held_key : ∃ acts acts' : List Act,
    LastPut acts 12 true ∧ (acted acts).isDown 12 = true ∧
    (acted acts).released? = some 9 ∧ LastLetGo acts 9 ∧ ¬LastLetGo acts 3 ∧
    acts'.filter (·.concerns 9) = acts.filter (·.concerns 9) ∧ LastLetGo acts' 9 := by
  let acts : List Act := [.move 9 true, .forget, .move 3 true, .move 3 false, .move 9 false,
    .move 3 false, .move 12 true]
  let acts' : List Act := [.move 9 true, .forget, .move 9 false]
  have ⟨put, _, lowest, _, others⟩ := released?_follows_history acts
  have h₁₂ : LastPut acts 12 true := ⟨acts.take 6, [], rfl, nofun⟩
  have h₉ : (acted acts).released? = some 9 := by decide
  have ⟨hg, hl⟩ := (lowest 9).mp h₉
  have hf : acts'.filter (·.concerns 9) = acts.filter (·.concerns 9) := by decide
  have ⟨_, hg'⟩ := others 9 acts' hf
  exact ⟨acts, acts', h₁₂, put 12 true h₁₂, h₉, hg, fun h₃ => absurd (hl 3 h₃) (by decide), hf,
    hg'.mpr hg⟩

end Chip8.Keypad
