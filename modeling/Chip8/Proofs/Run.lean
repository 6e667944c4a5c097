import Chip8.Emulator

namespace Chip8

-- The last of what a list brings, when one more thing stands before it.
theorem getLast?_filterMap_cons {α β : Type} (f : α → Option β) (a : α) (as : List α) :
    ((a :: as).filterMap f).getLast? = (as.filterMap f).getLast?.or (f a) := by
  cases h : f a
  case none   => simp [h]
  case some b => simp [h, List.getLast?_cons, Option.or_some]

namespace Event

-- Whether the machine begins its program anew.
def restarts : Event → Bool
  | load _ | reset => true
  | _ => false

def program? : Event → Option (Array UInt8)
  | load program => some program
  | _ => none

-- The program that was put in last.
def lastProgram? (es : List Event) : Option (Array UInt8) :=
  (es.filterMap program?).getLast?

theorem lastProgram?_cons (e : Event) (es : List Event) :
    lastProgram? (e :: es) = (lastProgram? es).or e.program? :=
  getLast?_filterMap_cons ..

theorem program?_eq_some_iff {e : Event} {program : Array UInt8} :
    e.program? = some program ↔ e = .load program := by
  cases e <;> simp [program?]

theorem isSome_lastProgram?_iff {es : List Event} :
    (lastProgram? es).isSome = true ↔ ∃ program, .load program ∈ es := by
  induction es
  case nil          => simp [lastProgram?]
  case cons e es ih =>
    rw [lastProgram?_cons, Option.isSome_or, Bool.or_eq_true, ih, Option.isSome_iff_exists]
    simp only [program?_eq_some_iff, List.mem_cons, exists_or, or_comm, @eq_comm _ e]

end Event

namespace Machine

variable {m : Machine} {es : List Event} {e : Event} {n : Nat}

-- A machine that has just been switched on.
def IsNew (m : Machine) : Prop :=
  m = fresh m.speaker m.dialect m.limiter m.noise

theorem IsNew.keypad (h : m.IsNew) : m.keypad = {} :=
  congrArg Machine.keypad h

theorem after_concat (m : Machine) (es : List Event) (e : Event) :
    m.after (es ++ [e]) = ((m.after es).handle e).value :=
  m.after_append es [e]

-- The machine at place `n` of a run, when `n` events are behind it.
def upTo (m : Machine) (es : List Event) (n : Nat) : Machine :=
  m.after (es.take n)

theorem upTo_succ (h : es[n]? = some e) :
    m.upTo es (n + 1) = ((m.upTo es n).handle e).value := by
  rw [upTo, List.take_add_one, h]
  exact after_concat ..

theorem upTo_length (m : Machine) (es : List Event) : m.upTo es es.length = m.after es := by
  rw [upTo, List.take_length]

-- What holds at place `a` of a run and survives every event from there on holds at place `b`.
theorem upTo_induction (m : Machine) {es : List Event} {P : Nat → Prop} {a b : Nat} (hab : a ≤ b)
    (hb : b ≤ es.length) (base : P a) (step : ∀ n e, a ≤ n → n < b → es[n]? = some e →
      m.upTo es (n + 1) = ((m.upTo es n).handle e).value → P n → P (n + 1)) : P b := by
  induction hab
  case refl => exact base
  case step n hn ih =>
    have he := List.getElem?_eq_getElem hb
    refine step n _ hn (Nat.lt_succ_self n) he (upTo_succ he) <| ih (Nat.le_of_succ_le hb) ?_
    exact fun j e ha hj => step j e ha (Nat.lt_succ_of_lt hj)

-- What does not hold in the beginning and holds at a later place of a run has been brought about by
-- an event, and has held since.
theorem exists_since {P : Machine → Prop} {now : Nat} (hm : ¬P m) (hl : now ≤ es.length)
    (hp : P (m.upTo es now)) : ∃ began e, began < now ∧ es[began]? = some e ∧
      ¬P (m.upTo es began) ∧ ∀ n, began < n → n ≤ now → P (m.upTo es n) := by
  refine m.upTo_induction (P := fun now => P (m.upTo es now) → ∃ began e, began < now ∧
    es[began]? = some e ∧ ¬P (m.upTo es began) ∧ ∀ n, began < n → n ≤ now → P (m.upTo es n))
    (Nat.zero_le _) hl ?base ?step hp
  case base => exact fun h => absurd h hm
  case step =>
    intro now e _ _ he _ ih h'
    have last {began : Nat} (hs : ∀ n, began < n → n ≤ now → P (m.upTo es n)) :
        ∀ n, began < n → n ≤ now + 1 → P (m.upTo es n) := by
      intro n hb hn
      rcases Nat.le_succ_iff.mp hn with hn | rfl
      · exact hs n hb hn
      · exact h'
    by_cases h : P (m.upTo es now)
    case pos =>
      have ⟨began, e, hb, he, hn, hs⟩ := ih h
      exact ⟨began, e, Nat.lt_succ_of_lt hb, he, hn, last hs⟩
    case neg =>
      refine ⟨now, e, Nat.lt_succ_self now, he, h, last fun n hb hn => ?_⟩
      exact absurd hb <| Nat.not_lt_of_le hn

-- A run in which nothing of a kind happens.
inductive Without (P : Machine → Event → Prop) : Machine → List Event → Prop
  | nil {m : Machine} : Without P m []
  | cons {m : Machine} {e : Event} {es : List Event} (here : ¬P m e)
    (rest : Without P (m.handle e).value es) : Without P m (e :: es)

-- Either nothing of a kind happens in a run, or the run splits where it happens last.
theorem without_or_exists_last (P : Machine → Event → Prop) (m : Machine) (es : List Event) :
    m.Without P es ∨ ∃ fs e gs, es = fs ++ e :: gs ∧ P (m.after fs) e ∧
      ((m.after fs).handle e).value.Without P gs := by
  induction es generalizing m
  case nil          => exact .inl .nil
  case cons e es ih =>
    rcases ih (m.handle e).value with hw | ⟨fs, f, gs, rfl, hp, hw⟩
    case inr => exact .inr ⟨e :: fs, f, gs, rfl, hp, hw⟩
    case inl =>
      by_cases hp : P m e
      case pos => exact .inr ⟨[], e, es, rfl, hp, hw⟩
      case neg => exact .inl <| .cons hp hw

theorem without_cons_iff {P : Machine → Event → Prop} {m : Machine} {e : Event} {es : List Event} :
    m.Without P (e :: es) ↔ ¬P m e ∧ (m.handle e).value.Without P es where
  mp  := fun (.cons here rest) => ⟨here, rest⟩
  mpr := fun ⟨here, rest⟩ => .cons here rest

instance decidableWithout (P : Machine → Event → Prop) [∀ m e, Decidable (P m e)] :
    (m : Machine) → (es : List Event) → Decidable (m.Without P es)
  | _, []      => .isTrue .nil
  | m, e :: es =>
    have := decidableWithout P (m.handle e).value es
    decidable_of_iff' _ without_cons_iff

theorem Without.forall_not {P : Event → Prop} {m : Machine} {es : List Event} :
    m.Without (fun _ => P) es → ∀ e ∈ es, ¬P e
  | .nil            => nofun
  | .cons here rest => List.forall_mem_cons.mpr ⟨here, rest.forall_not⟩

theorem Without.of_append {P : Machine → Event → Prop} {m : Machine} {fs gs : List Event}
    (h : m.Without P (fs ++ gs)) : m.Without P fs ∧ (m.after fs).Without P gs := by
  induction fs generalizing m
  case nil          => exact ⟨.nil, h⟩
  case cons e fs ih =>
    have ⟨here, rest⟩ := without_cons_iff.mp h
    have ⟨hf, hg⟩ := ih rest
    exact ⟨.cons here hf, hg⟩

-- A run in which no program begins anew, and in which every tick of the processor finds the machine
-- as `P` says.
inductive Stretch (P : Machine → Prop) : Machine → List Event → Prop
  | nil {m : Machine} : Stretch P m []
  | cons {m : Machine} {e : Event} {es : List Event} (stays : e.restarts = false)
    (ticks : e = .cpuTick → P m) (rest : Stretch P (m.handle e).value es) : Stretch P m (e :: es)

theorem Stretch.preserves {P Q : Machine → Prop}
    (step : ∀ {m e}, e.restarts = false → (e = .cpuTick → P m) → Q m → Q (m.handle e).value)
    {m : Machine} {es : List Event} : m.Stretch P es → Q m → Q (m.after es)
  | .nil, h                   => h
  | .cons stays ticks rest, h => rest.preserves step <| step stays ticks h

end Machine

namespace Emulator

-- What a list of events leads to, by the clocks of the machine and by the host.
def after (em : Emulator) : List Event → Emulator
  | []      => em
  | e :: es => (em.handle e).value.after es

theorem machine_after (em : Emulator) (es : List Event) :
    (em.after es).machine = em.machine.after es := by
  induction es generalizing em
  case nil          => rfl
  case cons e es ih => exact ih _

end Emulator
end Chip8
