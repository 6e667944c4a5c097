import Chip8.RunLoop

namespace Chip8
namespace RunLoop

-- What a host asks of the loop. When it comes to a start, the host may have no worker to give.
inductive Call (σ : Type)
  | setSampler (s : σ)
  | start (granted : Bool)
  | stop

namespace Call

variable {σ : Type}

def sampler? : Call σ → Option σ
  | setSampler s => some s
  | _            => none

theorem sampler?_eq_some_iff {c : Call σ} {s : σ} : c.sampler? = some s ↔ c = .setSampler s := by
  cases c <;> simp [sampler?]

-- The sampler that was set last.
def lastSampler? (calls : List (Call σ)) : Option σ :=
  (calls.filterMap sampler?).getLast?

end Call

variable {σ : Type} {l : RunLoop σ} {c : Call σ} {calls : List (Call σ)} {s : σ}
  {w : Worker σ}

def handle (l : RunLoop σ) : Call σ → RunLoop σ
  | .setSampler s  => l.setSampler s
  | .start granted => (l.start granted).value
  | .stop          => l.stop.value

def after (l : RunLoop σ) : List (Call σ) → RunLoop σ
  | []         => l
  | c :: calls => (l.handle c).after calls

theorem start_granted (h : l.worker = none) :
    (l.start true).value = { l with sampler := none, worker := some { sampler := l.sampler } } := by
  simp [start, h]

theorem start_refused (h : l.worker = none) : (l.start false).value = { l with sampler := none } := by
  simp [start, h]

theorem start_of_started (h : l.worker = some w) (granted : Bool) :
    (l.start granted).value = l := by
  simp [start, h]

theorem stop_of_idle (h : l.worker = none) : l.stop.value = l := by
  simp [stop, h]

theorem stop_of_started (h : l.worker = some w) (hc : w.crashed = false) :
    l.stop.value = { l with worker := none, sampler := w.sampler } := by
  simp [stop, h, hc]

-- No worker has been brought down by its sampler.
def Sound (l : RunLoop σ) : Prop :=
  ∀ w, l.worker = some w → w.crashed = false

theorem sound_ofSettings (settings : Settings) : (ofSettings settings : RunLoop σ).Sound :=
  nofun

theorem Sound.handle (h : l.Sound) : (l.handle c).Sound := by
  intro w
  cases c <;> cases hw : l.worker
  case setSampler.none | setSampler.some => exact h w
  case start.none granted =>
    cases granted
    case false => simp [RunLoop.handle, start_refused hw, hw]
    case true  => rw [RunLoop.handle, start_granted hw]; rintro ⟨⟩; rfl
  case start.some  => rw [RunLoop.handle, start_of_started hw]; exact h w
  case stop.none   => rw [RunLoop.handle, stop_of_idle hw]; exact h w
  case stop.some w => rw [RunLoop.handle, stop_of_started hw (h w hw)]; nofun

-- The sampler of the worker at work, or else the one that is kept for the next worker.
def inHand (l : RunLoop σ) : Option σ :=
  match l.worker with
  | none   => l.sampler
  | some w => w.sampler

-- Whether a call puts another sampler in place of the one in hand, or none if a start fails.
def replaces (l : RunLoop σ) : Call σ → Bool
  | .setSampler _  => !l.isStarted
  | .start granted => !(l.isStarted || granted)
  | .stop          => false

-- A sampler that is set while a worker is at work never gets into anyone's hand: when the worker
-- stops, the one that it gives back takes its place.
theorem inHand_handle (h : l.Sound) :
    (l.handle c).inHand = if l.replaces c then c.sampler? else l.inHand := by
  cases c <;> cases hw : l.worker
  case setSampler.none | setSampler.some =>
    simp [handle, setSampler, inHand, replaces, isStarted, hw, Call.sampler?]
  case start.none granted =>
    cases granted
    case false => simp [handle, start_refused hw, inHand, replaces, isStarted, hw, Call.sampler?]
    case true  => simp [handle, start_granted hw, inHand, replaces, hw]
  case start.some  => simp [handle, start_of_started hw, replaces, isStarted, hw]
  case stop.none   => simp [handle, stop_of_idle hw, replaces]
  case stop.some w => simp [handle, stop_of_started hw (h w hw), inHand, replaces, hw]

-- None of the calls replaces the sampler in hand.
def Keeps (l : RunLoop σ) : List (Call σ) → Prop
  | []         => True
  | c :: calls => l.replaces c = false ∧ (l.handle c).Keeps calls

-- The sampler has been set while no worker was at work, and no later call has replaced it.
def SetLast (l : RunLoop σ) (calls : List (Call σ)) (s : σ) : Prop :=
  ∃ before later, calls = before ++ .setSampler s :: later ∧ (l.after before).isStarted = false ∧
    ((l.after before).setSampler s).Keeps later

theorem replaces_setSampler : l.replaces (.setSampler s) = true ↔ l.isStarted = false := by
  simp [replaces]

theorem setLast_cons :
    l.SetLast (c :: calls) s ↔
      (l.handle c).SetLast calls s ∨
      (c = .setSampler s ∧ l.isStarted = false ∧ (l.handle c).Keeps calls) := by
  constructor
  case mp =>
    rintro ⟨_ | ⟨_, before⟩, later, hc, hi, hk⟩ <;> cases hc
    · exact .inr ⟨rfl, hi, hk⟩
    · exact .inl ⟨before, later, rfl, hi, hk⟩
  case mpr =>
    rintro (⟨before, later, rfl, hi, hk⟩ | ⟨rfl, hi, hk⟩)
    · exact ⟨c :: before, later, rfl, hi, hk⟩
    · exact ⟨[], calls, rfl, hi, hk⟩

theorem inHand_after_iff (h : l.Sound) :
    (l.after calls).inHand = some s ↔
      l.SetLast calls s ∨ (l.inHand = some s ∧ l.Keeps calls) := by
  induction calls generalizing l
  case nil           => simp [after, SetLast, Keeps]
  case cons c calls ih =>
    rw [after, ih h.handle, setLast_cons, inHand_handle h, or_assoc]
    refine or_congr_right ?_
    cases hr : l.replaces c
    case false =>
      have hn : ¬(c = .setSampler s ∧ l.isStarted = false) := by
        rintro ⟨rfl, hi⟩
        rw [replaces_setSampler.mpr hi] at hr
        cases hr
      grind [Keeps]
    case true =>
      have hs : c = .setSampler s → l.isStarted = false := by
        rintro rfl
        exact replaces_setSampler.mp hr
      grind [Keeps, Call.sampler?_eq_some_iff]

-- A start hands the new worker the sampler that was set last while no worker was at work, and none
-- if there is no such sampler or if a start has failed since then.
theorem start_hands_over (settings : Settings) (calls : List (Call σ)) :
    let new    := ofSettings settings
    let before := new.after calls
    before.isStarted = false →
      ∃ w, (before.start true).value.worker = some w ∧
        ∀ s, w.sampler = some s ↔ new.SetLast calls s := by
  intro new before hi
  have hw : before.worker = none := by simpa [isStarted] using hi
  refine ⟨_, congrArg worker (start_granted hw), fun s => ?_⟩
  have hb : before.inHand = before.sampler := by simp [inHand, hw]
  rw [← hb, inHand_after_iff <| sound_ofSettings settings]
  exact or_iff_left (nomatch ·.left)

-- Of three samplers the second is handed over: it is set between two workers, the third while the
-- second of them is at work.
theorem start_hands_over_of_three : ∃ calls : List (Call Nat),
    let new    := ofSettings {}
    let before := new.after calls
    before.isStarted = false ∧
      ∃ w, (before.start true).value.worker = some w ∧ w.sampler = some 2 ∧
        ∀ s, w.sampler = some s ↔ new.SetLast calls s := by
  let calls : List (Call Nat) :=
    [.setSampler 1, .start true, .stop, .setSampler 2, .start true, .setSampler 3, .stop]
  have hi : (ofSettings {} |>.after calls).isStarted = false := by decide
  have ⟨w, hw, hs⟩ := start_hands_over {} calls hi
  refine ⟨calls, hi, w, hw, (hs 2).mpr ?set, hs⟩
  case set =>
    exact ⟨[.setSampler 1, .start true, .stop], [.start true, .setSampler 3, .stop], rfl, by decide,
      rfl, rfl, rfl, trivial⟩

-- So it need not be the sampler that was set last of all.
theorem last_sampler_not_handed_over :
    ¬∀ (σ : Type) (settings : Settings) (calls : List (Call σ)),
      let before := (ofSettings settings).after calls
      before.isStarted = false → ∀ w, (before.start true).value.worker = some w →
        w.sampler = Call.lastSampler? calls := by
  intro h
  have hs := h Nat {} [.setSampler 1, .start true, .setSampler 2, .stop] rfl _ rfl
  revert hs
  decide

end RunLoop
end Chip8
