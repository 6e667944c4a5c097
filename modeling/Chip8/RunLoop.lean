import Chip8.Report
import Chip8.Settings

namespace Chip8

-- A worker that is at work, or that its sampler has brought down.
@[ext]
structure Worker (σ : Type) where
  sampler : Option σ
  crashed : Bool := false
  deriving DecidableEq

-- A worker makes the clocks of a machine tick, and calls a sampler now and then.
@[ext]
structure RunLoop (σ : Type) where
  cpuPeriod : Period
  timerPeriod : Period
  samplingPeriod : Option Period
  -- The sampler for the next worker.
  sampler : Option σ := none
  worker : Option (Worker σ) := none
  deriving DecidableEq

namespace RunLoop

variable {σ : Type}

def ofSettings (s : Settings) : RunLoop σ where
  cpuPeriod := s.cpuPeriod
  timerPeriod := s.timerPeriod
  samplingPeriod := s.samplingPeriod

def isStarted (l : RunLoop σ) : Bool :=
  l.worker.isSome

-- The worker at work keeps the sampler it has.
def setSampler (l : RunLoop σ) (s : σ) : RunLoop σ :=
  { l with sampler := some s }

-- The sampler goes with the new worker; it is gone too if the host has no worker to give.
def start (l : RunLoop σ) (granted : Bool) : Reported (RunLoop σ) :=
  match l.worker with
  | some _ => ⟨l, [.log .alreadyStarted]⟩
  | none =>
    if granted then
      ⟨{ l with sampler := none, worker := some { sampler := l.sampler } },
        [.log (.started l.cpuPeriod l.timerPeriod)]⟩
    else ⟨{ l with sampler := none }, []⟩

-- The worker hands back the sampler it was given, which takes the place of any other. One that
-- has crashed hands back nothing.
def stop (l : RunLoop σ) : Reported (RunLoop σ) :=
  match l.worker with
  | none => ⟨l, []⟩
  | some w =>
    if w.crashed then ⟨{ l with worker := none }, [.log .crashed, .log .stopped]⟩
    else ⟨{ l with worker := none, sampler := w.sampler }, [.log .stopped]⟩

-- Whether a worker makes the clocks tick.
def isTicking (l : RunLoop σ) : Bool :=
  l.worker.any fun w => !w.crashed

-- The sampler that is called now and then.
def sampling? (l : RunLoop σ) : Option σ := do
  let _ ← l.samplingPeriod
  let w ← l.worker
  if w.crashed then none else w.sampler

-- The sampler brings the worker down.
def crash (l : RunLoop σ) : RunLoop σ :=
  { l with worker := l.worker.map ({ · with crashed := true }) }

end RunLoop
end Chip8
