import Chip8.Log
import Chip8.Speaker

namespace Chip8

inductive Report
  | sound (call : Speaker.Call)
  | log (entry : Log.Entry)
  deriving DecidableEq

namespace Report

def call? : Report → Option Speaker.Call
  | sound c => some c
  | log _ => none

def entry? : Report → Option Log.Entry
  | sound _ => none
  | log e => some e

end Report

-- A result, and what was reported on the way to it, in order.
@[ext]
structure Reported (α : Type) where
  value : α
  reports : List Report := []

namespace Reported

variable {α β : Type}

def calls (r : Reported α) : List Speaker.Call :=
  r.reports.filterMap Report.call?

def entries (r : Reported α) : List Log.Entry :=
  r.reports.filterMap Report.entry?

def map (f : α → β) (r : Reported α) : Reported β :=
  ⟨f r.value, r.reports⟩

-- One step after the other.
def andThen (r : Reported α) (f : α → Reported β) : Reported β :=
  let s := f r.value
  ⟨s.value, r.reports ++ s.reports⟩

theorem calls_andThen (r : Reported α) (f : α → Reported β) :
    (r.andThen f).calls = r.calls ++ (f r.value).calls := by
  simp [calls, andThen]

theorem entries_andThen (r : Reported α) (f : α → Reported β) :
    (r.andThen f).entries = r.entries ++ (f r.value).entries := by
  simp [entries, andThen]

end Reported
end Chip8
