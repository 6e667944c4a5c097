import Mathlib.Data.Nat.Find
import Chip8.Proofs.Halt
import Chip8.Proofs.Progress

namespace Chip8

-- The first place after `a` where `P` holds.
theorem exists_first {P : Nat → Prop} {a b : Nat} (hab : a < b) (hb : P b) :
    ∃ n, a < n ∧ n ≤ b ∧ P n ∧ ∀ j, a < j → j < n → ¬P j := by
  classical
  have hex : ∃ n, a < n ∧ P n := ⟨b, hab, hb⟩
  have ⟨hlt, hn⟩ := Nat.find_spec hex
  refine ⟨Nat.find hex, hlt, Nat.find_min' hex ⟨hab, hb⟩, hn, fun j hj hjn hp => ?_⟩
  exact Nat.find_min hex hjn ⟨hj, hp⟩

namespace CallStack

variable {s t : CallStack} {a pc : UInt16}

theorem returns_of_push (h : s.push a pc = .ok t) : t.returns = a :: s.returns := by
  simp only [push] at h
  split at h <;> cases h
  rfl

theorem returns_of_pop (h : s.pop pc = .ok (a, t)) : s.returns = a :: t.returns := by
  obtain ⟨_ | ⟨b, as⟩, hs⟩ := s <;> cases h
  rfl

end CallStack

namespace Machine

variable {m m' : Machine} {e : Event} {es : List Event}

-- Where the calls under way return to, the innermost first.
def returns (m : Machine) : List UInt16 :=
  m.cpu.stack.returns

-- The calls under way, once a call at the program counter is among them.
def frame (m : Machine) : List UInt16 :=
  (m.cpu.pc + 2) :: m.returns

theorem returns_call {nnn : Address} (h : m.Completes (.call nnn)) :
    m.cpuTick.value.returns = m.frame := by
  have hd := h.fault_eq_none
  rw [h.cpuTick_value]
  simp only [execute] at hd ⊢
  split at hd
  case h_1      => cases hd
  case h_2 _ hp =>
    exact CallStack.returns_of_push hp

theorem returns_ret (h : m.Completes .ret) :
    m.returns = m.cpuTick.value.cpu.pc :: m.cpuTick.value.returns := by
  have hd := h.fault_eq_none
  rw [h.cpuTick_value]
  simp only [execute] at hd ⊢
  split at hd
  case h_1        => cases hd
  case h_2 _ _ hp =>
    exact CallStack.returns_of_pop hp

-- What an event can do to the call stack, unless a program begins anew.
inductive StackMove (m : Machine) (e : Event) (m' : Machine) : Prop
  | stay (stack : m'.returns = m.returns)
  | push (stack : m'.returns = m.frame)
  | pop (tick : e = .cpuTick) (ret : m.Completes .ret)
    (stack : m.returns = m'.cpu.pc :: m'.returns)

theorem returns_of_completes {i : Instruction} (h : m.Completes i) (hr : i ≠ .ret)
    (hc : ∀ nnn, i ≠ .call nnn) : m.cpuTick.value.returns = m.returns := by
  rw [h.cpuTick_value]
  exact congrArg CallStack.returns <| execute_preserves_stack (m := m.start i) hr hc

theorem stackMove_of_completes {i : Instruction} (h : m.Completes i) :
    StackMove m .cpuTick m.cpuTick.value := by
  by_cases hr : i = .ret
  case pos => exact .pop rfl (hr ▸ h) <| returns_ret (hr ▸ h)
  case neg =>
    by_cases hc : ∃ nnn, i = .call nnn
    case pos =>
      have ⟨_, hc⟩ := hc
      exact .push <| returns_call (hc ▸ h)
    case neg => exact .stay <| returns_of_completes h hr fun nnn hn => hc ⟨nnn, hn⟩

theorem Tick.stackMove : Tick m m' → StackMove m .cpuTick m'
  | wait .. | resolve .. | rest _ | stuck _ => .stay rfl
  | complete ht hd => by
    have h : m.Completes _ := ⟨_, ht, hd⟩
    exact h.cpuTick_value ▸ stackMove_of_completes h
  | fail _ hf => by
    have h := congrArg returns (cutShort_execute hf).rest
    exact .stay h

theorem stackMove_handle (he : e.restarts = false) : StackMove m e (m.handle e).value := by
  cases e
  case load | reset => cases he
  case cpuTick      => exact m.tick.stackMove
  all_goals exact .stay rfl

-- The instruction that a tick in a run completes.
structure CompletesAt (m : Machine) (es : List Event) (n : Nat) (i : Instruction) : Prop where
  tick      : es[n]? = some .cpuTick
  completes : (m.upTo es n).Completes i

theorem CompletesAt.returns_succ {n : Nat} {nnn : Address} (h : m.CompletesAt es n (.call nnn)) :
    (m.upTo es (n + 1)).returns = (m.upTo es n).frame := by
  rw [upTo_succ h.tick]
  exact returns_call h.completes

-- A call in a run that is over at a later place: the first where the call stack is as deep again.
structure ReturnsAt (m : Machine) (es : List Event) (call back : Nat) : Prop where
  calls  : ∃ nnn, m.CompletesAt es call (.call nnn)
  later  : call < back
  inside : back ≤ es.length
  stays  : ∀ n e, call < n → n < back → es[n]? = some e → e.restarts = false
  away   : ∀ n, call < n → n < back →
    (m.upTo es n).cpu.stack.depth ≠ (m.upTo es call).cpu.stack.depth
  again  : (m.upTo es back).cpu.stack.depth = (m.upTo es call).cpu.stack.depth

namespace StackMove

-- A call under way stays so, unless it is the innermost one and the program returns from it.
theorem suffix {as : List UInt16} (h : as <:+ m.returns) : StackMove m e m' →
    as <:+ m'.returns ∨ e = .cpuTick ∧ m.Completes .ret ∧ as = m'.cpu.pc :: m'.returns
  | stay hs      => .inl <| hs ▸ h
  | push hs      => .inl <| hs ▸ h.trans (List.suffix_cons ..)
  | pop ht hr hs => by
    rcases List.suffix_cons_iff.mp (hs ▸ h) with rfl | h
    · exact .inr ⟨ht, hr, rfl⟩
    · exact .inl h

theorem depth_le : StackMove m e m' → m.returns.length ≤ m'.returns.length + 1
  | stay hs     => hs ▸ Nat.le_succ _
  | push hs     => by rw [hs, frame, List.length_cons]; omega
  | pop _ _ hs  => by rw [hs, List.length_cons]

end StackMove

namespace ReturnsAt

variable {call back n : Nat}

theorem stackMove (h : m.ReturnsAt es call back) (hc : call < n) (hb : n < back) :
    ∃ e, es[n]? = some e ∧ StackMove (m.upTo es n) e (m.upTo es (n + 1)) := by
  have he := List.getElem?_eq_getElem <| Nat.lt_of_lt_of_le hb h.inside
  refine ⟨_, he, ?_⟩
  rw [upTo_succ he]
  exact stackMove_handle <| h.stays n _ hc hb he

-- As long as a call is under way, all that it found on the call stack is still there, and above it
-- where the call returns to.
theorem frame_suffix (h : m.ReturnsAt es call back) (hc : call < n) (hb : n < back) :
    (m.upTo es call).frame <:+ (m.upTo es n).returns := by
  have hn := Nat.le_trans (Nat.le_of_lt hb) h.inside
  refine m.upTo_induction (P := fun n => _ <:+ (m.upTo es n).returns) hc hn ?base ?step
  case base =>
    have ⟨_, hi⟩ := h.calls
    exact hi.returns_succ ▸ List.suffix_rfl
  case step =>
    intro j _ hj hjn _ _ ih
    have ⟨_, _, hm⟩ := h.stackMove hj (Nat.lt_trans hjn hb)
    rcases hm.suffix ih with hs | ⟨_, _, hs⟩
    · exact hs
    · -- Then the call would be over before `back`.
      have hd := congrArg List.length (List.cons.inj hs).right
      exact absurd hd.symm <| h.away (j + 1) (Nat.lt_succ_of_lt hj) (Nat.lt_of_le_of_lt hjn hb)

theorem deeper (h : m.ReturnsAt es call back) (hc : call < n) (hb : n < back) :
    (m.upTo es call).returns.length < (m.upTo es n).returns.length :=
  (h.frame_suffix hc hb).length_le

-- The event that ends a call is a return, and it takes away what the call has put on the stack.
theorem exists_ret (h : m.ReturnsAt es call back) :
    ∃ ret, back = ret + 1 ∧ m.CompletesAt es ret .ret ∧
      (m.upTo es call).frame = (m.upTo es back).cpu.pc :: (m.upTo es back).returns := by
  obtain ⟨ret, rfl⟩ := Nat.exists_eq_succ_of_ne_zero <| Nat.ne_zero_of_lt h.later
  have again : (m.upTo es (ret + 1)).returns.length = (m.upTo es call).returns.length := h.again
  have hlt : call < ret := by
    refine Nat.lt_of_le_of_ne (Nat.le_of_lt_succ h.later) fun hc => ?_
    have ⟨_, hi⟩ := h.calls
    rw [← hc, hi.returns_succ, frame, List.length_cons] at again
    omega
  have ⟨e, he, hm⟩ := h.stackMove hlt (Nat.lt_succ_self ret)
  rcases hm.suffix (h.frame_suffix hlt (Nat.lt_succ_self ret)) with hs | ⟨ht, hr, hs⟩
  · have hl := hs.length_le
    rw [again, frame, List.length_cons] at hl
    omega
  · exact ⟨ret, rfl, ⟨ht ▸ he, hr⟩, hs⟩

-- The call stack becomes lower one place at a time: after a call it is no lower than the call
-- found it until it has been just as low.
theorem le_of_higher (h : m.ReturnsAt es call back) {inner : Nat} {nnn : Address}
    (hc : call < inner) (hi : m.CompletesAt es inner (.call nnn)) (hn : inner < n) (hb : n ≤ back)
    (higher : ∀ j, inner < j → j < n →
      (m.upTo es inner).returns.length < (m.upTo es j).returns.length) :
    (m.upTo es inner).returns.length ≤ (m.upTo es n).returns.length := by
  obtain ⟨j, rfl⟩ := Nat.exists_eq_succ_of_ne_zero <| Nat.ne_zero_of_lt hn
  rcases Nat.eq_or_lt_of_le (Nat.le_of_lt_succ hn) with rfl | hj
  · rw [hi.returns_succ, frame, List.length_cons]
    exact Nat.le_succ _
  · have ⟨_, _, hm⟩ := h.stackMove (Nat.lt_trans hc hj) hb
    exact Nat.le_of_lt_succ <| Nat.lt_of_lt_of_le (higher j hj (Nat.lt_succ_self j)) hm.depth_le

-- A call that is made while another is under way is over before it.
theorem exists_inner (h : m.ReturnsAt es call back) {inner : Nat} {nnn : Address}
    (hc : call < inner) (hb : inner < back) (hi : m.CompletesAt es inner (.call nnn)) :
    ∃ innerBack, innerBack < back ∧ m.ReturnsAt es inner innerBack := by
  have hd := h.deeper hc hb
  have again : (m.upTo es back).returns.length = (m.upTo es call).returns.length := h.again
  obtain ⟨n, hlt, hle, hn, hmin⟩ := exists_first hb
    (P := fun n => (m.upTo es n).returns.length ≤ (m.upTo es inner).returns.length) (by omega)
  have hge := h.le_of_higher hc hi hlt hle fun j hj hjn => Nat.lt_of_not_le <| hmin j hj hjn
  have hne : n ≠ back := by
    rintro rfl
    omega
  refine ⟨n, Nat.lt_of_le_of_ne hle hne, ?_⟩
  exact {
    calls  := ⟨nnn, hi⟩
    later  := hlt
    inside := Nat.le_trans hle h.inside
    stays j e hj hjn := h.stays j e (Nat.lt_trans hc hj) (Nat.lt_of_lt_of_le hjn hle)
    away j hj hjn he := hmin j hj hjn <| Nat.le_of_eq he
    again  := Nat.le_antisymm hn hge }

end ReturnsAt

-- In whatever run, a call is over with a return that goes on right after it and leaves the call
-- stack as the call found it, and every call made meanwhile is over before.
theorem calls_nest {call back : Nat} (h : m.ReturnsAt es call back) :
    let before := m.upTo es call
    let after  := m.upTo es back
    (∃ ret, back = ret + 1 ∧ m.CompletesAt es ret .ret) ∧
    after.cpu.pc.toNat = before.cpu.pc.toNat + 2 ∧ after.cpu.stack = before.cpu.stack ∧
    ∀ inner nnn, call < inner → inner < back → m.CompletesAt es inner (.call nnn) →
      ∃ innerBack, innerBack < back ∧ m.ReturnsAt es inner innerBack := by
  have ⟨_, hi⟩ := h.calls
  have ⟨ret, hb, hr, hf⟩ := h.exists_ret
  have ⟨hpc, hs⟩ := List.cons.inj hf
  refine ⟨⟨ret, hb, hr⟩, ?pc, CallStack.ext hs.symm, fun inner nnn hc hb => h.exists_inner hc hb⟩
  case pc =>
    have := hi.completes.pc_lt
    rw [← hpc, UInt16.toNat_add]
    exact Nat.mod_eq_of_lt (by simp; omega)

-- A call in a call, with a tick of the countdowns and a key in between.
theorem calls_nest_twice : ∃ m : Machine, ∃ es : List Event, m.ReturnsAt es 1 7 ∧
    (m.upTo es 7).cpu.pc.toNat = 0x202 ∧ (m.upTo es 7).cpu.stack = (m.upTo es 1).cpu.stack ∧
    ∃ innerBack, innerBack < 7 ∧ m.ReturnsAt es 3 innerBack := by
  let m := fresh .mute .modern .unlimited ⟨fun _ => 0, 0⟩
  let es : List Event := [
    .load #[0x22, 0x06, 0x12, 0x02, 0x00, 0x00, 0x22, 0x0A, 0x00, 0xEE, 0x00, 0xEE],
    .cpuTick, .timerTick, .cpuTick, .key 3 true, .cpuTick, .cpuTick]
  have outer : m.CompletesAt es 1 (.call 0x206) :=
    ⟨rfl, 0x2206, by decide +kernel, by decide +kernel⟩
  have inner : m.CompletesAt es 3 (.call 0x20A) :=
    ⟨rfl, 0x220A, by decide +kernel, by decide +kernel⟩
  have away : ∀ n < 7, 1 < n →
      (m.upTo es n).cpu.stack.depth ≠ (m.upTo es 1).cpu.stack.depth := by
    decide +kernel
  have stays : ∀ e ∈ es.tail, e.restarts = false := by decide
  have h : m.ReturnsAt es 1 7 := {
    calls  := ⟨_, outer⟩
    later  := by decide
    inside := by decide
    stays  := fun
      | 0, _, hc, _, _     => nomatch hc
      | _ + 1, e, _, _, he => stays e <| List.mem_of_getElem? (l := es.tail) he
    away n hc hb := away n hb hc
    again  := by decide +kernel }
  have ⟨_, hpc, hs, hn⟩ := calls_nest h
  exact ⟨m, es, h, hpc.trans (by decide +kernel), hs, hn 3 _ (by decide) (by decide) inner⟩

end Machine
end Chip8
