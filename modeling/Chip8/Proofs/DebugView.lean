import Chip8.Cpu.Text
import Chip8.Proofs.Disassembly

namespace Chip8

variable {r s : List Char}

namespace Fault

-- The equations of `message` take too long to derive from its texts, so it is opened by `delta`.
theorem message_append_iff {f g : Fault} :
    f.message.toList ++ '\n' :: r = g.message.toList ++ '\n' :: s ↔ f = g ∧ r = s := by
  delta message
  cases f <;> cases g
  all_goals simp [Numeral.hex_append_cons_iff, UInt16.toNat_inj, and_assoc]

theorem message_eq_iff {f g : Fault} : f.message = g.message ↔ f = g := by
  have h := @message_append_iff [] [] f g
  rwa [List.append_left_inj, and_iff_left rfl, String.toList_inj] at h

end Fault

namespace Registers

variable {v w : Registers} {x : Register} {rs : List Register}

theorem toList_reportRow_cons : (v.reportRow (x :: rs)).toList = x.name.toList ++
    ' ' :: ' ' :: ((Numeral.hex 2 (v.get x).toNat).toList ++
      ' ' :: ' ' :: ' ' :: ' ' :: (v.reportRow rs).toList) := by
  simp [reportRow]

theorem reportRow_append_iff :
    (v.reportRow rs).toList ++ r = (w.reportRow rs).toList ++ s ↔
      (∀ x ∈ rs, v.get x = w.get x) ∧ r = s := by
  induction rs
  case nil            => simp [reportRow]
  case cons x rs ih =>
    simp [toList_reportRow_cons, Numeral.hex_append_cons_iff, ih, UInt8.toNat_inj, and_assoc]

theorem report_append_iff :
    v.report.toList ++ r = w.report.toList ++ s ↔ v = w ∧ r = s := by
  simp only [report, String.toList_append, List.append_assoc, reportRow_append_iff]
  constructor
  case mpr => rintro ⟨rfl, rfl⟩; simp
  case mp  =>
    intro ⟨h₀, h₄, h₈, h₁₂, h⟩
    refine ⟨ext_get fun x => ?_, h⟩
    have hx : x ∈ Register.through 0x0 0x3 ∨ x ∈ Register.through 0x4 0x7 ∨
        x ∈ Register.through 0x8 0xB ∨ x ∈ Register.through 0xC 0xF := by decide +revert
    rcases hx with hx | hx | hx | hx
    exacts [h₀ x hx, h₄ x hx, h₈ x hx, h₁₂ x hx]

end Registers

namespace Cpu.View

variable {v w : View}

theorem reportState_append_iff :
    v.reportState.toList ++ r = w.reportState.toList ++ s ↔
      (v.pc = w.pc ∧ v.index = w.index ∧ v.delay = w.delay ∧ v.sound = w.sound ∧
        v.cycles = w.cycles ∧ v.running = w.running) ∧ r = s := by
  delta reportState
  cases v.running <;> cases w.running
  all_goals simp [Numeral.hex_append_cons_iff, Numeral.decimal_append_cons_iff, UInt16.toNat_inj,
    UInt8.toNat_inj, UInt64.toNat_inj, and_assoc]

theorem legible_address : Legible Char.isAlphanum fun a : UInt16 => Numeral.hex 4 a.toNat where
  chars a  := (Numeral.legible_hex 4).chars a.toNat
  ne_nil a := (Numeral.legible_hex 4).ne_nil a.toNat

theorem address_injective : Function.Injective fun a : UInt16 => Numeral.hex 4 a.toNat :=
  fun _ _ h => UInt16.toNat_inj.mp <| Numeral.hex_injective 4 h

theorem reportStack_append_iff :
    v.reportStack.toList ++ r = w.reportStack.toList ++ s ↔ v.stack = w.stack ∧ r = s := by
  simp [reportStack, -String.toList_intercalate, legible_address.intercalate_append_cons_iff,
    List.map_inj_right fun _ _ h => address_injective h]

-- Each of the two lines at the end may be missing. They are told apart by their first characters.
theorem reportLast_append_reportFault_iff :
    v.reportLast.toList ++ v.reportFault.toList = w.reportLast.toList ++ w.reportFault.toList ↔
      Option.Rel Instruction.LooksLike v.last w.last ∧ v.fault = w.fault := by
  delta reportLast reportFault
  cases v.last <;> cases w.last <;> cases v.fault <;> cases w.fault
  all_goals simp [Instruction.text_append_iff, Instruction.text_eq_iff, Fault.message_eq_iff,
    String.toList_inj]

-- Two reports are the same only if everything in them is the same, but that the last instructions
-- may be two shifts of one kind and one target.
theorem report_determines_view (v w : View) : v.report = w.report ↔
    w = { v with last := w.last } ∧ Option.Rel Instruction.LooksLike v.last w.last := by
  rw [← String.toList_inj]
  simp only [report, String.toList_append, List.append_assoc, reportState_append_iff,
    Registers.report_append_iff, reportStack_append_iff, reportLast_append_reportFault_iff]
  constructor
  case mp  =>
    intro ⟨⟨hp, hi, hd, hs, hc, hr⟩, hv, ht, hl, hf⟩
    refine ⟨Eq.symm ?_, hl⟩
    exact View.ext hp hi hd hs ht hv hc hr rfl hf
  case mpr =>
    intro ⟨hw, hl⟩
    have ⟨hp, hi, hd, hs, ht, hv, hc, hr, _, hf⟩ := View.ext_iff.mp hw.symm
    exact ⟨⟨hp, hi, hd, hs, hc, hr⟩, hv, ht, hl, hf⟩

end Cpu.View
end Chip8
