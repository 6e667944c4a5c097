import Mathlib.Data.Nat.Bits
import Chip8.Sprite

namespace Chip8

namespace Screen

variable {s : Screen} {c d : Cell} {cs ds : List Cell}

theorem toggleAll_append (s : Screen) (cs ds : List Cell) :
    s.toggleAll (cs ++ ds) =
      let (t, hit)  := s.toggleAll cs
      let (u, hit') := t.toggleAll ds
      (u, hit || hit') := by
  induction cs generalizing s
  case nil          => rfl
  case cons c cs ih => simp [toggleAll, ih, Bool.or_assoc]

-- A cell is lit differently after an odd number of toggles.
theorem lit_toggleAll (s : Screen) (cs : List Cell) (c : Cell) :
    (s.toggleAll cs).1.lit c = (s.lit c ^^ (cs.count c).bodd) := by
  induction cs generalizing s
  case nil          => simp [toggleAll]
  case cons d cs ih =>
    simp only [toggleAll, ih, lit_toggle, Bool.xor_assoc]
    congr 1
    by_cases h : c = d
    case pos => simp [h, List.count_cons_self]
    case neg => simp [h, List.count_cons_of_ne (Ne.symm h)]

theorem changed_toggleAll (s : Screen) (cs : List Cell) :
    (s.toggleAll cs).1.changed = (s.changed || !cs.isEmpty) := by
  induction cs generalizing s
  case nil          => simp [toggleAll]
  case cons c cs ih => simp [toggleAll, ih, toggle, put]

-- One of the toggles switches the cell off: the first, if the cell is lit, or else the second.
def SwitchesOff (s : Screen) (cs : List Cell) (c : Cell) : Prop :=
  0 < cs.count c ∧ 2 ≤ (s.lit c).toNat + cs.count c

theorem switchesOff_cons_iff :
    s.SwitchesOff (d :: cs) c ↔ (c = d ∧ s.lit d = true) ∨ (s.toggle d).SwitchesOff cs c := by
  simp only [SwitchesOff, lit_toggle]
  by_cases h : c = d
  case neg => simp [h, List.count_cons_of_ne (Ne.symm h)]
  case pos =>
    subst h
    rw [List.count_cons_self]
    cases s.lit c
    case false =>
      simp only [decide_true, Bool.false_xor, Bool.toNat_false, Bool.toNat_true, reduceCtorEq,
        and_false, false_or]
      omega
    case true =>
      simp only [and_self, true_or, iff_true, Bool.toNat_true]
      omega

theorem toggleAll_hits_iff (s : Screen) (cs : List Cell) :
    (s.toggleAll cs).2 = true ↔ ∃ c, s.SwitchesOff cs c := by
  induction cs generalizing s
  case nil          => exact ⟨nofun, fun ⟨c, h⟩ => nomatch h.left⟩
  case cons d cs ih =>
    simp only [toggleAll, Bool.or_eq_true, ih, switchesOff_cons_iff, exists_or, exists_eq_left]

-- The order of the toggles makes no difference.
theorem toggleAll_perm (s : Screen) (h : cs.Perm ds) : s.toggleAll cs = s.toggleAll ds := by
  have hc (c : Cell) : s.SwitchesOff cs c ↔ s.SwitchesOff ds c := by
    simp only [SwitchesOff, h.count_eq]
  apply Prod.ext
  · apply ext_lit
    · intro c
      rw [lit_toggleAll, lit_toggleAll, h.count_eq]
    · rw [changed_toggleAll, changed_toggleAll, h.isEmpty_eq]
  · rw [Bool.eq_iff_iff, toggleAll_hits_iff, toggleAll_hits_iff, exists_congr hc]

end Screen

-- A sprite, and where its top left corner goes.
structure Drawing where
  x    : UInt8
  y    : UInt8
  rows : List UInt8

namespace Drawing

def cells (d : Drawing) : List Cell :=
  Sprite.cells d.x.toNat d.y.toNat d.rows

end Drawing

namespace Screen

variable {ds es : List Drawing}

-- Paints the drawings one after the other, and tells of each whether it has hit a lit cell.
def paintAll (s : Screen) : List Drawing → Screen × List Bool
  | []      => (s, [])
  | d :: ds =>
    let (s, hit)  := s.paint d.x d.y d.rows
    let (s, hits) := s.paintAll ds
    (s, hit :: hits)

theorem toggleAll_cells (s : Screen) (ds : List Drawing) :
    s.toggleAll (ds.flatMap Drawing.cells) = ((s.paintAll ds).1, (s.paintAll ds).2.or) := by
  induction ds generalizing s
  case nil          => rfl
  case cons d ds ih => simp [paintAll, paint, Drawing.cells, toggleAll_append, ih]

-- Drawings leave the same picture in any order, and in any order some drawing hits a lit cell or
-- none does. Two equal drawings in a row leave every cell as it was.
theorem paintAll_of_perm (s : Screen) (h : ds.Perm es) :
    (s.paintAll ds).1 = (s.paintAll es).1 ∧ (s.paintAll ds).2.or = (s.paintAll es).2.or ∧
    ∀ d c, (s.paintAll [d, d]).1.lit c = s.lit c := by
  have hp := s.toggleAll_perm <| h.flatMap_right Drawing.cells
  rw [toggleAll_cells, toggleAll_cells, Prod.ext_iff] at hp
  refine ⟨hp.left, hp.right, fun d c => ?twice⟩
  case twice =>
    have hd := congrArg (·.1.lit c) <| s.toggleAll_cells [d, d]
    simp only [lit_toggleAll] at hd
    rw [← hd]
    simp

-- Of two drawings that overlap, beyond the right edge, whichever comes second hits the other.
theorem paintAll_of_overlap : ∃ d e : Drawing, [d, e].Perm [e, d] ∧
    (blank.paintAll [d, e]).2 = [false, true] ∧ (blank.paintAll [e, d]).2 = [false, true] ∧
    (blank.paintAll [d, e]).1 = (blank.paintAll [e, d]).1 := by
  let d : Drawing := ⟨63, 0, [0xC0]⟩
  let e : Drawing := ⟨0, 0, [0x80]⟩
  have hp : [d, e].Perm [e, d] := .swap ..
  have ⟨hs, _⟩ := paintAll_of_perm blank hp
  exact ⟨d, e, hp, by decide +kernel, by decide +kernel, hs⟩

end Screen
end Chip8
