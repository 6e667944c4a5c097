import Mathlib.Algebra.BigOperators.Fin
import Chip8.Proofs.Halt
import Chip8.Proofs.Painting

namespace Chip8

theorem Cell.wrap_eq_iff {x y : Nat} {c : Cell} :
    Cell.wrap x y = c ↔ c.column.val = x % 64 ∧ c.row.val = y % 32 := by
  constructor
  case mp =>
    rintro rfl
    simp [wrap, column_ofPosition, row_ofPosition]
  case mpr =>
    intro ⟨hx, hy⟩
    rw [← c.ofPosition_column_row, wrap]
    congr 1
    · exact Fin.ext hx.symm
    · exact Fin.ext hy.symm

theorem countP_range_eq_card (p : Nat → Bool) (n : Nat) :
    (List.range n).countP p = (Finset.univ.filter fun j : Fin n => p j = true).card := by
  rw [← List.map_coe_finRange_eq_range, List.countP_map, List.countP_eq_length_filter, Fin.univ_def]
  simp [Finset.filter, Function.comp_def]

namespace Sprite

variable {x y : Nat} {row : UInt8} {rows : List UInt8} {c : Cell}

-- With its top left corner at `x`, `y`, the sprite has a set bit over the cell: in row `i`, and in
-- column `j` from the left.
structure Covers (x y : Nat) (rows : List UInt8) (c : Cell) (i : Fin rows.length) (j : Fin 8) :
    Prop where
  set    : rows[i].toNat.testBit (7 - j) = true
  column : c.column.val = (x + j) % 64
  row    : c.row.val = (y + i) % 32

theorem covers_iff {i : Fin rows.length} {j : Fin 8} : Covers x y rows c i j ↔
    rows[i].toNat.testBit (7 - j) = true ∧ Cell.wrap (x + j) (y + i) = c := by
  rw [Cell.wrap_eq_iff]
  exact ⟨fun ⟨hs, hc, hr⟩ => ⟨hs, hc, hr⟩, fun ⟨hs, hc, hr⟩ => ⟨hs, hc, hr⟩⟩

instance decidableCovers (x y : Nat) (rows : List UInt8) (c : Cell) (i : Fin rows.length)
    (j : Fin 8) : Decidable (Covers x y rows c i j) :=
  decidable_of_iff' _ covers_iff

-- How many set bits of the sprite lie over the cell.
def layers (x y : Nat) (rows : List UInt8) (c : Cell) : Nat :=
  (Finset.univ.filter fun p : Fin rows.length × Fin 8 => Covers x y rows c p.1 p.2).card

theorem count_columns (x y : Nat) (row : UInt8) (c : Cell) :
    ((columns row).map fun j => Cell.wrap (x + j) y).count c =
      (Finset.univ.filter fun j : Fin 8 =>
        row.toNat.testBit (7 - j) = true ∧ Cell.wrap (x + j) y = c).card := by
  rw [List.count_eq_countP, List.countP_map, columns, List.countP_filter, countP_range_eq_card]
  congr 2
  ext j
  simp [and_comm]

theorem layers_cons (x y : Nat) (row : UInt8) (rows : List UInt8) (c : Cell) :
    layers x y (row :: rows) c =
      (Finset.univ.filter fun j : Fin 8 =>
        row.toNat.testBit (7 - j) = true ∧ Cell.wrap (x + j) y = c).card +
      layers x (y + 1) rows c := by
  have hy (i : Nat) : y + 1 + i = y + (i + 1) := Nat.add_right_comm ..
  simp only [layers, Finset.card_filter, Fintype.sum_prod_type, covers_iff, hy]
  exact Fin.sum_univ_succ _

-- A sprite toggles a cell once for each set bit over it.
theorem count_cells (x y : Nat) (rows : List UInt8) (c : Cell) :
    (cells x y rows).count c = layers x y rows c := by
  induction rows generalizing y
  case nil              => rfl
  case cons row rows ih => rw [cells, List.count_append, ih, count_columns, layers_cons]

theorem layers_pos_iff : 0 < layers x y rows c ↔ ∃ i j, Covers x y rows c i j := by
  simp [layers, Finset.card_pos, Finset.filter_nonempty_iff]

-- Only rows that are a whole screen apart come to lie over each other.
theorem layers_le_one (h : rows.length ≤ 32) (x y : Nat) (c : Cell) : layers x y rows c ≤ 1 := by
  refine Finset.card_le_one.mpr fun ⟨i, j⟩ hp ⟨i', j'⟩ hq => ?_
  have ⟨_, hj, hi⟩ := (Finset.mem_filter.mp hp).right
  have ⟨_, hj', hi'⟩ := (Finset.mem_filter.mp hq).right
  have hrow : i = i' := by
    ext
    simp only at hi hi'
    omega
  have hcolumn : j = j' := by
    ext
    simp only at hj hj'
    omega
  rw [hrow, hcolumn]

end Sprite

namespace Screen

open Sprite

variable {s : Screen} {rows : List UInt8}

-- What a sprite makes of a screen: a cell is lit differently after an odd number of layers, and the
-- sprite hits if a layer finds its cell lit, be it the first one or one after another. A sprite no
-- higher than the screen has one layer, and hits if it has a set bit over a lit cell.
structure Blit (s : Screen) (x y : Nat) (rows : List UInt8) (t : Screen) (hit : Bool) : Prop where
  lit   : ∀ c, t.lit c = (s.lit c ^^ decide (Odd (layers x y rows c)))
  hits  : hit = true ↔ ∃ c, 1 ≤ layers x y rows c ∧ 2 ≤ (s.lit c).toNat + layers x y rows c
  layer : rows.length ≤ 32 → ∀ c, layers x y rows c ≤ 1
  plain : rows.length ≤ 32 → (hit = true ↔ ∃ c i j, Covers x y rows c i j ∧ s.lit c = true)

theorem bodd_eq_decide_odd (n : Nat) : n.bodd = decide (Odd n) := by
  rw [Bool.eq_iff_iff, decide_eq_true_iff, Nat.odd_iff, Nat.mod_two_of_bodd]
  cases n.bodd <;> simp

theorem paint_hits_iff (s : Screen) (x y : UInt8) (rows : List UInt8) :
    (s.paint x y rows).2 = true ↔ ∃ c, 1 ≤ layers x.toNat y.toNat rows c ∧
      2 ≤ (s.lit c).toNat + layers x.toNat y.toNat rows c := by
  simp only [paint, toggleAll_hits_iff, SwitchesOff, count_cells]
  rfl

theorem blit_paint (s : Screen) (x y : UInt8) (rows : List UInt8) :
    s.Blit x.toNat y.toNat rows (s.paint x y rows).1 (s.paint x y rows).2 where
  lit c   := by rw [paint, lit_toggleAll, count_cells, bodd_eq_decide_odd]
  hits    := s.paint_hits_iff x y rows
  layer h := layers_le_one h x.toNat y.toNat
  plain h := by
    have one (c : Cell) : (1 ≤ layers x.toNat y.toNat rows c ∧
        2 ≤ (s.lit c).toNat + layers x.toNat y.toNat rows c) ↔
        0 < layers x.toNat y.toNat rows c ∧ s.lit c = true := by
      have hl := layers_le_one h x.toNat y.toNat c
      cases s.lit c
      all_goals simp; omega
    simp only [paint_hits_iff, one, layers_pos_iff, exists_and_right]

end Screen

namespace Machine

variable {m : Machine} {x y : Register} {n : Nibble}

theorem draw_machine (h : (m.draw x y n).fault = none) :
    let rows  := (m.memory.bytes.toList.drop m.cpu.index.toNat).take n
    let paint := m.screen.paint (m.reg x) (m.reg y) rows
    (m.draw x y n).machine = { m with
      screen        := paint.1
      cpu.registers := m.cpu.registers.set .flag (if paint.2 then 1 else 0) } := by
  have hr := m.memory.readBlock_bytes m.cpu.index.toNat n
  unfold draw at h ⊢
  split at h
  case h_1         => cases h
  case h_2 rows he =>
    rw [he] at hr
    simp only [← hr]
    cases (m.screen.paint (m.reg x) (m.reg y) rows).2
    all_goals rfl

-- A sprite toggles each cell as often as it has set bits over it, and hits if one of them switches
-- its cell off. An instruction that draws does not fault exactly if its rows lie in memory, and
-- then it paints them where the two registers tell before `VF` takes the hit, and changes nothing
-- else.
theorem draw_blits_rows :
    (∀ (s : Screen) (x y : UInt8) (rows : List UInt8),
      s.Blit x.toNat y.toNat rows (s.paint x y rows).1 (s.paint x y rows).2) ∧
    ∀ (m : Machine) (x y : Register) (n : Nibble),
      let o     := m.execute (.draw x y n)
      let rows  := (m.memory.bytes.toList.drop m.cpu.index.toNat).take n
      let paint := m.screen.paint (m.reg x) (m.reg y) rows
      (o.fault = none ↔ n.val = 0 ∨ m.cpu.index.toNat + n ≤ 0x1000) ∧
      (o.fault = none → rows.length = n ∧
        o.machine = { m with
          screen        := paint.1
          cpu.registers := m.cpu.registers.set .flag (if paint.2 then 1 else 0) } ∧
        o.machine.reg .flag = (if paint.2 then 1 else 0) ∧
        ∀ r ≠ .flag, o.machine.reg r = m.reg r) := by
  refine ⟨Screen.blit_paint, fun m x y n => ?draw⟩
  case draw =>
    have hf : (m.execute (.draw x y n)).fault = none ↔
        n.val = 0 ∨ m.cpu.index.toNat + n ≤ 0x1000 := by
      rw [execute, draw_fault, blockFault_eq_none_iff]
    refine ⟨hf, fun h => ⟨?length, draw_machine h, ?flag, fun r hr => ?others⟩⟩
    case length =>
      have := hf.mp h
      simp only [List.length_take, List.length_drop, Vector.length_toList]
      omega
    case flag   => rw [execute, draw_machine h]; exact Registers.get_set_self ..
    case others => rw [execute, draw_machine h]; exact Registers.get_set_of_ne _ hr _

-- Thirty-three rows on a dark screen, of which the last lies over the first, and a digit that is
-- drawn where `VF` tells, from one row past the last.
theorem draw_blits_rows_of_flag :
    (Screen.blank.paint 0 0 (.replicate 33 0x80)).2 = true ∧
    ∃ m : Machine, m.reg .flag = 32 ∧
      let o := m.execute (.draw .flag .flag 5)
      o.fault = none ∧
      o.machine = { m with
        screen        := (m.screen.paint 32 32 [0xF0, 0x90, 0x90, 0x90, 0xF0]).1
        cpu.registers := m.cpu.registers.set .flag 0 } ∧
      o.machine.reg .flag = 0 := by
  have ⟨hs, hd⟩ := draw_blits_rows
  have hb := hs .blank 0 0 (.replicate 33 0x80)
  have ⟨m, hx, hi, hr, hh⟩ : ∃ m : Machine, m.reg .flag = 32 ∧ m.cpu.index.toNat = 0x50 ∧
      (m.memory.bytes.toList.drop 0x50).take (5 : Nibble) = [0xF0, 0x90, 0x90, 0x90, 0xF0] ∧
      (m.screen.paint 32 32 [0xF0, 0x90, 0x90, 0x90, 0xF0]).2 = false := by
    let start := fresh .mute .modern .unlimited ⟨fun _ => 0, 0⟩
    exact ⟨{ start.setReg .flag 32 with cpu.index := 0x50 }, by decide +kernel⟩
  have ⟨hf, hm⟩ := hd m .flag .flag 5
  have hn := hf.mpr <| .inr <| by rw [hi]; decide
  have ⟨_, he, hv, _⟩ := hm hn
  simp only [hx, hi, hr, hh, Bool.false_eq_true, if_false] at he hv
  exact ⟨hb.hits.mpr ⟨0, by decide +kernel, by decide +kernel⟩, m, hx, hn, he, hv⟩

end Machine
end Chip8
