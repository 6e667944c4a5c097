import Chip8.Register
import Mathlib.Data.Nat.Digits.Defs

namespace Chip8

variable {α : Type} {p : Char → Bool} {write : α → String}

-- Where the characters of one class end, two texts can be taken apart.
theorem append_cons_inj {u v r s : List Char} {c d : Char} (hu : ∀ c ∈ u, p c = true)
    (hv : ∀ c ∈ v, p c = true) (hc : p c = false) (hd : p d = false) :
    u ++ c :: r = v ++ d :: s ↔ u = v ∧ c = d ∧ r = s := by
  constructor
  case mpr => rintro ⟨rfl, rfl, rfl⟩; rfl
  case mp  =>
    intro h
    have ht := congrArg (List.takeWhile p) h
    rw [List.takeWhile_append_of_pos hu, List.takeWhile_append_of_pos hv,
      List.takeWhile_cons_of_neg (by simp [hc]), List.takeWhile_cons_of_neg (by simp [hd]),
      List.append_nil, List.append_nil] at ht
    subst ht
    exact ⟨rfl, List.cons.inj <| List.append_cancel_left h⟩

-- What is written is not empty, and all of its characters are of one class.
structure Legible (p : Char → Bool) (write : α → String) : Prop where
  chars  : ∀ a, ∀ c ∈ (write a).toList, p c = true
  ne_nil : ∀ a, (write a).toList ≠ []

namespace Legible

variable {a b : α} {as bs : List α} {r s : List Char} {c d : Char}

theorem append_cons_iff (h : Legible p write) (hc : p c = false) (hd : p d = false) :
    (write a).toList ++ c :: r = (write b).toList ++ d :: s ↔ write a = write b ∧ c = d ∧ r = s := by
  rw [append_cons_inj (h.chars a) (h.chars b) hc hd, String.toList_inj]

theorem cons_ne_append (h : Legible p write) (hc : p c = false) :
    c :: r ≠ (write a).toList ++ s := by
  intro he
  have ha := h.chars a
  cases hw : (write a).toList
  case nil       => exact h.ne_nil a hw
  case cons d ds =>
    rw [hw] at he ha
    cases he
    exact absurd (ha c List.mem_cons_self) <| by simp [hc]

-- What is written for a list, with a comma and a blank in between, is taken apart again, up to a
-- character that neither is one of the class nor a comma.
theorem intercalate_append_cons_iff (h : Legible p write) (hs : p ',' = false) (hc : p c = false)
    (hn : c ≠ ',') :
    (String.intercalate ", " (as.map write)).toList ++ c :: r =
      (String.intercalate ", " (bs.map write)).toList ++ c :: s ↔
        as.map write = bs.map write ∧ r = s := by
  induction as generalizing bs
  case nil =>
    rcases bs with _ | ⟨b, _ | ⟨b', bs⟩⟩
    case nil => simp
    all_goals simp [h.cons_ne_append hc]
  case cons a as ih =>
    rcases as with _ | ⟨a', as⟩ <;> rcases bs with _ | ⟨b, _ | ⟨b', bs⟩⟩
    case nil.nil | cons.nil => simp [(h.cons_ne_append hc).symm]
    case nil.cons.nil       => simp [h.append_cons_iff hc hc]
    case nil.cons.cons      => simp [h.append_cons_iff hc hs, hn]
    case cons.cons.nil      => simp [h.append_cons_iff hs hc, hn.symm]
    case cons.cons.cons     =>
      have ih := by simpa using @ih (b' :: bs)
      simp [h.append_cons_iff hs hs, ih, and_assoc]

end Legible

namespace Numeral

variable {base width m n : Nat} {ds : List Nat}

-- The number that a digit stands for.
def digitValue (c : Char) : Nat :=
  if c.toNat < 58 then c.toNat - 48 else c.toNat - 55

-- The number that stands there in a base.
def value (base : Nat) (text : String) : Nat :=
  Nat.ofDigits base (text.toList.reverse.map digitValue)

theorem digits_ne_nil : digits base n ≠ [] := by
  unfold digits
  split <;> simp

theorem lt_of_mem_digits (hb : 2 ≤ base) : ∀ d ∈ digits base n, d < base := by
  fun_induction digits base n
  case case1 n h ih =>
    intro d hd
    rcases List.mem_append.mp hd with hd | hd
    · exact ih d hd
    · exact List.mem_singleton.mp hd ▸ Nat.mod_lt n (by omega)
  case case2 n h => simpa using by omega

theorem ofDigits_reverse_digits : Nat.ofDigits base (digits base n).reverse = n := by
  fun_induction digits base n
  case case1 n h ih =>
    rw [List.reverse_append, List.reverse_singleton, List.singleton_append, Nat.ofDigits_cons, ih]
    exact Nat.mod_add_div n base
  case case2 n h => simp

theorem digitValue_digitChar : ∀ d < 16, digitValue (digitChar d) = d := by
  decide

theorem isAlphanum_digitChar : ∀ d < 16, (digitChar d).isAlphanum = true := by
  decide

theorem isAlphanum_ofDigits (h : ∀ d ∈ ds, d < 16) :
    ∀ c ∈ (ofDigits ds).toList, c.isAlphanum = true := by
  simpa [ofDigits] using fun d hd => isAlphanum_digitChar d (h d hd)

theorem value_ofDigits (h : ∀ d ∈ ds, d < 16) :
    value base (ofDigits ds) = Nat.ofDigits base ds.reverse := by
  have hd : ds.map (digitValue ∘ digitChar) = ds :=
    (List.map_congr_left fun d hd => digitValue_digitChar d (h d hd)).trans ds.map_id
  rw [value, ofDigits, String.toList_ofList, ← List.map_reverse, List.map_map, List.map_reverse, hd]

theorem lt_of_mem_decimal : ∀ d ∈ digits 10 n, d < 16 :=
  fun d hd => (lt_of_mem_digits (by decide) d hd).trans (by decide)

theorem lt_of_mem_leftpad : ∀ d ∈ (digits 16 n).leftpad width 0, d < 16 := by
  intro d hd
  rcases List.mem_append.mp hd with hd | hd
  · rw [List.eq_of_mem_replicate hd]
    decide
  · exact lt_of_mem_digits (by decide) d hd

theorem value_decimal (n : Nat) : value 10 (decimal n) = n := by
  rw [decimal, value_ofDigits lt_of_mem_decimal, ofDigits_reverse_digits]

-- Zeros in front do not count.
theorem value_hex (width n : Nat) : value 16 (ofDigits ((digits 16 n).leftpad width 0)) = n := by
  rw [value_ofDigits lt_of_mem_leftpad, List.leftpad, List.reverse_append, List.reverse_replicate,
    Nat.ofDigits_append_replicate_zero, ofDigits_reverse_digits]

theorem decimal_injective : Function.Injective decimal := by
  intro m n h
  simpa only [value_decimal] using congrArg (value 10) h

theorem eq_of_hex_eq {width' : Nat} (h : hex width m = hex width' n) : m = n := by
  simpa only [value_hex] using congrArg (value 16) <| String.append_right_inj _ |>.mp h

theorem hex_injective (width : Nat) : Function.Injective (hex width) :=
  fun _ _ => eq_of_hex_eq

theorem legible_decimal : Legible Char.isAlphanum decimal where
  chars _  := isAlphanum_ofDigits lt_of_mem_decimal
  ne_nil _ := by simp [decimal, ofDigits, digits_ne_nil]

theorem legible_hex (width : Nat) : Legible Char.isAlphanum (hex width) where
  chars _  := by simpa [hex, -List.leftpad] using isAlphanum_ofDigits lt_of_mem_leftpad
  ne_nil _ := by simp [hex]

theorem decimal_append_cons_iff {r s : List Char} {c d : Char} (hc : c.isAlphanum = false)
    (hd : d.isAlphanum = false) :
    (decimal m).toList ++ c :: r = (decimal n).toList ++ d :: s ↔ m = n ∧ c = d ∧ r = s := by
  rw [legible_decimal.append_cons_iff hc hd, decimal_injective.eq_iff]

theorem hex_append_cons_iff {r s : List Char} {c d : Char} (hc : c.isAlphanum = false)
    (hd : d.isAlphanum = false) :
    (hex width m).toList ++ c :: r = (hex width n).toList ++ d :: s ↔ m = n ∧ c = d ∧ r = s := by
  rw [(legible_hex width).append_cons_iff hc hd, (hex_injective width).eq_iff]

end Numeral
end Chip8
