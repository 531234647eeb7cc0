import Mathlib.Data.List.Lex
import Mathlib.Data.Nat.Log
import Mathlib.Tactic.Ring

/-!
Numerals of a fixed width, with the highest digit first. They have the value of the number as far as it fits, and are in the order
of the numbers.
-/

namespace Numerals
variable {base w m n : Nat}

/-- The lowest `w` digits of `n`. -/
def numeral (base : Nat) : Nat → Nat → List Nat
  | 0, _ => []
  | w + 1, n => n / base ^ w % base :: numeral base w n

@[simp] theorem length_numeral (base w n : Nat) : (numeral base w n).length = w := by
  induction w with
  | zero => rfl
  | succ w ih => rw [numeral, List.length_cons, ih]

theorem lt_of_mem_numeral (hbase : 0 < base) {d : Nat} (h : d ∈ numeral base w n) : d < base := by
  induction w with
  | zero => cases h
  | succ w ih =>
      rcases List.mem_cons.mp h with rfl | h
      · exact Nat.mod_lt _ hbase
      · exact ih h

theorem numeral_zero (base w : Nat) : numeral base w 0 = List.replicate w 0 := by
  induction w with
  | zero => rfl
  | succ w ih => rw [numeral, ih, Nat.zero_div, Nat.zero_mod, List.replicate_succ]

theorem numeral_add (base i w n : Nat) : numeral base (i + w) n = numeral base i (n / base ^ w) ++ numeral base w n := by
  induction i with
  | zero => rw [Nat.zero_add, numeral, List.nil_append]
  | succ i ih =>
      rw [Nat.succ_add, numeral, numeral, ih, List.cons_append, Nat.div_div_eq_div_mul, Nat.pow_add, Nat.mul_comm (base ^ w)]

theorem numeral_add_of_lt (i : Nat) (h : n < base ^ w) : numeral base (i + w) n = List.replicate i 0 ++ numeral base w n := by
  rw [numeral_add, Nat.div_eq_of_lt h, numeral_zero]

theorem mod_pow_succ_eq (base w n : Nat) : n % base ^ (w + 1) = n / base ^ w % base * base ^ w + n % base ^ w := by
  rw [Nat.mod_pow_succ]
  ring

theorem foldl_numeral (base w n acc : Nat) :
    (numeral base w n).foldl (fun value d => base * value + d) acc = acc * base ^ w + n % base ^ w := by
  induction w generalizing acc with
  | zero => simp [numeral, Nat.mod_one]
  | succ w ih =>
      rw [numeral, List.foldl_cons, ih, mod_pow_succ_eq]
      ring

theorem numeral_mod (base w n : Nat) : numeral base w (n % base ^ w) = numeral base w n := by
  have hmod (i : Nat) (hle : i ≤ w) : numeral base i (n % base ^ w) = numeral base i n := by
    induction i with
    | zero => rfl
    | succ i ih =>
        obtain ⟨j, rfl⟩ := Nat.exists_eq_add_of_lt hle
        rw [numeral, numeral, ih (by omega), show i + j + 1 = i + (1 + j) by omega, Nat.pow_add, Nat.mod_mul_right_div_self,
          Nat.pow_add, pow_one, Nat.mod_mul_right_mod]
  exact hmod w le_rfl

theorem numeral_mul_add (base v w m : Nat) {n : Nat} (h : n < base ^ w) :
    numeral base (v + w) (m * base ^ w + n) = numeral base v m ++ numeral base w n := by
  have hpos : 0 < base ^ w := by omega
  have hdiv : (m * base ^ w + n) / base ^ w = m := by
    rw [Nat.mul_comm, Nat.mul_add_div hpos, Nat.div_eq_of_lt h, Nat.add_zero]
  have hmod : (m * base ^ w + n) % base ^ w = n := by
    rw [Nat.mul_comm, Nat.mul_add_mod, Nat.mod_eq_of_lt h]
  rw [numeral_add, hdiv, ← numeral_mod base w (m * base ^ w + n), hmod]

section Order
variable {α : Type*} [LinearOrder α] {digit : Nat → α}

/-- With digits in the order of their values, numerals of one width are in the order of the numbers. -/
theorem map_numeral_lt_iff (hbase : 0 < base) (hdigit : ∀ d < base, ∀ e < base, digit d < digit e ↔ d < e) :
    (numeral base w m).map digit < (numeral base w n).map digit ↔ m % base ^ w < n % base ^ w := by
  induction w with
  | zero => simp [numeral, Nat.mod_one]
  | succ w ih =>
      have hd := Nat.mod_lt (m / base ^ w) hbase
      have he := Nat.mod_lt (n / base ^ w) hbase
      have hm := Nat.mod_lt m (Nat.pow_pos hbase : 0 < base ^ w)
      have hn := Nat.mod_lt n (Nat.pow_pos hbase : 0 < base ^ w)
      have heq : digit (m / base ^ w % base) = digit (n / base ^ w % base) ↔ m / base ^ w % base = n / base ^ w % base := by
        constructor
        · intro heq
          rcases Nat.lt_trichotomy (m / base ^ w % base) (n / base ^ w % base) with hlt | heq' | hgt
          · exact absurd ((hdigit _ hd _ he).mpr hlt) (heq ▸ lt_irrefl _)
          · exact heq'
          · exact absurd ((hdigit _ he _ hd).mpr hgt) (heq ▸ lt_irrefl _)
        · intro heq
          rw [heq]
      rw [numeral, numeral, List.map_cons, List.map_cons, List.cons_lt_cons_iff, ih, hdigit _ hd _ he, heq, mod_pow_succ_eq,
        mod_pow_succ_eq base w n]
      generalize m / base ^ w % base = d
      generalize n / base ^ w % base = e
      generalize m % base ^ w = r at hm ⊢
      generalize n % base ^ w = t at hn ⊢
      constructor
      · rintro (hlt | ⟨rfl, hlt⟩)
        · calc
            d * base ^ w + r < d * base ^ w + base ^ w := by omega
            _ = (d + 1) * base ^ w := by ring
            _ ≤ e * base ^ w := Nat.mul_le_mul_right _ hlt
            _ ≤ e * base ^ w + t := Nat.le_add_right _ _
        · omega
      · intro hlt
        rcases Nat.lt_trichotomy d e with hde | rfl | hed
        · exact .inl hde
        · exact .inr ⟨rfl, by omega⟩
        · have hle : (e + 1) * base ^ w ≤ d * base ^ w := Nat.mul_le_mul_right _ hed
          rw [Nat.add_mul, Nat.one_mul] at hle
          omega

end Order

/-- The width of the numeral of `n` without zeros in front, or 1 for zero. -/
structure IsWidth (base n w : Nat) : Prop where
  pos : 0 < w
  lt : n < base ^ w
  le : 1 < w → base ^ (w - 1) ≤ n

theorem IsWidth.le_iff {k : Nat} (h : IsWidth base n w) (hbase : 1 < base) (hk : 0 < k) : w ≤ k ↔ n < base ^ k := by
  constructor
  · intro hle
    exact h.lt.trans_le (Nat.pow_le_pow_right (by omega) hle)
  · intro hlt
    by_contra hgt
    have hpow := (Nat.pow_le_pow_right (by omega : 0 < base) (show k ≤ w - 1 by omega)).trans (h.le (by omega))
    omega

end Numerals
