import Mathlib.Data.Nat.Count
import Mathlib.Tactic

/-!
Numbers as rows of bytes, and what is done to each byte at once: masking, shifting inside the bytes, adding without a
carry from one byte to the next.
-/

namespace ByteLanes

variable {f g : Nat → Nat} {k x y m : Nat}

/-- The bytes of the number, the lowest one first, each replaced by its image. -/
def lanes (g : Nat → Nat) : Nat → Nat → Nat
  | 0, _ => 0
  | k + 1, x => g (x % 256) + 256 * lanes g k (x / 256)

/-- The sum over the bytes. -/
def total (g : Nat → Nat) : Nat → Nat → Nat
  | 0, _ => 0
  | k + 1, x => g (x % 256) + total g k (x / 256)

/-- The same byte in each lane. -/
def mask (m k : Nat) : Nat := lanes (fun _ => m) k 0

theorem mask_succ (m k : Nat) : mask m (k + 1) = m + 256 * mask m k := rfl

theorem lanes_id (h : x < 256 ^ k) : lanes id k x = x := by
  induction k generalizing x with
  | zero =>
      rw [pow_zero] at h
      rw [lanes]
      omega
  | succ k ih =>
      rw [lanes, ih (Nat.div_lt_of_lt_mul (by rwa [pow_succ, Nat.mul_comm] at h)), id]
      omega

theorem lanes_lt (h : ∀ d < 256, g d < 256) (k x : Nat) : lanes g k x < 256 ^ k := by
  induction k generalizing x with
  | zero => exact Nat.one_pos
  | succ k ih =>
      have hbyte := h (x % 256) (Nat.mod_lt _ (by decide))
      have hrest := ih (x / 256)
      rw [lanes, pow_succ]
      omega

theorem lanes_le_mask (h : ∀ d < 256, g d ≤ m) (k x : Nat) : lanes g k x ≤ mask m k := by
  induction k generalizing x with
  | zero => exact le_rfl
  | succ k ih =>
      rw [lanes, mask_succ]
      exact Nat.add_le_add (h _ (Nat.mod_lt _ (by decide))) (Nat.mul_le_mul_left 256 (ih (x / 256)))

theorem lanes_lanes (h : ∀ d < 256, g d < 256) (k x : Nat) : lanes f k (lanes g k x) = lanes (f ∘ g) k x := by
  induction k generalizing x with
  | zero => rfl
  | succ k ih =>
      have hbyte := h (x % 256) (Nat.mod_lt _ (by decide))
      rw [lanes, lanes, Nat.add_mul_mod_self_left, Nat.mod_eq_of_lt hbyte, Nat.add_mul_div_left _ _ (by decide),
        Nat.div_eq_of_lt hbyte, Nat.zero_add, ih]
      rfl

theorem lanes_add (k x : Nat) : lanes f k x + lanes g k x = lanes (fun d => f d + g d) k x := by
  induction k generalizing x with
  | zero => rfl
  | succ k ih =>
      rw [lanes, lanes, lanes, ← ih]
      ring

theorem lanes_sub (h : ∀ d < 256, g d ≤ f d) (k x : Nat) : lanes f k x - lanes g k x = lanes (fun d => f d - g d) k x := by
  have hadd := @lanes_add (fun d => f d - g d) g k x
  have hsum : lanes (fun d => f d - g d + g d) k x = lanes f k x := by
    clear hadd
    induction k generalizing x with
    | zero => rfl
    | succ k ih => rw [lanes, lanes, ih, Nat.sub_add_cancel (h _ (Nat.mod_lt _ (by decide)))]
  omega

theorem and_add_mul (hm : m < 256) (x y : Nat) : x &&& (m + 256 * y) = (x % 256 &&& m) + 256 * (x / 256 &&& y) := by
  have hmod : (x &&& (m + 256 * y)) % 2 ^ 8 = x % 256 &&& m := by
    rw [Nat.and_mod_two_pow]
    congr 1
    omega
  have hdiv : (x &&& (m + 256 * y)) / 2 ^ 8 = x / 256 &&& y := by
    rw [Nat.and_div_two_pow]
    congr 1
    omega
  rw [← hmod, ← hdiv]
  omega

/-- A shift inside the bytes, where the mask cuts off what comes from the next byte. -/
theorem shiftRight_and_mask {j : Nat} (hm : m < 2 ^ (8 - j)) (k x : Nat) :
    x >>> j &&& mask m k = lanes (fun d => d >>> j &&& m) k x := by
  have hm8 : m < 256 := hm.trans_le (Nat.pow_le_pow_right (by decide) (by omega : 8 - j ≤ 8))
  induction k generalizing x with
  | zero => exact Nat.and_zero _
  | succ k ih =>
      have hbyte : x >>> j % 256 &&& m = (x % 256) >>> j &&& m := by
        apply Nat.eq_of_testBit_eq
        intro i
        rw [show 256 = 2 ^ 8 from rfl, Nat.testBit_and, Nat.testBit_and, Nat.testBit_mod_two_pow,
          Nat.testBit_shiftRight, Nat.testBit_shiftRight, Nat.testBit_mod_two_pow]
        by_cases hi : i < 8 - j
        · simp [show i < 8 by omega, show j + i < 8 by omega]
        · have hbit : m.testBit i = false :=
            Nat.testBit_lt_two_pow (hm.trans_le (Nat.pow_le_pow_right (by decide) (by omega)))
          simp [hbit]
      have hnext : x >>> j / 256 = (x / 256) >>> j := by
        rw [Nat.shiftRight_eq_div_pow, Nat.shiftRight_eq_div_pow, Nat.div_div_eq_div_mul, Nat.div_div_eq_div_mul,
          Nat.mul_comm]
      rw [mask_succ, and_add_mul hm8, hbyte, hnext, ih, lanes]

theorem and_mask (hm : m < 256) (k x : Nat) : x &&& mask m k = lanes (fun d => d &&& m) k x :=
  @shiftRight_and_mask m 0 hm k x

theorem halves_and_mask (h : ∀ d < 256, g d % 16 ≤ 4 ∧ g d / 16 ≤ 4) (k x : Nat) :
    (lanes g k x + lanes g k x >>> 4) &&& mask 0x0f k = lanes (fun d => g d % 16 + g d / 16) k x := by
  induction k generalizing x with
  | zero => exact Nat.and_zero _
  | succ k ih =>
      obtain ⟨hlow, hhigh⟩ := h (x % 256) (Nat.mod_lt _ (by decide))
      have hnext : lanes g k (x / 256) % 16 ≤ 4 := by
        cases k with
        | zero => exact Nat.zero_le _
        | succ k =>
            have hbyte := (h (x / 256 % 256) (Nat.mod_lt _ (by decide))).1
            rw [lanes]
            omega
      have hsucc := ih (x / 256)
      rw [lanes, lanes, ← hsucc, mask_succ, and_add_mul (by decide)]
      generalize lanes g k (x / 256) = rest at hnext ⊢
      generalize g (x % 256) = d at hlow hhigh ⊢
      rw [Nat.shiftRight_eq_div_pow, Nat.shiftRight_eq_div_pow, show 0x0f = 2 ^ 4 - 1 from rfl,
        Nat.and_two_pow_sub_one_eq_mod]
      -- neither sum carries into the next half
      congr 1
      · omega
      · congr 2
        omega

/-- Bytes whose sum is small are added up in the lowest one by three additions of the shifted number. -/
theorem total_eq (h : ∀ d < 256, g d ≤ 8) (x : Nat) {y₀ y₁ y₂ y₃ : Nat} (h₀ : y₀ = lanes g 8 x)
    (h₁ : y₁ = y₀ + y₀ / 256) (h₂ : y₂ = y₁ + y₁ / 256 ^ 2) (h₃ : y₃ = y₂ + y₂ / 256 ^ 4) :
    y₃ % 128 = total g 8 x := by
  have hbyte : ∀ z, g (z % 256) ≤ 8 := fun z => h _ (Nat.mod_lt _ (by decide))
  simp only [lanes, total] at h₀ ⊢
  have b0 := hbyte x
  have b1 := hbyte (x / 256)
  have b2 := hbyte (x / 256 / 256)
  have b3 := hbyte (x / 256 / 256 / 256)
  have b4 := hbyte (x / 256 / 256 / 256 / 256)
  have b5 := hbyte (x / 256 / 256 / 256 / 256 / 256)
  have b6 := hbyte (x / 256 / 256 / 256 / 256 / 256 / 256)
  have b7 := hbyte (x / 256 / 256 / 256 / 256 / 256 / 256 / 256)
  generalize g (x % 256) = p0 at *
  generalize g (x / 256 % 256) = p1 at *
  generalize g (x / 256 / 256 % 256) = p2 at *
  generalize g (x / 256 / 256 / 256 % 256) = p3 at *
  generalize g (x / 256 / 256 / 256 / 256 % 256) = p4 at *
  generalize g (x / 256 / 256 / 256 / 256 / 256 % 256) = p5 at *
  generalize g (x / 256 / 256 / 256 / 256 / 256 / 256 % 256) = p6 at *
  generalize g (x / 256 / 256 / 256 / 256 / 256 / 256 / 256 % 256) = p7 at *
  clear hbyte h
  have e₁ : y₁ = (p0 + p1) + 256 * ((p1 + p2) + 256 * ((p2 + p3) + 256 * ((p3 + p4) + 256 * ((p4 + p5) +
      256 * ((p5 + p6) + 256 * ((p6 + p7) + 256 * p7)))))) := by
    omega
  have d₁ : y₁ / 256 ^ 2 = (p2 + p3) + 256 * ((p3 + p4) + 256 * ((p4 + p5) + 256 * ((p5 + p6) + 256 * ((p6 + p7) +
      256 * p7)))) := by
    clear h₀ h₁ h₂ h₃
    omega
  have d₂ : y₂ / 256 ^ 4 = (p4 + p5 + p6 + p7) + 256 * ((p5 + p6 + p7) + 256 * ((p6 + p7) + 256 * p7)) := by
    clear h₀ h₁ h₃
    omega
  clear h₀ h₁
  omega

end ByteLanes
