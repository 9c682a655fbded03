/-
MidiTraining/Lib/MachineInt.lean

Arithmetic in the signed integers of `w` bits.

A value *fits* `w` bits (`InWord`) if it is one of them.  The checked
arithmetic of a program computes on exact integers and stops with a fault at
the first value that does not fit (`check`).  Two things are needed of it:

* which values fit: those between two that do (`InWord.between`), hence the
  weighted sums of two amounts whose extremes do (`InWord.weighted_sum`,
  `InWord.weighted_sum_of_add_le`);
* that a checked computation which does not stop is the exact one
  (`Checks`): the relation is closed under the steps of a computation and
  under runs of a machine (`Checks.run`).
-/
import Mathlib.Algebra.Order.Ring.Int
import Mathlib.Tactic.Linarith
import Mathlib.Tactic.NormNum
import MidiTraining.Lib.FaultMachine

namespace MachineInt

/-! ### The values of a word -/

/-- `x` is a signed integer of `w` bits. -/
def InWord (w : ℕ) (x : ℤ) : Prop := -2 ^ (w - 1) ≤ x ∧ x < 2 ^ (w - 1)

instance (w : ℕ) (x : ℤ) : Decidable (InWord w x) :=
  inferInstanceAs (Decidable (_ ∧ _))

theorem inWord_32_iff {x : ℤ} : InWord 32 x ↔ -2147483648 ≤ x ∧ x ≤ 2147483647 := by
  unfold InWord
  norm_num
  omega

theorem inWord_64_iff {x : ℤ} :
    InWord 64 x ↔ -9223372036854775808 ≤ x ∧ x ≤ 9223372036854775807 := by
  unfold InWord
  norm_num
  omega

namespace InWord

variable {w : ℕ} {a b c x y d d' T : ℤ}

theorem zero (w : ℕ) : InWord w 0 := by
  have hpos : (0 : ℤ) < 2 ^ (w - 1) := by positivity
  exact ⟨by omega, hpos⟩

/-- What lies between two values fits. -/
theorem between (hx : InWord w x) (hy : InWord w y) (hxc : x ≤ c) (hcy : c ≤ y) : InWord w c :=
  ⟨hx.1.trans hxc, hcy.trans_lt hy.2⟩

/-- A multiple of an amount of at most `T`. -/
theorem mul_of_le (h : InWord w (a * T)) (h0 : 0 ≤ d) (hd : d ≤ T) : InWord w (a * d) := by
  rcases le_total 0 a with ha | ha
  · exact (zero w).between h (mul_nonneg ha h0) (mul_le_mul_of_nonneg_left hd ha)
  · exact h.between (zero w) (mul_le_mul_of_nonpos_left hd ha)
      (mul_nonpos_of_nonpos_of_nonneg ha h0)

/-- A weighted sum of two amounts fits if it does at the four corners. -/
theorem weighted_sum (ha : InWord w (a * T)) (hb : InWord w (b * T)) (hab : InWord w ((a + b) * T))
    (h0 : 0 ≤ d) (hd : d ≤ T) (h0' : 0 ≤ d') (hd' : d' ≤ T) : InWord w (a * d + b * d') := by
  rw [add_mul] at hab
  have hcorner {e : ℤ} (he0 : 0 ≤ e) (he : e ≤ T) : InWord w (a * T + b * e) := by
    rcases le_total 0 b with hb0 | hb0
    · exact ha.between hab (by nlinarith) (by nlinarith)
    · exact hab.between ha (by nlinarith) (by nlinarith)
  have hside : InWord w (b * d') := hb.mul_of_le h0' hd'
  have hfar := hcorner h0' hd'
  rcases le_total 0 a with ha0 | ha0
  · exact hside.between hfar (by nlinarith) (by nlinarith)
  · exact hfar.between hside (by nlinarith) (by nlinarith)

/-- A weighted sum of two parts of one amount fits if the multiples of the
whole do. -/
theorem weighted_sum_of_add_le (ha : InWord w (a * T)) (hb : InWord w (b * T)) (h0 : 0 ≤ d)
    (h0' : 0 ≤ d') (hd : d + d' ≤ T) : InWord w (a * d + b * d') := by
  rcases le_total a b with hab | hab
  · -- between the smaller weight and the larger one on the sum
    have hlow : InWord w (a * (d + d')) := ha.mul_of_le (by omega) hd
    have hhigh : InWord w (b * (d + d')) := hb.mul_of_le (by omega) hd
    exact hlow.between hhigh (by nlinarith) (by nlinarith)
  · have hlow : InWord w (b * (d + d')) := hb.mul_of_le (by omega) hd
    have hhigh : InWord w (a * (d + d')) := ha.mul_of_le (by omega) hd
    exact hlow.between hhigh (by nlinarith) (by nlinarith)

end InWord

/-! ### Narrowing -/

/-- The conversion to a signed integer of `w` bits: it keeps the low bits. -/
def narrow (w : ℕ) (x : ℤ) : ℤ := x.bmod (2 ^ w)

theorem narrow_succ (w : ℕ) (x : ℤ) :
    narrow (w + 1) x =
      if x % 2 ^ (w + 1) < 2 ^ w then x % 2 ^ (w + 1) else x % 2 ^ (w + 1) - 2 ^ (w + 1) := by
  have hhalf : ((2 : ℤ) ^ (w + 1) + 1) / 2 = 2 ^ w := by
    rw [pow_succ]
    omega
  unfold narrow
  rw [Int.bmod_def]
  push_cast
  rw [hhalf]

/-- A value that stays non-negative lost a multiple of the modulus only. -/
theorem narrow_succ_nonneg_iff {w : ℕ} {x : ℤ} :
    0 ≤ narrow (w + 1) x ↔
      ∃ k, k * 2 ^ (w + 1) ≤ x ∧ x < k * 2 ^ (w + 1) + 2 ^ w ∧
        narrow (w + 1) x = x - k * 2 ^ (w + 1) := by
  have hpos : (0 : ℤ) < 2 ^ (w + 1) := by positivity
  have hmod := Int.emod_add_mul_ediv x (2 ^ (w + 1))
  have hlow := Int.emod_nonneg x hpos.ne'
  have hhigh := Int.emod_lt_of_pos x hpos
  rw [mul_comm] at hmod
  constructor
  · intro h
    rw [narrow_succ] at h
    split at h
    · rename_i hlt
      refine ⟨x / 2 ^ (w + 1), by omega, by omega, ?_⟩
      rw [narrow_succ, if_pos hlt]
      omega
    · omega
  · rintro ⟨k, hk, -, heq⟩
    omega

/-- In one window of non-negative values narrowing is a translation. -/
theorem narrow_succ_of_window {w : ℕ} {k x : ℤ} (h : k * 2 ^ (w + 1) ≤ x)
    (h' : x < k * 2 ^ (w + 1) + 2 ^ w) : narrow (w + 1) x = x - k * 2 ^ (w + 1) := by
  have hlt : (2 : ℤ) ^ w < 2 ^ (w + 1) := by
    rw [pow_succ]
    have : (0 : ℤ) < 2 ^ w := by positivity
    omega
  have hmod : x % 2 ^ (w + 1) = x - k * 2 ^ (w + 1) := by
    have hsub : (x - k * 2 ^ (w + 1)) % 2 ^ (w + 1) = x % 2 ^ (w + 1) := by
      rw [Int.sub_mul_emod_self_right]
    rw [← hsub]
    exact Int.emod_eq_of_lt (by omega) (by omega)
  rw [narrow_succ, hmod, if_pos (by omega)]

/-! ### Checked values -/

universe u

variable {ε ε' σ ι ο : Type*} {α β : Type u}

/-- A value of `w` bits, or the fault `e`. -/
def check (e : ε) (w : ℕ) (x : ℤ) : Except ε ℤ := if InWord w x then .ok x else .error e

theorem check_of_inWord {e : ε} {w : ℕ} {x : ℤ} (h : InWord w x) : check e w x = .ok x := if_pos h

/-! ### Checked computations -/

/-- A computation that works, read in a larger set of faults. -/
def lift (f : ε → ε') (y : Except ε α) : Except ε' α := y.mapError f

@[simp] theorem lift_ok (f : ε → ε') (a : α) : lift f (.ok a : Except ε α) = .ok a := rfl

@[simp] theorem lift_error (f : ε → ε') (e : ε) : lift f (.error e : Except ε α) = .error (f e) :=
  rfl

theorem lift_eq_ok_iff {f : ε → ε'} {y : Except ε α} {a : α} : lift f y = .ok a ↔ y = .ok a := by
  rcases y with e | b <;> simp

/-- A computation lifted from other faults does not stop with a fault `e'`
that is none of them. -/
theorem lift_ne_error {f : ε → ε'} {e' : ε'} (h : ∀ e, f e ≠ e') (y : Except ε α) :
    lift f y ≠ .error e' := by
  rcases y with e | a
  · intro heq
    exact h e (Except.error.inj heq)
  · intro heq
    cases heq

/-- What follows a step does not stop with a fault: then only the step
does. -/
theorem bind_eq_error_iff {e : ε} {x : Except ε α} {g : α → Except ε β}
    (hg : ∀ a, g a ≠ .error e) : x >>= g = .error e ↔ x = .error e := by
  rcases x with e' | a
  · constructor
    · intro heq
      exact congrArg Except.error (Except.error.inj heq)
    · intro heq
      exact congrArg Except.error (Except.error.inj heq)
  · refine iff_of_false (hg a) ?_
    intro heq
    cases heq

theorem bind_ne_error {e : ε} {x : Except ε α} {g : α → Except ε β} (hx : x ≠ .error e)
    (hg : ∀ a, g a ≠ .error e) : x >>= g ≠ .error e :=
  fun h => hx ((bind_eq_error_iff hg).mp h)

/-- `x` is the exact computation `y`, or stops with the fault `e`. -/
def Checks (e : ε') (f : ε → ε') (x : Except ε' α) (y : Except ε α) : Prop :=
  x = .error e ∨ x = lift f y

namespace Checks

variable {e : ε'} {f : ε → ε'}

theorem lift (y : Except ε α) : Checks e f (lift f y) y := Or.inr rfl

theorem ok (a : α) : Checks e f (.ok a) (.ok a : Except ε α) := Or.inr rfl

/-- A value that fits is the exact one. -/
theorem check (w : ℕ) (x : ℤ) : Checks e f (check e w x) (.ok x : Except ε ℤ) := by
  unfold MachineInt.check
  split
  · exact Or.inr rfl
  · exact Or.inl rfl

/-- **Steps**: what follows a checked computation may be checked as well. -/
theorem bind {x : Except ε' α} {y : Except ε α} {g : α → Except ε' β} {h : α → Except ε β}
    (hx : Checks e f x y) (hg : ∀ a, Checks e f (g a) (h a)) : Checks e f (x >>= g) (y >>= h) := by
  rcases hx with rfl | rfl
  · exact Or.inl rfl
  · rcases y with e' | a
    · exact Or.inr rfl
    · exact hg a

/-- A checked value is the exact one in what follows. -/
theorem bind_ok {x : Except ε' α} {a : α} {g : α → Except ε' β} {y : Except ε β}
    (hx : Checks e f x (.ok a)) (hg : Checks e f (g a) y) : Checks e f (x >>= g) y := by
  rcases hx with rfl | rfl
  · exact Or.inl rfl
  · exact hg

theorem ite {p : Prop} [Decidable p] {x x' : Except ε' α} {y y' : Except ε α}
    (h : p → Checks e f x y) (h' : ¬ p → Checks e f x' y') :
    Checks e f (if p then x else x') (if p then y else y') := by
  split
  · exact h ‹_›
  · exact h' ‹_›

/-- A checked computation that ends is the exact one. -/
theorem eq_ok {x : Except ε' α} {y : Except ε α} (h : Checks e f x y) {a : α} (hx : x = .ok a) :
    y = .ok a := by
  rcases h with rfl | rfl
  · cases hx
  · exact lift_eq_ok_iff.mp hx

/-- **Runs** of a machine with checked steps are checked. -/
theorem run {step : σ → ι → Except ε' (σ × ο)} {step' : σ → ι → Except ε (σ × ο)}
    (h : ∀ s i, Checks e f (step s i) (step' s i)) (s : σ) (is : List ι) :
    Checks e f (FaultMachine.run step s is) (FaultMachine.run step' s is) := by
  induction is generalizing s with
  | nil => exact Or.inr rfl
  | cons i is ih =>
    rcases h s i with hi | hi
    · exact Or.inl (FaultMachine.run_cons_of_error is hi)
    · rcases hy : step' s i with e' | ⟨s', o⟩
      · rw [hy] at hi
        rw [FaultMachine.run_cons_of_error is hi, FaultMachine.run_cons_of_error is hy]
        exact Or.inr rfl
      · rw [hy] at hi
        rw [FaultMachine.run_cons_of_ok is hi, FaultMachine.run_cons_of_ok is hy]
        rcases ih s' with hrest | hrest
        · rw [hrest]
          exact Or.inl rfl
        · rw [hrest]
          rcases FaultMachine.run step' s' is with e' | r
          · exact Or.inr rfl
          · exact Or.inr rfl

end Checks

end MachineInt
