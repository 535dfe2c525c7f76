import Scubed3.ToMathlib.Related
import Mathlib

/-! # Independent uniform draws

Reading every draw of a program as an independent uniform choice turns it into a distribution on
its results, where `none` stands for an error or for not having finished. `Draw.expect` computes
the weight of the returned values directly, in the order in which the program draws them. It
commutes with increasing limits, which is how a loop with a bound on its turns is related to the
loop without one.
-/

open scoped ENNReal

namespace Draw

variable {ε α β : Type}

/-- The distribution of the result when all draws are independent and uniform. -/
noncomputable def toPMF : Draw ε α → PMF (Option α)
  | ret a => PMF.pure (some a)
  | raise _ => PMF.pure none
  | starve => PMF.pure none
  | choose count next =>
    if positive : count = 0 then PMF.pure none
    else
      have : NeZero count := ⟨positive⟩
      (PMF.uniformOfFintype (Fin count)).bind fun outcome => (next outcome).toPMF

/-- The expected value of `k` at the returned value; an error or an unfinished run counts zero. -/
noncomputable def expect : Draw ε α → (k : α → ℝ≥0∞) → ℝ≥0∞
  | ret a, k => k a
  | raise _, _ => 0
  | starve, _ => 0
  | choose count next, k => (count : ℝ≥0∞)⁻¹ * ∑ outcome : Fin count, (next outcome).expect k

@[simp] theorem expect_ret (a : α) (k : α → ℝ≥0∞) : (ret a : Draw ε α).expect k = k a := rfl

@[simp] theorem expect_pure (a : α) (k : α → ℝ≥0∞) : (pure a : Draw ε α).expect k = k a := rfl

@[simp] theorem expect_starve (k : α → ℝ≥0∞) : (starve : Draw ε α).expect k = 0 := rfl

theorem toPMF_some_eq_expect [DecidableEq α] (x : Draw ε α) (a : α) :
    x.toPMF (some a) = x.expect fun b => if b = a then 1 else 0 := by
  induction x with
  | ret b => simp [toPMF, PMF.pure_apply, eq_comm]
  | raise e => simp [toPMF, expect, PMF.pure_apply]
  | starve => simp [toPMF, PMF.pure_apply]
  | choose count next ih =>
    rw [toPMF, expect]
    split_ifs with empty
    · subst empty
      simp [PMF.pure_apply]
    · simp only [PMF.bind_apply, tsum_fintype, PMF.uniformOfFintype_apply, Fintype.card_fin, ih,
        Finset.mul_sum]

@[simp] theorem expect_bind (x : Draw ε α) (f : α → Draw ε β) (k : β → ℝ≥0∞) :
    (x >>= f).expect k = x.expect fun a => (f a).expect k := by
  induction x with
  | ret a => rfl
  | raise e => rfl
  | starve => rfl
  | choose count next ih =>
    change (count : ℝ≥0∞)⁻¹ * ∑ outcome : Fin count, (next outcome >>= f).expect k = _
    simp only [ih]
    rfl

theorem expect_draw (count : ℕ) (k : ℕ → ℝ≥0∞) :
    (draw count : Draw ε ℕ).expect k = (count : ℝ≥0∞)⁻¹ * ∑ outcome : Fin count, k outcome := rfl

@[gcongr] theorem expect_mono (x : Draw ε α) {k k' : α → ℝ≥0∞} (below : ∀ a, k a ≤ k' a) :
    x.expect k ≤ x.expect k' := by
  induction x with
  | ret a => exact below a
  | raise e => exact le_rfl
  | starve => exact le_rfl
  | choose count next ih =>
    rw [expect, expect]
    gcongr with outcome
    exact ih outcome

/-- Only the values a program can return matter. -/
theorem expect_congr {x : Draw ε α} {post : α → Prop} {onFail : ε → Prop} {k k' : α → ℝ≥0∞}
    (spec : Ensures x post onFail) (same : ∀ a, post a → k a = k' a) : x.expect k = x.expect k' := by
  induction x with
  | ret a => exact same a (spec.result [])
  | raise e => rfl
  | starve => rfl
  | choose count next ih =>
    rw [expect, expect]
    congr 1
    exact Finset.sum_congr rfl fun outcome _ => ih outcome (spec.of_choose outcome.isLt)

theorem expect_const_mul (x : Draw ε α) (c : ℝ≥0∞) (k : α → ℝ≥0∞) :
    (x.expect fun a => c * k a) = c * x.expect k := by
  induction x with
  | ret a => rfl
  | raise e => exact (mul_zero c).symm
  | starve => exact (mul_zero c).symm
  | choose count next ih =>
    simp only [expect, ih, ← Finset.mul_sum]
    exact mul_left_comm _ _ _

/-- A bound on the rest of a program is a bound on all of it. -/
theorem expect_bind_le {x : Draw ε α} {f : α → Draw ε β} {m : α → ℝ≥0∞} {k : β → ℝ≥0∞} {bound : ℝ≥0∞}
    (first : x.expect m ≤ bound) (others : ∀ a, (f a).expect k ≤ m a) : (x >>= f).expect k ≤ bound := by
  rw [expect_bind]
  exact (x.expect_mono others).trans first

theorem expect_lift_le {x : Except ε α} {k : α → ℝ≥0∞} {bound : ℝ≥0∞} (spec : ∀ a, x = .ok a → k a ≤ bound) :
    (liftM x : Draw ε α).expect k ≤ bound := by
  cases x with
  | ok a => exact spec a rfl
  | error e => exact zero_le

/-- Related programs expect the same. -/
theorem Related.expect_eq {α' : Type} {r : α → α' → Prop} {x : Draw ε α} {x' : Draw ε α'} (related : Related r x x')
    {k : α → ℝ≥0∞} {k' : α' → ℝ≥0∞} (same : ∀ a a', r a a' → k a = k' a') : x.expect k = x'.expect k' := by
  induction related with
  | ret related => exact same _ _ related
  | raise e => rfl
  | starve => rfl
  | choose count _ ih => exact congrArg ((count : ℝ≥0∞)⁻¹ * ·) (Finset.sum_congr rfl fun outcome _ => ih outcome)

theorem expect_zero (x : Draw ε α) : (x.expect fun _ => 0) = 0 := by
  simpa using x.expect_const_mul 0 fun _ => 0

theorem expect_one_le (x : Draw ε α) : (x.expect fun _ => 1) ≤ 1 := by
  induction x with
  | ret a => exact le_rfl
  | raise e => exact zero_le_one
  | starve => exact zero_le_one
  | choose count next ih =>
    calc (count : ℝ≥0∞)⁻¹ * ∑ outcome : Fin count, (next outcome).expect (fun _ => 1)
        ≤ (count : ℝ≥0∞)⁻¹ * ∑ _outcome : Fin count, 1 := by gcongr with outcome; exact ih outcome
      _ = (count : ℝ≥0∞)⁻¹ * count := by simp
      _ ≤ 1 := ENNReal.inv_mul_le_one _

theorem expect_const_le (x : Draw ε α) (c : ℝ≥0∞) : (x.expect fun _ => c) ≤ c := by
  simpa using (x.expect_const_mul c fun _ => 1).trans_le (mul_le_of_le_one_right' x.expect_one_le)

/-- A bound on everything that can be returned. -/
theorem Ensures.expect_le {x : Draw ε α} {post : α → Prop} {onFail : ε → Prop} {k : α → ℝ≥0∞} {bound : ℝ≥0∞}
    (spec : Ensures x post onFail) (below : ∀ a, post a → k a ≤ bound) : x.expect k ≤ bound := by
  calc x.expect k = x.expect fun a => min (k a) bound :=
        expect_congr spec fun a holds => (min_eq_left (below a holds)).symm
    _ ≤ x.expect fun _ => bound := x.expect_mono fun a => min_le_right ..
    _ ≤ bound := x.expect_const_le bound

/-- Expectation commutes with increasing limits. -/
theorem expect_iSup (x : Draw ε α) {k : ℕ → α → ℝ≥0∞} (monotone : Monotone k) :
    (x.expect fun a => ⨆ n, k n a) = ⨆ n, x.expect (k n) := by
  induction x with
  | ret a => rfl
  | raise e => exact ENNReal.iSup_zero.symm
  | starve => exact ENNReal.iSup_zero.symm
  | choose count next ih =>
    simp only [expect, ih, ← ENNReal.mul_iSup]
    rw [ENNReal.finsetSum_iSup_of_monotone]
    exact fun outcome n n' le => (next outcome).expect_mono fun a => monotone le a

/-- A bounded program and a bounded observation may be unbounded one after the other. -/
theorem iSup_expect_diagonal {x : ℕ → Draw ε α} {k : ℕ → α → ℝ≥0∞}
    (growing : ∀ h, Monotone fun n => (x n).expect h) (monotone : Monotone k) :
    ⨆ n, (x n).expect (k n) = ⨆ n, (x n).expect fun a => ⨆ n', k n' a := by
  apply le_antisymm
  · exact iSup_mono fun n => (x n).expect_mono fun a => le_iSup (fun n' => k n' a) n
  · refine iSup_le fun n => ?_
    rw [(x n).expect_iSup monotone]
    refine iSup_le fun n' => ?_
    calc (x n).expect (k n')
        ≤ (x (max n n')).expect (k n') := growing _ (le_max_left n n')
      _ ≤ (x (max n n')).expect (k (max n n')) :=
          (x (max n n')).expect_mono fun a => monotone (le_max_right n n') a
      _ ≤ ⨆ n, (x n).expect (k n) := le_iSup (fun n => (x n).expect (k n)) _

end Draw
