import Scubed3.Model.Random
import Mathlib.Data.Finset.Card
import Mathlib.Order.Interval.Finset.Nat

/-! # `random_custom` is exact

The multiples of `count` below `2 ^ 32` are cut off without a wrap that changes anything, also when `count` divides
`2 ^ 32`. Every remainder then comes from equally many words.
-/

namespace Scubed3.Random

variable {count : BitVec 32}

/-- The words that are not thrown away. -/
def accepted (count : BitVec 32) : Finset ℕ := (Finset.range (2 ^ 32)).filter (BitVec.ofNat 32 · ≤ limit count)

theorem toNat_pos (positive : count ≠ 0) : 0 < count.toNat := by
  refine Nat.pos_of_ne_zero fun zero => positive ?_
  exact BitVec.eq_of_toNat_eq zero

/-- The number of words without the last multiple. -/
theorem toNat_rest (positive : count ≠ 0) : (0xFFFFFFFF#32 - count + 1#32).toNat = 2 ^ 32 - count.toNat := by
  have some := toNat_pos positive
  have bound := count.isLt
  rw [BitVec.toNat_add, BitVec.toNat_sub]
  simp only [BitVec.toNat_ofNat]
  omega

/-- The multiples without the last one. -/
theorem toNat_multiples (positive : count ≠ 0) :
    (count * ((0xFFFFFFFF#32 - count + 1#32) / count)).toNat = count.toNat * ((2 ^ 32 - count.toNat) / count.toNat) := by
  have some := toNat_pos positive
  have below := Nat.mul_div_le (2 ^ 32 - count.toNat) count.toNat
  rw [BitVec.toNat_mul, BitVec.toNat_udiv, toNat_rest positive]
  exact Nat.mod_eq_of_lt (by omega)

/-- One multiple more is the quotient of `2 ^ 32`. -/
theorem multiples_add (positive : count ≠ 0) :
    count.toNat * ((2 ^ 32 - count.toNat) / count.toNat) + count.toNat = count.toNat * (2 ^ 32 / count.toNat) := by
  have some := toNat_pos positive
  have bound := count.isLt
  rw [← Nat.mul_add_one, ← Nat.add_div_right _ some, Nat.sub_add_cancel bound.le]

/-- The limit is one less than that, also when the sum in between wraps to zero. -/
theorem toNat_limit (positive : count ≠ 0) : (limit count).toNat + 1 = count.toNat * (2 ^ 32 / count.toNat) := by
  have some := toNat_pos positive
  have total := multiples_add positive
  have below := Nat.mul_div_le (2 ^ 32) count.toNat
  rw [limit, BitVec.toNat_sub, BitVec.toNat_add, toNat_multiples positive, total]
  simp only [BitVec.toNat_ofNat]
  omega

/-- The accepted words are those below the last multiple. -/
theorem mem_accepted (positive : count ≠ 0) {w : ℕ} : w ∈ accepted count ↔ w < count.toNat * (2 ^ 32 / count.toNat) := by
  have total := toNat_limit positive
  have below := Nat.mul_div_le (2 ^ 32) count.toNat
  rw [accepted, Finset.mem_filter, Finset.mem_range, BitVec.le_def, BitVec.toNat_ofNat]
  constructor
  · rintro ⟨bound, few⟩
    rw [Nat.mod_eq_of_lt bound] at few
    omega
  · intro few
    have bound : w < 2 ^ 32 := by omega
    rw [Nat.mod_eq_of_lt bound]
    omega

/-- At least every second word is accepted. -/
theorem card_accepted (positive : count ≠ 0) : 2 ^ 31 ≤ (accepted count).card := by
  have some := toNat_pos positive
  have bound := count.isLt
  have all : accepted count = Finset.range (count.toNat * (2 ^ 32 / count.toNat)) := by
    ext w
    rw [mem_accepted positive, Finset.mem_range]
  have split := Nat.div_add_mod (2 ^ 32) count.toNat
  have rest := Nat.mod_lt (2 ^ 32) some
  have once : count.toNat * 1 ≤ count.toNat * (2 ^ 32 / count.toNat) :=
    Nat.mul_le_mul_left _ ((Nat.one_le_div_iff some).mpr bound.le)
  rw [all, Finset.card_range]
  omega

/-- Every result comes from one word in each multiple. -/
theorem card_result (positive : count ≠ 0) {r : ℕ} (small : r < count.toNat) :
    ((accepted count).filter fun w => (BitVec.ofNat 32 w % count).toNat = r).card = 2 ^ 32 / count.toNat := by
  have some := toNat_pos positive
  have below := Nat.mul_div_le (2 ^ 32) count.toNat
  have words : (accepted count).filter (fun w => (BitVec.ofNat 32 w % count).toNat = r) =
      (Finset.range (2 ^ 32 / count.toNat)).image fun k => count.toNat * k + r := by
    ext w
    rw [Finset.mem_filter, mem_accepted positive, Finset.mem_image, BitVec.toNat_umod, BitVec.toNat_ofNat]
    constructor
    · rintro ⟨few, result⟩
      rw [Nat.mod_eq_of_lt (show w < 2 ^ 32 by omega)] at result
      refine ⟨w / count.toNat, Finset.mem_range.mpr (Nat.div_lt_of_lt_mul few), ?_⟩
      rw [← result, Nat.div_add_mod]
    · rintro ⟨k, member, rfl⟩
      have inside : count.toNat * (k + 1) ≤ count.toNat * (2 ^ 32 / count.toNat) :=
        Nat.mul_le_mul_left _ (Finset.mem_range.mp member)
      rw [Nat.mul_succ] at inside
      refine ⟨by omega, ?_⟩
      rw [Nat.mod_eq_of_lt (show count.toNat * k + r < 2 ^ 32 by omega), Nat.mul_add_mod, Nat.mod_eq_of_lt small]
  rw [words, Finset.card_image_of_injective, Finset.card_range]
  intro k k' same
  exact Nat.eq_of_mul_eq_mul_left some (Nat.add_right_cancel same)

/-- Whatever is returned is below the bound, and nothing fails. -/
theorem randomCustom_safe (positive : count ≠ 0) (fuel : ℕ) :
    Draw.Safe (randomCustom fuel count) fun r => r.toNat < count.toNat := by
  unfold randomCustom
  rw [check_of _ _ positive, Draw.lift_ok, Draw.ret_bind]
  induction fuel with
  | zero => exact .starve
  | succ fuel ih =>
    unfold randomWord
    refine .bind (m := fun _ => True) (.bind (.draw (Nat.two_pow_pos 32) (q := fun _ => True) fun _ _ => trivial)
      fun _ _ => .pure trivial) fun tmp _ => ?_
    split
    · exact ih
    · exact .pure (by rw [BitVec.toNat_umod]; exact Nat.mod_lt _ (toNat_pos positive))

/-- The loop returns the remainder of the first word that is accepted. -/
theorem randomWord_run (count : BitVec 32) {w : ℕ} (bound : w < 2 ^ 32) (fuel : ℕ) (later : List ℕ) :
    (randomWord count (fuel + 1)).run (w :: later) =
      if w ∈ accepted count then .done (BitVec.ofNat 32 w % count) later else (randomWord count fuel).run later := by
  have drawn : (randomUint32).run (w :: later) = .done (BitVec.ofNat 32 w) later := by
    unfold randomUint32
    exact Draw.bind_done_iff.mpr ⟨w % 2 ^ 32, later, rfl, by rw [Nat.mod_eq_of_lt bound]; rfl⟩
  have member : w ∈ accepted count ↔ ¬ BitVec.ofNat 32 w > limit count := by
    rw [accepted, Finset.mem_filter, Finset.mem_range, and_iff_right bound, gt_iff_lt, BitVec.not_lt]
  rw [randomWord, Draw.run_bind, drawn]
  dsimp only
  by_cases above : BitVec.ofNat 32 w > limit count
  · rw [if_pos above, if_neg fun inside => member.mp inside above]
  · rw [if_neg above, if_pos (member.mpr above)]
    rfl

/-- The limit is the exact one for every count, no intermediate result is another number than it would be without wrapping,
but for the sum, which is zero when it is `2 ^ 32`. At least every second word is accepted, every result is below the count, and
each of them is the remainder of equally many accepted words. -/
theorem randomCustom_exact (count : BitVec 32) (positive : count ≠ 0) :
    (0xFFFFFFFF#32 - count + 1#32).toNat = 2 ^ 32 - count.toNat ∧
    (count * ((0xFFFFFFFF#32 - count + 1#32) / count)).toNat = count.toNat * ((2 ^ 32 - count.toNat) / count.toNat) ∧
    (count * ((0xFFFFFFFF#32 - count + 1#32) / count) + count).toNat = count.toNat * (2 ^ 32 / count.toNat) % 2 ^ 32 ∧
    (limit count).toNat + 1 = count.toNat * (2 ^ 32 / count.toNat) ∧
    2 ^ 31 ≤ (accepted count).card ∧
    (∀ fuel, Draw.Safe (randomCustom fuel count) fun r => r.toNat < count.toNat) ∧
    (∀ w < 2 ^ 32, ∀ fuel later, (randomCustom (fuel + 1) count).run (w :: later) =
      if w ∈ accepted count then .done (BitVec.ofNat 32 w % count) later else (randomCustom fuel count).run later) ∧
    ∀ r < count.toNat, ((accepted count).filter fun w => (BitVec.ofNat 32 w % count).toNat = r).card = 2 ^ 32 / count.toNat := by
  refine ⟨toNat_rest positive, toNat_multiples positive, ?_, toNat_limit positive, card_accepted positive,
    randomCustom_safe positive, fun w bound fuel later => ?_, fun r small => card_result positive small⟩
  · rw [BitVec.toNat_add, toNat_multiples positive, multiples_add positive]
  · have same (fuel : ℕ) : randomCustom fuel count = randomWord count fuel := by
      rw [randomCustom, check_of _ _ positive, Draw.lift_ok, Draw.ret_bind]
    rw [same, same]
    exact randomWord_run count bound fuel later

/-- Nine words are thrown away for thirteen. -/
theorem randomCustom_exact_thirteen : (limit 13).toNat = 2 ^ 32 - 10 := by
  have exact : (limit 13).toNat + 1 = 13 * (2 ^ 32 / 13) := (randomCustom_exact 13 (by decide)).2.2.2.1
  omega

end Scubed3.Random
