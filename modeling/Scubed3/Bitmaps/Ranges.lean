import Scubed3.Model.BitmapCalls

/-! # Reading a range of bits

A range that ends in the word in which it starts is read as it is. When a range goes on in the next word, that word is
shifted by the number of bits that are taken from it, and not by the number of bits that come before them.
-/

namespace Scubed3.Bitmap.Checked

variable {b : Bitmap} {index offset size : ℕ}

/-! ## Words and bits -/

/-- The number of words is not rounded to zero. -/
theorem words_eq {noBits : ℕ} (fits : noBits + 31 < 2 ^ 32) : words noBits = (noBits + 31) / 32 := by
  rw [words, Nat.mod_eq_of_lt fits]

theorem words_wraps {noBits : ℕ} (uint32 : noBits < 2 ^ 32) (wraps : 2 ^ 32 ≤ noBits + 31) : words noBits = 0 := by
  rw [words]
  omega

theorem word_eq (fits : b.noBits + 31 < 2 ^ 32) (bound : index < b.noBits) : word b (index / 32) = .ok (b.bits (index / 32)) := by
  refine if_pos ?_
  rw [words_eq fits]
  omega

theorem word_wraps (uint32 : b.noBits < 2 ^ 32) (wraps : 2 ^ 32 ≤ b.noBits + 31) (i : ℕ) :
    word b i = .error (.outOfBounds "b->bits") := by
  refine if_neg ?_
  rw [words_wraps uint32 wraps]
  exact Nat.not_lt_zero i

theorem getbit_eq (fits : b.noBits + 31 < 2 ^ 32) (bound : index < b.noBits) : getbit b index = .ok (b.used index) := by
  have small : index % 32 < 32 := Nat.mod_lt _ (by decide)
  unfold getbit
  rw [check_of _ _ bound, word_eq fits bound]
  refine congrArg Except.ok ?_
  rw [used, ← BitVec.twoPow_eq, BitVec.and_twoPow]
  cases (b.bits (index / 32)).getLsbD (index % 32) with
  | true =>
    rw [if_pos rfl, bne_iff_ne]
    intro zero
    have bit := congrArg (fun word => word.getLsbD (index % 32)) zero
    simp [small] at bit
  | false => rfl

/-- The mask keeps the lowest bits. -/
theorem mask_getLsbD (small : size ≤ 32) (i : ℕ) : (0xFFFFFFFF#32 >>> (32 - size)).getLsbD i = decide (i < size) := by
  have ones : 0xFFFFFFFF#32 = BitVec.allOnes 32 := rfl
  rw [ones, BitVec.getLsbD_ushiftRight, BitVec.getLsbD_allOnes]
  exact decide_eq_decide.mpr (by omega)

/-- A bit of the word in which the range starts. -/
theorem low_getLsbD (b : Bitmap) (offset i : ℕ) :
    (b.bits (offset / 32) >>> (offset % 32)).getLsbD i = (decide (offset % 32 + i < 32) && b.used (offset + i)) := by
  rw [BitVec.getLsbD_ushiftRight, used]
  by_cases here : offset % 32 + i < 32
  · rw [decide_eq_true here, Bool.true_and, show (offset + i) / 32 = offset / 32 by omega,
      show (offset + i) % 32 = offset % 32 + i by omega]
  · rw [decide_eq_false here, Bool.false_and, BitVec.getLsbD_of_ge _ _ (by omega)]

/-! ## Ranges -/

/-- `bitmap_getbits` reads the bits that `bitmap_getbit` reads, and no others. -/
def Reads (b : Bitmap) (offset size : ℕ) : Prop :=
  ∃ r, getbits b offset size = .ok r ∧ (∀ i < size, getbit b (offset + i) = .ok (r.getLsbD i)) ∧
    ∀ i, size ≤ i → r.getLsbD i = false

/-- The bits of the next word happen to be the same at the place where they are put. -/
def Coincides (b : Bitmap) (offset size : ℕ) : Prop :=
  ∀ i < size, (decide (offset % 32 + i < 32) && b.used (offset + i) ||
    decide (offset % 32 + size - 32 ≤ i) && b.used ((offset / 32 + 1) * 32 + (i - (offset % 32 + size - 32)))) =
      b.used (offset + i)

/-- The bits of the next word, shifted by the number of bits that are taken from it. -/
theorem high_getLsbD (b : Bitmap) (offset size : ℕ) {i : ℕ} (bound : i < size) (small : size < 32) :
    (b.bits (offset / 32 + 1) <<< (offset % 32 + size - 32)).getLsbD i =
      (decide (offset % 32 + size - 32 ≤ i) && b.used ((offset / 32 + 1) * 32 + (i - (offset % 32 + size - 32)))) := by
  rw [BitVec.getLsbD_shiftLeft, decide_eq_true (by omega : i < 32), Bool.true_and, used]
  by_cases before : i < offset % 32 + size - 32
  · rw [decide_eq_true before, decide_eq_false (by omega)]
    rfl
  · rw [decide_eq_false before, decide_eq_true (by omega),
      show ((offset / 32 + 1) * 32 + (i - (offset % 32 + size - 32))) / 32 = offset / 32 + 1 by omega,
      show ((offset / 32 + 1) * 32 + (i - (offset % 32 + size - 32))) % 32 = i - (offset % 32 + size - 32) by omega]
    rfl

section Range

variable (positive : 1 ≤ size) (small : size ≤ 31) (inside : offset + size ≤ b.noBits)

include positive small inside

/-- The answer, when the words are there. -/
theorem getbits_eq (fits : b.noBits + 31 < 2 ^ 32) : ∃ r, getbits b offset size = .ok r ∧
    (∀ i, size ≤ i → r.getLsbD i = false) ∧ ∀ i < size, r.getLsbD i =
      if offset % 32 + size ≤ 32 then b.used (offset + i)
      else (decide (offset % 32 + i < 32) && b.used (offset + i) || decide (offset % 32 + size - 32 ≤ i) &&
        b.used ((offset / 32 + 1) * 32 + (i - (offset % 32 + size - 32)))) := by
  have low := low_getLsbD b offset
  have mask := mask_getLsbD (show size ≤ 32 by omega)
  unfold getbits
  dsimp only
  rw [check_of _ _ (by omega), check_of _ _ inside, check_of _ _ (by omega), check_of _ _ (by omega),
    word_eq fits (by omega)]
  by_cases before : offset % 32 + size < 32
  · refine ⟨_, if_pos before, fun i above => ?_, fun i bound => ?_⟩
    · rw [BitVec.getLsbD_and, mask, decide_eq_false (by omega), Bool.and_false]
    · rw [BitVec.getLsbD_and, mask, low, decide_eq_true (by omega), decide_eq_true (by omega), if_pos (by omega), Bool.and_true,
        Bool.true_and]
  · by_cases straddles : offset % 32 + size > 32
    · have next : word b (offset / 32 + 1) = .ok (b.bits (offset / 32 + 1)) := by
        refine if_pos ?_
        rw [words_eq fits]
        omega
      refine ⟨(b.bits (offset / 32) >>> (offset % 32) ||| b.bits (offset / 32 + 1) <<< (offset % 32 + size - 32)) &&&
        0xFFFFFFFF#32 >>> (32 - size), ?_, fun i above => ?_, fun i bound => ?_⟩
      · refine (if_neg before).trans ((if_pos straddles).trans ?_)
        rw [next]
        rfl
      · rw [BitVec.getLsbD_and, mask, decide_eq_false (by omega), Bool.and_false]
      · rw [BitVec.getLsbD_and, BitVec.getLsbD_or, mask, low, high_getLsbD b offset size bound (by omega),
          decide_eq_true bound, Bool.and_true, if_neg (by omega)]
    · -- the range ends where the word ends
      refine ⟨_, (if_neg before).trans (if_neg straddles), fun i above => ?_, fun i bound => ?_⟩
      · rw [low, decide_eq_false (by omega), Bool.false_and]
      · rw [low, decide_eq_true (by omega), Bool.true_and, if_pos (by omega)]

/-- A range is read right when the bits of the next word end up where they belong. -/
theorem reads_iff_of_fits (fits : b.noBits + 31 < 2 ^ 32) :
    Reads b offset size ↔ offset % 32 + size ≤ 32 ∨ Coincides b offset size := by
  obtain ⟨r, ran, above, below⟩ := getbits_eq positive small inside fits
  have bit (i : ℕ) (bound : i < size) : getbit b (offset + i) = .ok (b.used (offset + i)) := getbit_eq fits (by omega)
  have same : Reads b offset size ↔ ∀ i < size, r.getLsbD i = b.used (offset + i) := by
    constructor
    · rintro ⟨r', ran', reads, -⟩ i bound
      obtain rfl := Except.ok.inj (ran.symm.trans ran')
      exact (Except.ok.inj ((bit i bound).symm.trans (reads i bound))).symm
    · exact fun reads => ⟨r, ran, fun i bound => (bit i bound).trans (congrArg Except.ok (reads i bound).symm), above⟩
  rw [same]
  by_cases within : offset % 32 + size ≤ 32
  · refine iff_of_true (fun i bound => ?_) (.inl within)
    rw [below i bound, if_pos within]
  · refine Iff.trans ?_ (or_iff_right within).symm
    refine forall₂_congr fun i bound => ?_
    rw [below i bound, if_neg within]

/-- Without words every range is out of bounds. -/
theorem not_reads_of_wraps (uint32 : b.noBits < 2 ^ 32) (wraps : 2 ^ 32 ≤ b.noBits + 31) : ¬ Reads b offset size := by
  rintro ⟨r, ran, -⟩
  unfold getbits at ran
  dsimp only at ran
  rw [check_of _ _ (by omega), check_of _ _ inside, check_of _ _ (by omega), check_of _ _ (by omega),
    word_wraps uint32 wraps] at ran
  cases ran

omit positive inside in
/-- When as many bits are taken from the next word as come before them in it, they end up where they belong. -/
theorem coincides_of_middle (straddles : 32 < offset % 32 + size) (middle : 2 * (offset % 32) + size = 64) :
    Coincides b offset size := by
  intro i bound
  by_cases here : offset % 32 + i < 32
  · rw [decide_eq_true here, decide_eq_false (by omega), Bool.true_and, Bool.false_and, Bool.or_false]
  · rw [decide_eq_false here, decide_eq_true (by omega), Bool.false_and, Bool.false_or, Bool.true_and]
    congr 1
    omega

/-- `bitmap_getbits` is right exactly when the range stays in a word, or the two shifts are the same, or it makes no
difference for these bits; otherwise it is wrong for some bitmap of this size. -/
theorem getbits_reads_iff (uint32 : b.noBits < 2 ^ 32) :
    (Reads b offset size ↔ b.noBits + 31 < 2 ^ 32 ∧
      (offset % 32 + size ≤ 32 ∨ 2 * (offset % 32) + size = 64 ∨ Coincides b offset size)) ∧
    (32 < offset % 32 + size → 2 * (offset % 32) + size ≠ 64 → ∃ bits, ¬ Reads { b with bits } offset size) := by
  by_cases fits : b.noBits + 31 < 2 ^ 32
  · refine ⟨(reads_iff_of_fits positive small inside fits).trans ?_, fun straddles other => ?_⟩
    · rw [and_iff_right fits]
      refine or_congr_right' fun within => (or_iff_right_of_imp fun middle => ?_).symm
      exact coincides_of_middle small (by omega) middle
    · -- only the first bit of the next word is set
      refine ⟨fun i => if i = offset / 32 + 1 then 1 else 0, fun reads => ?_⟩
      set b' : Bitmap := { b with bits := fun i => if i = offset / 32 + 1 then 1 else 0 } with b'Eq
      have used (i : ℕ) : b'.used i = decide (i = (offset / 32 + 1) * 32) := by
        change (if i / 32 = offset / 32 + 1 then (1 : BitVec 32) else 0).getLsbD (i % 32) = _
        by_cases same : i / 32 = offset / 32 + 1
        · have first : i % 32 = 0 ↔ i = (offset / 32 + 1) * 32 := by omega
          rw [if_pos same, show (1 : BitVec 32) = 1#32 from rfl, BitVec.getLsbD_one]
          simpa using first
        · rw [if_neg same, decide_eq_false (by omega)]
          exact BitVec.getLsbD_zero
      have coincides := ((reads_iff_of_fits (b := b') positive small inside fits).mp reads).resolve_left (by omega)
      have bit := coincides (32 - offset % 32) (by omega)
      rw [used, used, decide_eq_false (by omega : ¬ offset % 32 + (32 - offset % 32) < 32), Bool.false_and, Bool.false_or,
        decide_eq_true (by omega : offset + (32 - offset % 32) = (offset / 32 + 1) * 32), Bool.and_eq_true,
        decide_eq_true_iff, decide_eq_true_iff] at bit
      omega
  · have wraps := not_lt.mp fits
    refine ⟨iff_of_false (not_reads_of_wraps positive small inside uint32 wraps) fun all => fits all.1, fun _ _ =>
      ⟨b.bits, not_reads_of_wraps positive small inside uint32 wraps⟩⟩

end Range

/-- Three bits that begin two bits before the end of a word, of which the last one is set. -/
def straddling : Bitmap := { noBits := 64, noSet := 1, bits := fun i => if i = 1 then 1 else 0 }

theorem getbits_reads_iff_straddling : Reads straddling 30 2 := by
  refine (getbits_reads_iff (b := straddling) (by decide) (by decide) (by decide) (by decide)).1.mpr ⟨by decide, ?_⟩
  exact .inl (by decide)

/-- The bit is returned one place too low. -/
theorem getbits_misplaces : ¬ ∀ (b : Bitmap) (offset size : ℕ), 1 ≤ size → size ≤ 31 → offset + size ≤ b.noBits →
    b.noBits < 2 ^ 32 → Reads b offset size := by
  intro all
  obtain ⟨r, ran, reads, -⟩ := all straddling 30 3 (by decide) (by decide) (by decide) (by decide)
  have two : getbits straddling 30 3 = .ok 2 := by decide
  obtain rfl := Except.ok.inj (two.symm.trans ran)
  have bit := reads 2 (by decide)
  rw [getbit_eq (by decide) (by decide)] at bit
  exact absurd bit (by decide)

end Scubed3.Bitmap.Checked
