import Mathlib.Data.List.Forall2
import Scubed3.ToMathlib.Memory

/-! # Overwriting the front of a list

`wiped value k` overwrites the first `k` entries by one value, as `Memory.fill` does in an interval of
a memory. A list `Overwritten` several times is still known where the last version agrees with the first:
no version in between can differ there.
-/

namespace List

variable {α : Type} (value : α)

/-- The first `k` entries, as far as there are any, become `value`. -/
def wiped : (k : ℕ) → List α → List α
  | 0, xs => xs
  | _ + 1, [] => []
  | k + 1, _ :: xs => value :: wiped k xs

/-- Some entries became `value`. -/
def Overwritten (xs ys : List α) : Prop := Forall₂ (fun x y => y = x ∨ y = value) xs ys

variable {value} {xs ys zs us vs : List α} {k : ℕ}

@[simp] theorem wiped_nil : wiped value k [] = [] := by cases k <;> rfl

@[simp] theorem length_wiped : (wiped value k xs).length = xs.length := by
  induction k generalizing xs with
  | zero => rfl
  | succ k ih => cases xs <;> simp [wiped, ih]

theorem wiped_append (k : ℕ) (xs ys : List α) :
    wiped value k (xs ++ ys) = wiped value k xs ++ wiped value (k - xs.length) ys := by
  induction k generalizing xs with
  | zero => simp [wiped]
  | succ k ih =>
    cases xs with
    | nil => simp
    | cons x xs => simp [wiped, ih]

theorem wiped_eq_self_iff : wiped value k xs = xs ↔ ∀ x ∈ xs.take k, x = value := by
  induction k generalizing xs with
  | zero => simp [wiped]
  | succ k ih =>
    cases xs with
    | nil => simp
    | cons x xs =>
      rw [wiped, cons.injEq, ih, take_succ_cons, forall_mem_cons]
      exact and_congr_left fun _ => eq_comm

theorem mem_of_mem_wiped {x : α} (member : x ∈ wiped value k xs) : x = value ∨ x ∈ xs := by
  induction k generalizing xs with
  | zero => exact .inr member
  | succ k ih =>
    cases xs with
    | nil => simp at member
    | cons y xs =>
      rcases mem_cons.mp member with rfl | member
      · exact .inl rfl
      · exact (ih member).imp_right (mem_cons_of_mem _)

namespace Overwritten

theorem refl (xs : List α) : Overwritten value xs xs := forall₂_same.mpr fun _ _ => .inl rfl

theorem append (front : Overwritten value xs ys) (back : Overwritten value us vs) :
    Overwritten value (xs ++ us) (ys ++ vs) := rel_append front back

theorem trans (first : Overwritten value xs ys) (second : Overwritten value ys zs) :
    Overwritten value xs zs := by
  induction first generalizing zs with
  | nil => exact second
  | cons step _ ih =>
    cases second with
    | cons step' rest =>
      refine .cons ?_ (ih rest)
      rcases step' with rfl | rfl
      · exact step
      · exact .inr rfl

theorem of_wiped (k : ℕ) (xs : List α) : Overwritten value xs (wiped value k xs) := by
  induction k generalizing xs with
  | zero => exact refl xs
  | succ k ih =>
    cases xs with
    | nil => exact refl []
    | cons x xs => exact .cons (.inr rfl) (ih xs)

/-- Where the last version agrees with the first, the one in between does too. -/
theorem prefix_between (first : Overwritten value xs ys) (second : Overwritten value ys zs)
    (before : us <+: xs) (after : us <+: zs) : us <+: ys := by
  induction us generalizing xs ys zs with
  | nil => exact nil_prefix
  | cons u us ih =>
    obtain ⟨xs', rfl⟩ := before
    obtain ⟨zs', rfl⟩ := after
    cases first with
    | cons step first =>
      cases second with
      | cons step' second =>
        have same := ih first second (prefix_append _ _) (prefix_append _ _)
        rcases step with rfl | rfl
        · exact (prefix_cons_inj _).mpr same
        · obtain rfl | rfl := step'
          · exact (prefix_cons_inj _).mpr same
          · exact (prefix_cons_inj _).mpr same

end Overwritten

end List

namespace Memory

variable {α : Type} {m : ℕ → α}

theorem readList_fill_front (m : ℕ → α) {ptr off : ℕ} (len n : ℕ) (value : α) (lower : ptr ≤ off) :
    readList (fill m ptr len value) off n = (readList m off n).wiped value (ptr + len - off) := by
  induction n generalizing off with
  | zero => simp [readList]
  | succ n ih =>
    rw [readList_succ, readList_succ, ih (by omega)]
    by_cases inside : off < ptr + len
    · obtain ⟨k, more⟩ : ∃ k, ptr + len - off = k + 1 := ⟨ptr + len - off - 1, by omega⟩
      rw [more, List.wiped, fill_inside m value lower inside]
      congr 2
      omega
    · rw [fill_outside m value (.inr (by omega)), Nat.sub_eq_zero_of_le (by omega),
        Nat.sub_eq_zero_of_le (by omega), List.wiped, List.wiped]

end Memory
