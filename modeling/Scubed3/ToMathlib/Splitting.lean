import Scubed3.ToMathlib.Draw
import Scubed3.ToMathlib.Memory

/-! # Copying an interval in pieces

A transfer copies an interval of one memory to an interval of another one. It is split into pieces that lie side
by side in both. `Splits` says that a list of pieces does that, in increasing order; a program that copies one
piece after the other has then copied the interval.
-/

namespace Splitting

variable {C : Type} {source target length : C → ℕ}

/-- The pieces cover `total` cells from `origin` in the source and from `goal` in the target, side by side. -/
inductive Splits (source target length : C → ℕ) : (origin goal total : ℕ) → List C → Prop
  | nil (origin goal : ℕ) : Splits source target length origin goal 0 []
  | cons {c : C} {total : ℕ} {rest : List C} (positive : 0 < length c)
      (next : Splits source target length (source c + length c) (target c + length c) total rest) :
      Splits source target length (source c) (target c) (length c + total) (c :: rest)

namespace Splits

variable {origin goal total : ℕ} {pieces : List C}

theorem swap (splits : Splits source target length origin goal total pieces) :
    Splits target source length goal origin total pieces := by
  induction splits with
  | nil origin goal => exact .nil goal origin
  | cons positive _ ih => exact .cons positive ih

/-- The first piece, written with the two ends of the transfer. -/
theorem cons' {c : C} {rest : List C} (start : source c = origin) (place : target c = goal) (positive : 0 < length c)
    (next : Splits source target length (origin + length c) (goal + length c) total rest) :
    Splits source target length origin goal (length c + total) (c :: rest) := by
  subst start place
  exact .cons positive next

theorem of_total {total' : ℕ} (splits : Splits source target length origin goal total pieces)
    (same : total = total') : Splits source target length origin goal total' pieces := same ▸ splits

/-- A program that copies one piece after the other copies the interval. -/
theorem foldlM_blit {ε σ α : Type} {act : σ → C → Draw ε σ} (Inv : σ → Prop) (view : σ → ℕ → α) (src : ℕ → α)
    {onFail : ε → Prop} (splits : Splits source target length origin goal total pieces)
    (acts : ∀ c ∈ pieces, ∀ s, Inv s → Draw.Ensures (act s c)
      (fun s' => Inv s' ∧ view s' = Memory.blit (view s) (target c) (length c) fun i => src (source c + i)) onFail)
    {s : σ} (inv : Inv s) :
    Draw.Ensures (pieces.foldlM act s)
      (fun s' => Inv s' ∧ view s' = Memory.blit (view s) goal total fun i => src (origin + i)) onFail := by
  induction splits generalizing s with
  | nil origin goal =>
    rw [List.foldlM_nil]
    exact .pure ⟨inv, (Memory.blit_zero ..).symm⟩
  | @cons c total rest positive next ih =>
    rw [List.foldlM_cons]
    refine .bind (acts c (List.mem_cons_self ..) s inv) fun s' ⟨inv', first⟩ => ?_
    refine (ih (fun c' member => acts c' (List.mem_cons_of_mem _ member)) inv').imp fun s'' ⟨inv'', others⟩ => ?_
    refine ⟨inv'', ?_⟩
    rw [others, first]
    simp only [Nat.add_assoc]
    exact Memory.blit_blit_next (view s) (target c) (length c) total fun i => src (source c + i)

/-- Copying one piece after the other copies the interval. -/
theorem foldl_blit {α : Type} (src m : ℕ → α) (splits : Splits source target length origin goal total pieces) :
    pieces.foldl (fun m c => Memory.blit m (target c) (length c) fun i => src (source c + i)) m =
      Memory.blit m goal total fun i => src (origin + i) := by
  induction splits generalizing m with
  | nil origin goal => exact (Memory.blit_zero ..).symm
  | @cons c total rest positive next ih =>
    rw [List.foldl_cons, ih]
    simp only [Nat.add_assoc]
    exact Memory.blit_blit_next m (target c) (length c) total fun i => src (source c + i)

end Splits

end Splitting
