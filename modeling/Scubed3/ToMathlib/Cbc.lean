import Mathlib.Data.Nat.Notation
import Mathlib.Tactic.Common

/-! # Cipher block chaining

A block is combined with the previous ciphertext block before it is encrypted, the first one with an
initialisation vector. Decryption undoes this if it undoes the block cipher and combining twice with the
same block changes nothing.
-/

namespace Cbc

variable {B : Type} (xor : B → B → B)

def enc (E : B → B) : (iv : B) → List B → List B
  | _, [] => []
  | iv, p :: ps => E (xor p iv) :: enc E (E (xor p iv)) ps

def dec (D : B → B) : (iv : B) → List B → List B
  | _, [] => []
  | iv, c :: cs => xor (D c) iv :: dec D c cs

variable {xor} {E D : B → B}

@[simp] theorem length_enc (iv : B) (blocks : List B) : (enc xor E iv blocks).length = blocks.length := by
  induction blocks generalizing iv with
  | nil => rfl
  | cons p ps ih => simp [enc, ih]

@[simp] theorem length_dec (iv : B) (blocks : List B) : (dec xor D iv blocks).length = blocks.length := by
  induction blocks generalizing iv with
  | nil => rfl
  | cons c cs ih => simp [dec, ih]

theorem dec_enc (cancel : ∀ a b, xor (xor a b) b = a) (inverse : ∀ b, D (E b) = b) (iv : B) (blocks : List B) :
    dec xor D iv (enc xor E iv blocks) = blocks := by
  induction blocks generalizing iv with
  | nil => rfl
  | cons p ps ih => rw [enc, dec, inverse, cancel, ih]

/-- When the same block is decrypted again and again, only blocks that all encrypt to it are found. -/
theorem dec_const_enc_iff (cancel : ∀ a b, xor (xor a b) b = a) (x : B) (blocks : List B) :
    dec xor (fun _ => x) (E x) (enc xor E (E x) blocks) = blocks ↔ ∀ b ∈ blocks, b = xor x (E x) := by
  induction blocks with
  | nil => simp [enc, dec]
  | cons p ps ih =>
    rw [enc, dec, List.cons.injEq, List.forall_mem_cons, eq_comm (a := xor x (E x))]
    refine and_congr_right fun same => ?_
    rw [same, cancel]
    exact ih

end Cbc

/-! ## Buffers of blocks -/

namespace Blocks

variable {α : Type} {size count : ℕ}

/-- A buffer as a list of blocks. -/
def split (buffer : Fin (count * size) → α) : List (Fin size → α) :=
  List.ofFn fun (i : Fin count) (j : Fin size) => buffer ⟨i * size + j, by
    calc i * size + j < i * size + size := by omega
      _ = (i + 1) * size := by rw [Nat.add_mul, Nat.one_mul]
      _ ≤ count * size := Nat.mul_le_mul_right size i.isLt⟩

/-- A list of blocks as a buffer; `default` stands for what is missing. -/
def join [Inhabited α] (blocks : List (Fin size → α)) : Fin (count * size) → α := fun k =>
  have pos : 0 < size := Nat.pos_of_mul_pos_left (Nat.zero_lt_of_lt k.isLt)
  (blocks[k / size]?.getD fun _ => default) ⟨k % size, Nat.mod_lt _ pos⟩

@[simp] theorem length_split (buffer : Fin (count * size) → α) : (split buffer).length = count := by
  simp [split]

theorem split_join [Inhabited α] {blocks : List (Fin size → α)} (length : blocks.length = count) :
    split (join blocks : Fin (count * size) → α) = blocks := by
  apply List.ext_getElem
  · simp [length]
  · intro i _ bound
    funext j
    have quotient : (i * size + j) / size = i := by
      rw [Nat.mul_comm, Nat.mul_add_div (Nat.zero_lt_of_lt j.isLt), Nat.div_eq_of_lt j.isLt, Nat.add_zero]
    have remainder : (i * size + j) % size = j := by
      rw [Nat.mul_comm, Nat.mul_add_mod, Nat.mod_eq_of_lt j.isLt]
    refine (congrFun (List.getElem_ofFn _) j).trans ?_
    simp [join, quotient, remainder, List.getElem?_eq_getElem bound]

theorem join_split [Inhabited α] (buffer : Fin (count * size) → α) : join (split buffer) = buffer := by
  funext k
  have pos : 0 < size := Nat.pos_of_mul_pos_left (Nat.zero_lt_of_lt k.isLt)
  have quotient : k / size < count := Nat.div_lt_of_lt_mul (Nat.mul_comm count size ▸ k.isLt)
  have position : (k / size) * size + k % size = (k : ℕ) := by rw [Nat.mul_comm, Nat.div_add_mod]
  simp [split, join, quotient, position]

end Blocks
