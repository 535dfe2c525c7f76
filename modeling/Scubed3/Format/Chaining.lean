import Scubed3.Model.CipherCbc

/-! # Chaining in place and into another buffer

Encryption produces the standard chain, whether it writes over its input or into another buffer; decryption in place
undoes it. `dec_plain` with two buffers decrypts the first block of its input over and over: `gcry_in` stays where it
is. That gives the plaintext only when all ciphertext blocks are the same.
-/

namespace Scubed3.CipherCbc

open Memory

variable {hd : BlockCipher} {m m' : Bytes} {out input n : ℕ}

/-- Two buffers of `n` blocks are one and the same, or disjoint. -/
def Arranged (n out input : ℕ) : Prop := out = input ∨ out + 16 * n ≤ input ∨ input + 16 * n ≤ out

/-- Storing a block at `out` in two halves does not interfere with the operand. -/
def Steady (out : ℕ) : Operand → Prop
  | .mem addr => addr = out ∨ addr + 16 ≤ out ∨ out + 16 ≤ addr
  | .var _ => True

/-! ## One block -/

theorem load_half {in1 : Operand} (steady : Steady out in1) (half : Fin 8 → UInt8) (i : Fin 8) :
    load (store m out half) in1 (i.natAdd 8) = load m in1 (i.natAdd 8) := by
  cases in1 with
  | var block => rfl
  | mem addr =>
    refine store_outside m half ?_
    change addr + (8 + i) < out ∨ out + 8 ≤ addr + (8 + i)
    have := i.isLt
    rcases steady with same | below | above
    all_goals omega

theorem xorBlock_eq {in1 in2 : Operand} (steady1 : Steady out in1) (steady2 : Steady out in2) :
    xorBlock m out in1 in2 = store m out (Cipher.xorBlock (load m in1) (load m in2)) := by
  funext a
  unfold xorBlock
  simp only [load_half steady1, load_half steady2]
  by_cases first : out ≤ a ∧ a < out + 8
  · rw [store_outside _ _ (by omega)]
    obtain ⟨k, rfl⟩ := Nat.exists_eq_add_of_le first.1
    exact (store_inside m out _ ⟨k, by omega⟩).trans (store_inside m out
      (Cipher.xorBlock (load m in1) (load m in2)) ⟨k, by omega⟩).symm
  · by_cases second : out + 8 ≤ a ∧ a < out + 16
    · obtain ⟨k, rfl⟩ := Nat.exists_eq_add_of_le second.1
      have inside := store_inside m out (Cipher.xorBlock (load m in1) (load m in2)) ⟨8 + k, by omega⟩
      dsimp only at inside
      rw [← Nat.add_assoc] at inside
      exact (store_inside _ (out + 8) _ ⟨k, by omega⟩).trans inside.symm
    · rw [store_outside _ _ (by omega), store_outside _ _ (by omega), store_outside _ _ (by omega)]

theorem xorBlock_outside (m : Bytes) (in1 in2 : Operand) {a : ℕ} (outside : a < out ∨ out + 16 ≤ a) :
    xorBlock m out in1 in2 a = m a := by
  unfold xorBlock
  rw [store_outside _ _ (by omega), store_outside _ _ (by omega)]

theorem gcryCall_outside (cipher : Block → Block) (m : Bytes) (input : Option ℕ) {a : ℕ}
    (outside : a < out ∨ out + 16 ≤ a) : gcryCall cipher m out input a = m a :=
  store_outside m _ outside

/-! ## Encryption -/

theorem encTurns_outside (hd : BlockCipher) (m : Bytes) {i a : ℕ} (outside : a < out ∨ out + 16 * (i + 1) ≤ a) :
    encTurns hd i m out input a = m a := by
  induction i generalizing m out input with
  | zero => exact gcryCall_outside hd.enc m none (by omega)
  | succ i ih =>
    rw [encTurns, ih _ (by omega), xorBlock_outside _ _ _ (by omega), gcryCall_outside _ _ _ (by omega)]

/-- From a block that is chained already, the loop of `enc_plain` writes the rest of the chain. -/
theorem encTurns_eq {i : ℕ} {x : Block} (arranged : Arranged (i + 1) out input) (chained : slice m out 16 = x) :
    blocksAt (encTurns hd i m out input) 16 (i + 1) out =
      hd.enc x :: Cbc.enc Cipher.xorBlock hd.enc (hd.enc x) (blocksAt m 16 i (input + 16)) := by
  induction i generalizing m out input x with
  | zero =>
    rw [encTurns, gcryCall, Option.getD_none, chained, blocksAt, blocksAt, slice_store_same]
    rfl
  | succ i ih =>
    rw [Arranged, Nat.mul_succ] at arranged
    have first : gcryCall hd.enc m out none = store m out (hd.enc x) := by rw [gcryCall, Option.getD_none, chained]
    -- the block that is read next was not overwritten
    have next : slice (store m out (hd.enc x)) (input + 16) 16 = slice m (input + 16) 16 :=
      slice_store_disjoint m _ (by omega)
    rw [encTurns, first, blocksAt]
    have chainedNext : slice (xorBlock (store m out (hd.enc x)) (out + 16) (.mem (input + 16)) (.mem out)) (out + 16) 16 =
        Cipher.xorBlock (slice m (input + 16) 16) (hd.enc x) := by
      rw [xorBlock_eq (by rw [Steady]; omega) (by rw [Steady]; omega), slice_store_same, load, load, next,
        slice_store_same]
    have rest : blocksAt (xorBlock (store m out (hd.enc x)) (out + 16) (.mem (input + 16)) (.mem out)) 16 i
        (input + 16 + 16) = blocksAt m 16 i (input + 16 + 16) := by
      refine blocksAt_congr fun a _ _ => ?_
      rw [xorBlock_outside _ _ _ (by omega), store_outside _ _ (by omega)]
    have kept : slice (encTurns hd i (xorBlock (store m out (hd.enc x)) (out + 16) (.mem (input + 16)) (.mem out))
        (out + 16) (input + 16)) out 16 = hd.enc x := by
      rw [← slice_store_same m out (hd.enc x)]
      refine slice_congr fun a _ _ => ?_
      rw [encTurns_outside hd _ (by omega), slice_store_same, xorBlock_outside _ _ _ (by omega)]
    rw [kept, ih (by rw [Arranged]; omega) chainedNext, rest, blocksAt, Cbc.enc]

/-- `enc_plain` writes the standard chain. -/
theorem encPlain_eq (ctx : CbcPlain) (positive : 0 < ctx.noBlocks) (arranged : Arranged ctx.noBlocks out input)
    (iv : Block) : blocksAt (encPlain ctx m out input iv) 16 ctx.noBlocks out =
      Cbc.enc Cipher.xorBlock ctx.hd.enc iv (blocksAt m 16 ctx.noBlocks input) := by
  obtain ⟨hd, _ | i⟩ := ctx
  · cases positive
  have steady : Steady out (.mem input) := by
    rw [Arranged] at arranged
    rw [Steady]
    omega
  have chained := xorBlock_eq (m := m) steady (show Steady out (.var iv) from trivial)
  have apart := arranged
  rw [Arranged, Nat.mul_succ] at apart
  rw [encPlain, Nat.add_sub_cancel, chained, encTurns_eq arranged (slice_store_same ..), blocksAt, Cbc.enc]
  congr 2
  refine blocksAt_congr fun a _ _ => store_outside _ _ ?_
  omega

/-! ## Decryption -/

/-- What the loop of `dec_plain` decrypts in each of `n` turns is given by `cipher`: the next block in place, or the
same block again and again from a buffer that is not written. -/
def Feeds (hd : BlockCipher) (m : Bytes) (n out input : ℕ) (cipher : Block → Block) : Option ℕ → Prop
  | none => out = input ∧ cipher = hd.dec
  | some gcryIn => (out + 16 * n ≤ input ∨ input + 16 * n ≤ out) ∧ (out + 16 * n ≤ gcryIn ∨ gcryIn + 16 ≤ out) ∧
    cipher = fun _ => hd.dec (slice m gcryIn 16)

theorem decTurns_outside (hd : BlockCipher) (m : Bytes) (gcryIn : Option ℕ) (tmp : Block) {i a : ℕ}
    (outside : a < out ∨ out + 16 * i ≤ a) : decTurns hd gcryIn i m tmp out input a = m a := by
  induction i generalizing m out input tmp with
  | zero => rfl
  | succ i ih =>
    rw [decTurns, ih _ _ (by omega), xorBlock_outside _ _ _ (by omega), gcryCall_outside _ _ _ (by omega)]

theorem decTurns_eq {gcryIn : Option ℕ} {i : ℕ} {tmp : Block} {cipher : Block → Block}
    (feeds : Feeds hd m i out input cipher gcryIn) : blocksAt (decTurns hd gcryIn i m tmp out input) 16 i out =
      Cbc.dec Cipher.xorBlock cipher tmp (blocksAt m 16 i input) := by
  induction i generalizing m out input tmp with
  | zero => rfl
  | succ i ih =>
    have first : gcryCall hd.dec m out gcryIn = store m out (cipher (slice m input 16)) := by
      cases gcryIn with
      | none =>
        obtain ⟨rfl, rfl⟩ := feeds
        rfl
      | some gcryIn =>
        obtain ⟨-, -, rfl⟩ := feeds
        rfl
    set next := xorBlock (store m out (cipher (slice m input 16))) out (.mem out) (.var tmp) with nextEq
    have outside {a : ℕ} (elsewhere : a < out ∨ out + 16 ≤ a) : next a = m a := by
      rw [nextEq, xorBlock_outside _ _ _ elsewhere, store_outside _ _ elsewhere]
    have decrypted : slice next out 16 = Cipher.xorBlock (cipher (slice m input 16)) tmp := by
      rw [nextEq, xorBlock_eq (show Steady out (.mem out) from .inl rfl) (show Steady out (.var tmp) from trivial), slice_store_same, load, slice_store_same, load]
    have apart : out = input ∨ out + 16 * (i + 1) ≤ input ∨ input + 16 * (i + 1) ≤ out := by
      cases gcryIn with
      | none => exact .inl feeds.1
      | some gcryIn => exact .inr feeds.1
    have feedsNext : Feeds hd next i (out + 16) (input + 16) cipher gcryIn := by
      cases gcryIn with
      | none => exact ⟨by rw [feeds.1], feeds.2⟩
      | some gcryIn =>
        obtain ⟨disjoint, away, same⟩ := feeds
        refine ⟨by omega, by omega, same.trans ?_⟩
        rw [slice_congr fun a _ _ => outside (a := a) (by omega)]
    rw [decTurns, first, ← nextEq, blocksAt, ih feedsNext, slice_congr fun a _ _ => decTurns_outside hd next gcryIn _ (by omega),
      decrypted, blocksAt, Cbc.dec]
    congr 2
    exact blocksAt_congr fun a _ _ => outside (by omega)

/-- `dec_plain` in place is the standard decryption. -/
theorem decPlain_in_place (ctx : CbcPlain) (iv : Block) : blocksAt (decPlain ctx m out out iv) 16 ctx.noBlocks out =
    Cbc.dec Cipher.xorBlock ctx.hd.dec iv (blocksAt m 16 ctx.noBlocks out) := by
  rw [decPlain, if_pos rfl]
  exact decTurns_eq ⟨rfl, rfl⟩

/-- `dec_plain` with two buffers takes the first block for each of them. -/
theorem decPlain_apart (ctx : CbcPlain) (different : out ≠ input) (positive : 0 < ctx.noBlocks)
    (arranged : Arranged ctx.noBlocks out input) (iv : Block) :
    blocksAt (decPlain ctx m out input iv) 16 ctx.noBlocks out =
      Cbc.dec Cipher.xorBlock (fun _ => ctx.hd.dec (slice m input 16)) iv (blocksAt m 16 ctx.noBlocks input) := by
  have apart := arranged.resolve_left different
  rw [decPlain, if_neg different]
  exact decTurns_eq ⟨apart, by omega, rfl⟩

/-! ## Both modes -/

namespace Ctx

variable {w : Ctx} {iv : Block}

theorem enc_eq (positive : 0 < w.noBlocks) (arranged : Arranged w.noBlocks out input) :
    blocksAt (w.enc m out input iv) 16 w.noBlocks out =
      Cbc.enc Cipher.xorBlock w.hd.enc (w.newiv iv) (blocksAt m 16 w.noBlocks input) := by
  cases w with
  | plain ctx => exact encPlain_eq ctx positive arranged iv
  | essiv ctx => exact encPlain_eq ctx.plain positive arranged _

theorem dec_in_place : blocksAt (w.dec m out out iv) 16 w.noBlocks out =
    Cbc.dec Cipher.xorBlock w.hd.dec (w.newiv iv) (blocksAt m 16 w.noBlocks out) := by
  cases w with
  | plain ctx => exact decPlain_in_place ctx iv
  | essiv ctx => exact decPlain_in_place ctx.plain _

theorem dec_apart (different : out ≠ input) (positive : 0 < w.noBlocks) (arranged : Arranged w.noBlocks out input) :
    blocksAt (w.dec m out input iv) 16 w.noBlocks out = Cbc.dec Cipher.xorBlock
      (fun _ => w.hd.dec (slice m input 16)) (w.newiv iv) (blocksAt m 16 w.noBlocks input) := by
  cases w with
  | plain ctx => exact decPlain_apart ctx different positive arranged iv
  | essiv ctx => exact decPlain_apart ctx.plain different positive arranged _

end Ctx

/-! ## The cipher of a wide block -/

theorem split_slice (m : Bytes) (off count : ℕ) :
    Blocks.split (slice m off (count * 16)) = blocksAt m 16 count off := by
  induction count generalizing off with
  | zero => rfl
  | succ count ih =>
    refine (List.ofFn_succ ..).trans ?_
    rw [blocksAt, ← ih]
    congr 1
    · funext j
      change m (off + ((0 : ℕ) * 16 + j)) = m (off + j)
      rw [Nat.zero_mul, Nat.zero_add]
    · refine congrArg List.ofFn (funext fun i => funext fun j => ?_)
      change m (off + ((i + 1) * 16 + j)) = m (off + 16 + (i * 16 + j))
      congr 1
      omega

/-- The cipher with which the format works. -/
def Ctx.cipher (w : Ctx) : Cipher (w.noBlocks * 16) := Cipher.chained w.noBlocks w.hd w.newiv

/-- In every arrangement of the buffers `cipher_enc` is the encryption of the format. -/
theorem cipherEnc_eq {w : Ctx} (positive : 0 < w.noBlocks) (arranged : Arranged w.noBlocks out input) (iv : Iv) :
    slice (cipherEnc w m out input iv) out (w.noBlocks * 16) =
      w.cipher.enc iv (slice m input (w.noBlocks * 16)) := by
  change _ = Blocks.join (Cbc.enc Cipher.xorBlock w.hd.enc (w.newiv (Cipher.setIv iv)) (Blocks.split _))
  rw [split_slice, ← w.enc_eq positive arranged, ← split_slice, Blocks.join_split]
  rfl

/-- In place, `cipher_dec` is the decryption of the format. The program only decrypts in place. -/
theorem cipherDec_eq {w : Ctx} (iv : Iv) : slice (cipherDec w m out out iv) out (w.noBlocks * 16) =
    w.cipher.dec iv (slice m out (w.noBlocks * 16)) := by
  change _ = Blocks.join (Cbc.dec Cipher.xorBlock w.hd.dec (w.newiv (Cipher.setIv iv)) (Blocks.split _))
  rw [split_slice, ← w.dec_in_place, ← split_slice, Blocks.join_split]
  rfl

/-- Encryption writes the standard chain in every arrangement, and decryption undoes it in place. With two buffers it
does so exactly when every block but the first is the one that encrypts to the first ciphertext block again. -/
theorem chain_decrypts_iff {w : Ctx} {x₀ : Block} {iv : Block} {plaintext : List Block} {output : ℕ}
    (count : w.noBlocks = plaintext.length + 1) (given : blocksAt m 16 w.noBlocks input = x₀ :: plaintext)
    (arranged : Arranged w.noBlocks out input) (arrangedBack : Arranged w.noBlocks output out) :
    blocksAt (w.enc m out input iv) 16 w.noBlocks out =
        Cbc.enc Cipher.xorBlock w.hd.enc (w.newiv iv) (x₀ :: plaintext) ∧
      (blocksAt (w.dec (w.enc m out input iv) output out iv) 16 w.noBlocks output = x₀ :: plaintext ↔
        output = out ∨ ∀ b ∈ plaintext, b = Cipher.xorBlock (Cipher.xorBlock x₀ (w.newiv iv))
          (w.hd.enc (Cipher.xorBlock x₀ (w.newiv iv)))) := by
  have positive : 0 < w.noBlocks := by omega
  have chain : blocksAt (w.enc m out input iv) 16 w.noBlocks out = _ := w.enc_eq positive arranged
  rw [given] at chain
  refine ⟨chain, ?_⟩
  by_cases same : output = out
  · subst same
    refine iff_of_true ?_ (.inl rfl)
    rw [w.dec_in_place, chain]
    exact Cbc.dec_enc Cipher.xorBlock_cancel w.hd.dec_enc _ _
  · rw [w.dec_apart same positive arrangedBack, chain, or_iff_right same]
    have first : slice (w.enc m out input iv) out 16 = w.hd.enc (Cipher.xorBlock x₀ (w.newiv iv)) := by
      rw [count, blocksAt, Cbc.enc] at chain
      exact (List.cons.inj chain).1
    rw [first, w.hd.dec_enc, Cbc.enc, Cbc.dec, Cipher.xorBlock_cancel, List.cons.injEq, and_iff_right rfl]
    exact Cbc.dec_const_enc_iff Cipher.xorBlock_cancel _ _

/-- The complement of a block. -/
def complement : BlockCipher where
  enc block i := ~~~ block i
  dec block i := ~~~ block i
  dec_enc block := by
    funext i
    exact UInt8.not_not

theorem chain_decrypts_iff_zeroes :
    blocksAt ((Ctx.plain ⟨complement, 2⟩).dec ((Ctx.plain ⟨complement, 2⟩).enc (fun _ => 0) 32 0 fun _ => 7)
      32 32 fun _ => 7) 16 2 32 = [fun _ => 0, fun _ => 0] :=
  (chain_decrypts_iff (w := Ctx.plain ⟨complement, 2⟩) rfl rfl (.inr (.inr (by decide))) (.inl rfl)).2.mpr (.inl rfl)

/-- Two blocks of zeroes are not decrypted into another buffer. -/
theorem chain_not_decrypted : Arranged 2 0 32 ∧ Arranged 2 64 0 ∧
    blocksAt (fun _ => 0) 16 2 32 = [fun _ => 0, fun _ => 0] ∧
    blocksAt ((Ctx.plain ⟨complement, 2⟩).dec ((Ctx.plain ⟨complement, 2⟩).enc (fun _ => 0) 0 32 fun _ => 0)
      64 0 fun _ => 0) 16 2 64 ≠ [fun _ => 0, fun _ => 0] := by
  refine ⟨.inr (.inl (by decide)), .inr (.inr (by decide)), rfl, fun decrypted => ?_⟩
  have byte := congrArg (fun blocks => blocks.getD 1 (fun _ => 0) 0) decrypted
  exact absurd byte (by decide +kernel)

end Scubed3.CipherCbc
