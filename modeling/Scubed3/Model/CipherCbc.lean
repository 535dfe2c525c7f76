import Scubed3.Model.Cipher
import Scubed3.ToMathlib.Memory

/-! # Cipher block chaining in memory

The loops of `cipher_cbc.c` on the buffers they are given. The buffers may be one and the same, so each step stores
before the next one reads. Local variables are values; `iv`, `tmp`, `tmp2` and `newiv` overlap with no buffer. The
number of blocks is positive (`init_plain` asserts it) and fits in the `int` that counts them.
-/

namespace Scubed3

/-- `block_t`. -/
abbrev Block := Fin 16 → UInt8

/-- `cbc_plain_t`. -/
structure CbcPlain where
  hd : BlockCipher
  noBlocks : ℕ

/-- `cbc_essiv_t`. -/
structure CbcEssiv where
  plain : CbcPlain
  hd : BlockCipher

/-- A `const block_t` that is passed to a function: a block in memory, or a local variable. -/
inductive Operand where
  | mem (addr : ℕ)
  | var (block : Block)

namespace CipherCbc

open Memory

/-- What is read through a pointer now. -/
def load (m : Bytes) : Operand → Block
  | .mem addr => slice m addr 16
  | .var block => block

/-- `xor_block`: two words of eight bytes; the first one is stored before the second one is read. -/
def xorBlock (m : Bytes) (out : ℕ) (in1 in2 : Operand) : Bytes :=
  let m := store m out fun i : Fin 8 => load m in1 (i.castLE (by decide)) ^^^ load m in2 (i.castLE (by decide))
  store m (out + 8) fun i : Fin 8 => load m in1 (i.natAdd 8) ^^^ load m in2 (i.natAdd 8)

/-- `gcry_cipher_encrypt` and `gcry_cipher_decrypt` of one block; without an input they work in place. -/
def gcryCall (cipher : Block → Block) (m : Bytes) (out : ℕ) (input : Option ℕ) : Bytes :=
  store m out (cipher (slice m (input.getD out) 16))

/-- The loop of `enc_plain`, for `i` blocks after the one at `out`. -/
def encTurns (hd : BlockCipher) : (i : ℕ) → Bytes → (out input : ℕ) → Bytes
  | 0, m, out, _ => gcryCall hd.enc m out none
  | i + 1, m, out, input =>
    let m := gcryCall hd.enc m out none
    encTurns hd i (xorBlock m (out + 16) (.mem (input + 16)) (.mem out)) (out + 16) (input + 16)

/-- `enc_plain`. -/
def encPlain (ctx : CbcPlain) (m : Bytes) (out input : ℕ) (iv : Block) : Bytes :=
  encTurns ctx.hd (ctx.noBlocks - 1) (xorBlock m out (.mem input) (.var iv)) out input

/-- `enc_essiv`. -/
def encEssiv (ctx : CbcEssiv) (m : Bytes) (out input : ℕ) (iv : Block) : Bytes :=
  let newiv := ctx.hd.enc iv
  encPlain ctx.plain m out input newiv

/-- The loop of `dec_plain`. -/
def decTurns (hd : BlockCipher) (gcryIn : Option ℕ) : (i : ℕ) → Bytes → (tmp : Block) → (out input : ℕ) → Bytes
  | 0, m, _, _, _ => m
  | i + 1, m, tmp, out, input =>
    let tmp2 := slice m input 16
    let m := gcryCall hd.dec m out gcryIn
    let m := xorBlock m out (.mem out) (.var tmp)
    decTurns hd gcryIn i m tmp2 (out + 16) (input + 16)

/-- `dec_plain`. -/
def decPlain (ctx : CbcPlain) (m : Bytes) (out input : ℕ) (iv : Block) : Bytes :=
  let gcryIn := if out = input then none else some input
  decTurns ctx.hd gcryIn ctx.noBlocks m iv out input

/-- `dec_essiv`. -/
def decEssiv (ctx : CbcEssiv) (m : Bytes) (out input : ℕ) (iv : Block) : Bytes :=
  let newiv := ctx.hd.enc iv
  decPlain ctx.plain m out input newiv

/-- The context of `cipher_t` for one of the two modes. -/
inductive Ctx where
  | plain (ctx : CbcPlain)
  | essiv (ctx : CbcEssiv)

namespace Ctx

/-- The cipher handle for the data. -/
def hd : Ctx → BlockCipher
  | plain ctx => ctx.hd
  | essiv ctx => ctx.plain.hd

def noBlocks : Ctx → ℕ
  | plain ctx => ctx.noBlocks
  | essiv ctx => ctx.plain.noBlocks

/-- What the first block is chained with. -/
def newiv : Ctx → Block → Block
  | plain _ => id
  | essiv ctx => ctx.hd.enc

/-- `spec->enc`. -/
def enc : Ctx → Bytes → (out input : ℕ) → (iv : Block) → Bytes
  | plain ctx => encPlain ctx
  | essiv ctx => encEssiv ctx

/-- `spec->dec`. -/
def dec : Ctx → Bytes → (out input : ℕ) → (iv : Block) → Bytes
  | plain ctx => decPlain ctx
  | essiv ctx => decEssiv ctx

end Ctx

/-- `cipher_enc`. -/
def cipherEnc (w : Ctx) (m : Bytes) (out input : ℕ) (iv : Iv) : Bytes := w.enc m out input (Cipher.setIv iv)

/-- `cipher_dec`. -/
def cipherDec (w : Ctx) (m : Bytes) (out input : ℕ) (iv : Iv) : Bytes := w.dec m out input (Cipher.setIv iv)

end CipherCbc

end Scubed3
