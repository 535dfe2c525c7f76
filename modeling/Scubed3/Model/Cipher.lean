import Scubed3.Model.Geometry
import Scubed3.Model.Text
import Scubed3.ToMathlib.Cbc
import Mathlib

/-! # Cipher modes

`cipher_init` parses a specification of the form `MODE(PRIMITIVE)` and initialises one of three modes. The
block ciphers come from libgcrypt and are a parameter; chaining them is done here. An exception carries
the text that the client is going to read.
-/

namespace Scubed3

/-- A keyed block cipher. -/
structure BlockCipher where
  enc : (Fin 16 → UInt8) → Fin 16 → UInt8
  dec : (Fin 16 → UInt8) → Fin 16 → UInt8
  dec_enc : ∀ block, dec (enc block) = block

/-- What is used of libgcrypt. -/
structure Gcrypt where
  /-- `gcry_cipher_map_name`, zero for an unknown name. -/
  mapName : List UInt8 → ℕ
  /-- `GCRYCTL_GET_BLKLEN`. -/
  blockLen : ℕ → ℕ
  /-- `GCRYCTL_GET_KEYLEN`. -/
  keyLen : ℕ → ℕ
  /-- `gcry_cipher_open` and `gcry_cipher_setkey`, or the description of an error. -/
  setkey : (algo : ℕ) → (key : List UInt8) → Except (List UInt8) BlockCipher
  /-- `GCRY_MD_SHA256`. -/
  sha256 : List UInt8 → Hash

/-- The message of an exception, cut off at `ECCH_MSG_SIZE`. -/
def ecchThrow {α : Type} (message : List UInt8) : Except (List UInt8) α := throw (message.take 255)

namespace Cipher

variable (g : Gcrypt)

/-- `cipher_open_set_and_destroy_key`. -/
def openSetAndDestroyKey (name key : List UInt8) : Except (List UInt8) BlockCipher :=
  let algo := g.mapName name
  if algo = 0 then ecchThrow (printf (ascii "blockcipher %s not supported") [name])
  else if g.blockLen algo ≠ 16 then ecchThrow (ascii "cipher has wrong block size")
  else if key.length ≠ g.keyLen algo then ecchThrow (ascii "supplied key has wrong length")
  else match g.setkey algo key with
    | .error text => ecchThrow (ascii "gcry_" ++ text)
    | .ok cipher => .ok cipher

/-- `xor_block`. -/
def xorBlock (in1 in2 : Fin 16 → UInt8) : Fin 16 → UInt8 := fun i => in1 i ^^^ in2 i

/-- `set_iv`. -/
def setIv (iv : Iv) : Fin 16 → UInt8 := fun i =>
  (Binio.uint64Be iv.1 ++ Binio.uint32Be iv.2.1 ++ Binio.uint32Be iv.2.2).getD i 0

theorem xorBlock_cancel (a b : Fin 16 → UInt8) : xorBlock (xorBlock a b) b = a := by
  funext i
  simp [xorBlock]

/-- A cipher for a size that is written differently. -/
def cast {n m : ℕ} (same : n = m) (c : Cipher n) : Cipher m := same ▸ c

/-- `null_cipher`. -/
def null (noBlocks : ℕ) : Cipher (noBlocks * 16) where
  enc _ block := block
  dec _ block := block
  dec_enc _ _ := rfl

/-- A chain of blocks, for an initialisation vector that depends on the one that is passed. -/
def chained (noBlocks : ℕ) (hd : BlockCipher) (newIv : (Fin 16 → UInt8) → Fin 16 → UInt8) :
    Cipher (noBlocks * 16) where
  enc iv block := Blocks.join (Cbc.enc xorBlock hd.enc (newIv (setIv iv)) (Blocks.split block))
  dec iv block := Blocks.join (Cbc.dec xorBlock hd.dec (newIv (setIv iv)) (Blocks.split block))
  dec_enc iv block := by
    rw [Blocks.split_join (by simp), Cbc.dec_enc xorBlock_cancel hd.dec_enc, Blocks.join_split]

/-- `enc_plain` and `dec_plain`. -/
def cbcPlain (noBlocks : ℕ) (hd : BlockCipher) : Cipher (noBlocks * 16) := chained noBlocks hd id

/-- `enc_essiv` and `dec_essiv`. -/
def cbcEssiv (noBlocks : ℕ) (plain hd : BlockCipher) : Cipher (noBlocks * 16) := chained noBlocks plain hd.enc

/-- `null_init`. -/
def nullInit (noBlocks : ℕ) (_name _key : List UInt8) : Except (List UInt8) (Cipher (noBlocks * 16)) :=
  return null noBlocks

/-- `init_plain`. -/
def initPlain (noBlocks : ℕ) (name key : List UInt8) : Except (List UInt8) (Cipher (noBlocks * 16)) := do
  return cbcPlain noBlocks (← openSetAndDestroyKey g name key)

/-- `init_essiv`. -/
def initEssiv (noBlocks : ℕ) (name key : List UInt8) : Except (List UInt8) (Cipher (noBlocks * 16)) := do
  let hd ← openSetAndDestroyKey g name (List.ofFn (g.sha256 key))
  return cbcEssiv noBlocks (← openSetAndDestroyKey g name key) hd

/-- `cipher_specs`. -/
def specs (noBlocks : ℕ) :
    List (List UInt8 × (List UInt8 → List UInt8 → Except (List UInt8) (Cipher (noBlocks * 16)))) :=
  [(ascii "NULL", nullInit noBlocks), (ascii "CBC_PLAIN", initPlain g noBlocks),
    (ascii "CBC_ESSIV", initEssiv g noBlocks)]

/-- `cipher_init`, for wide blocks of `noBlocks` cipher blocks. -/
def init (noBlocks : ℕ) (name key : List UInt8) : Except (List UInt8) (Cipher (noBlocks * 16)) :=
  -- parse name of the form MODE(PRIMITIVE)
  match strchr name 41 with
  | none => ecchThrow (ascii "no closing paren found in cipher name")
  | some (inside, after) =>
    if after ≠ [] then ecchThrow (ascii "data after closing paren in cipher name")
    else match strchr inside 40 with
      | none => ecchThrow (ascii "no closing paren found in cipher name")
      | some (mode, prim) =>
        match (specs g noBlocks).lookup mode with
        | none => ecchThrow (printf (ascii "ciphermode %s not supported") [mode])
        | some specInit => specInit prim key

end Cipher

end Scubed3
