import Scubed3.Model.CommandLine
import Mathlib

/-! # How the key gets from the client to the server

The client writes the derived key as hexadecimal digits, and the server decodes them where they stand. The
decoder is right for every string: it reads each character before it writes over it. The array that the
client writes into has room for the digits of 32 bytes, but `snprintf` stores a terminator after every
pair, and the last one is stored behind the array.
-/

namespace Scubed3

namespace CommandLine

open Memory (writeList readList writeList_inside writeList_outside)

/-! ### Digits -/

/-- The comparisons of signed characters find the digits of either case. -/
theorem digit_char (c : UInt8) : digit (char c) = (base16Digit c).map fun value => (value.toNat : ℤ) := by
  have all : ∀ n : Fin 256, digit (char (UInt8.ofNat n)) =
      (base16Digit (UInt8.ofNat n)).map fun value => (value.toNat : ℤ) := by decide +kernel
  simpa using all ⟨c.toNat, c.toNat_lt⟩

theorem base16Digit_lt {c value : UInt8} (digit : base16Digit c = some value) : value.toNat < 16 := by
  have all : ∀ n : Fin 256, ∀ value ∈ base16Digit (UInt8.ofNat n), value.toNat < 16 := by decide +kernel
  exact all ⟨c.toNat, c.toNat_lt⟩ value (by simpa using digit)

theorem base16Digit_printHexDigit {value : UInt8} (small : value.toNat < 16) :
    base16Digit (printHexDigit value) = some value := by
  have all : ∀ n : Fin 16, base16Digit (printHexDigit (UInt8.ofNat n)) = some (UInt8.ofNat n) := by decide
  simpa using all ⟨value.toNat, small⟩

/-- Both halves of a byte are read back from what is printed. -/
theorem map_printHex (c : UInt8) : (printHex c).map base16Digit = [some (c / 16), some (c % 16)] := by
  have high : (c / 16).toNat < 16 := by
    rw [UInt8.toNat_div]
    exact Nat.div_lt_of_lt_mul c.toNat_lt
  have low : (c % 16).toNat < 16 := by
    rw [UInt8.toNat_mod]
    exact Nat.mod_lt _ (by decide)
  simp [printHex, base16Digit_printHexDigit high, base16Digit_printHexDigit low]

theorem char_emod (c : UInt8) : char c % 256 = c.toNat % 256 := by
  unfold char
  rw [Int.bmod_def]
  split <;> omega

/-- A value that went through a `char` is only known modulo 256, but that is enough for the sum. -/
theorem toChar_add (high low : ℤ) : toChar (char (toChar high) + low) = toChar (high + low) := by
  have stored : ((toChar high).toNat : ℤ) = high % 256 := by
    rw [toChar, UInt8.toNat_ofNat']
    omega
  have value := char_emod (toChar high)
  have congruent : (char (toChar high) + low) % 256 = (high + low) % 256 := by
    generalize char (toChar high) = c at value ⊢
    omega
  rw [toChar, congruent]
  rfl

theorem isSome_of_mem_printHex {c d : UInt8} (member : d ∈ printHex c) : (base16Digit d).isSome := by
  have digit := List.mem_map_of_mem (f := base16Digit) member
  rw [map_printHex, List.mem_cons, List.mem_singleton] at digit
  rcases digit with same | same <;> rw [same] <;> rfl

/-! ### Decoding in place -/

/-- The pairs of characters from `first` on are digits. -/
def Digits (string : ℕ → UInt8) (first turns : ℕ) : Prop :=
  ∀ i, 2 * first ≤ i → i < 2 * (first + turns) → (base16Digit (string i)).isSome

/-- The value of a pair of digits. -/
def pairValue (string : ℕ → UInt8) (i : ℕ) : UInt8 :=
  16 * (base16Digit (string (2 * i))).getD 0 + (base16Digit (string (2 * i + 1))).getD 0

theorem received_input {len i : ℕ} {buf : ℕ → Cell} {c : UInt8} (inside : i < len) (same : buf i = .input c) :
    received len buf i = .ok (char c) := by
  rw [received, if_pos inside, same]

theorem decoded_inside {len i : ℕ} {buf : ℕ → Cell} {value : ℤ} (inside : i < len) :
    decoded len buf i value = .ok (Function.update buf i (.output (toChar value))) := if_pos inside

/-- The loop at pair `first`: what is not decoded yet is still as it was received. It succeeds if there are
digits only, and then each byte is the value of its pair. -/
theorem unbase16Loop_spec {len : ℕ} {string : ℕ → UInt8} (turns first : ℕ) (buf : ℕ → Cell)
    (len_eq : len = 2 * (first + turns)) (unread : ∀ i, first ≤ i → buf i = .input (string i)) :
    ∃ ret after, unbase16Loop len turns (2 * first) buf = .ok (ret, after) ∧ (ret = 0 ∨ ret = -1) ∧
      (ret = 0 ↔ Digits string first turns) ∧ (∀ i < first, after i = buf i) ∧
        (ret = 0 → ∀ i, first ≤ i → i < first + turns → after i = .output (pairValue string i)) := by
  induction turns generalizing first buf with
  | zero => exact ⟨0, buf, rfl, .inl rfl, iff_of_true rfl fun i _ _ => by omega, fun _ _ => rfl, fun _ i _ _ => by omega⟩
  | succ turns ih =>
    have stops (i : ℕ) (low : 2 * first ≤ i) (high : i < 2 * first + 2) (none : base16Digit (string i) = none) :
        ¬ Digits string first (turns + 1) := fun digits => by simpa [none] using digits i low (by omega)
    have half : 2 * first / 2 = first := by omega
    rw [unbase16Loop, received_input (by omega) (unread _ (by omega))]
    simp only [Except.ok_bind, digit_char]
    cases high : base16Digit (string (2 * first)) with
    | none => exact ⟨-1, buf, rfl, .inr rfl, iff_of_false (by decide) (stops _ le_rfl (by omega) high), fun _ _ => rfl, nofun⟩
    | some h =>
      have unread' : Function.update buf first (.output (toChar (16 * h.toNat))) (2 * first + 1) =
          .input (string (2 * first + 1)) := by
        rw [Function.update_of_ne (by omega), unread _ (by omega)]
      simp only [Option.map_some, half, decoded_inside (show first < len by omega), Except.ok_bind,
        received_input (show 2 * first + 1 < len by omega) unread', digit_char]
      cases low : base16Digit (string (2 * first + 1)) with
      | none =>
        refine ⟨-1, _, rfl, .inr rfl, iff_of_false (by decide) (stops _ (by omega) (by omega) low), ?_, nofun⟩
        exact fun i before => Function.update_of_ne (by omega) ..
      | some l =>
        have after : Function.update (Function.update buf first (.output (toChar (16 * h.toNat)))) first
            (.output (toChar (char (toChar (16 * h.toNat)) + l.toNat))) =
            Function.update buf first (.output (pairValue string first)) := by
          have value : toChar (char (toChar (16 * h.toNat)) + l.toNat) = pairValue string first := by
            rw [toChar_add, pairValue, high, low]
            have small := base16Digit_lt high
            have small' := base16Digit_lt low
            apply UInt8.toNat_inj.mp
            simp only [toChar, UInt8.toNat_ofNat', Option.getD_some, UInt8.toNat_add, UInt8.toNat_mul, UInt8.reduceToNat]
            omega
          rw [Function.update_idem, value]
        obtain ⟨ret, last, ran, range, success, kept, values⟩ := ih (first + 1)
          (Function.update buf first (.output (pairValue string first))) (by omega)
          fun i beyond => by rw [Function.update_of_ne (by omega), unread i (by omega)]
        refine ⟨ret, last, ?_, range, ?_, fun i before => ?_, fun zero i lower upper => ?_⟩
        · simp only [Option.map_some, Function.update_self, Cell.byte, after]
          exact ran
        · refine success.trans ⟨fun digits i lower upper => ?_, fun digits i _ _ => digits i (by omega) (by omega)⟩
          by_cases pair : i < 2 * first + 2
          · obtain rfl | rfl : i = 2 * first ∨ i = 2 * first + 1 := by omega
            · rw [high, Option.isSome_some]
            · rw [low, Option.isSome_some]
          · exact digits i (by omega) (by omega)
        · rw [kept i (by omega), Function.update_of_ne (by omega)]
        · rcases Nat.lt_or_eq_of_le lower with lower | rfl
          · exact values zero i lower (by omega)
          · rw [kept first (by omega), Function.update_self]

/-- What `unbase16` has to do with a string of even length. -/
def Decodes (string : List UInt8) : Prop :=
  ∃ ret after, unbase16 (fun i => string.getD i 0) string.length = .ok (ret, after) ∧ (ret = 0 ∨ ret = -1) ∧
    (ret = 0 ↔ ∀ c ∈ string, (base16Digit c).isSome) ∧
      (ret = 0 → ∀ i (inside : 2 * i + 1 < string.length), ∃ high low, base16Digit string[2 * i] = some high ∧
        base16Digit string[2 * i + 1] = some low ∧ after i = .output (16 * high + low))

theorem digits_iff {string : List UInt8} (even : string.length % 2 = 0) :
    Digits (fun i => string.getD i 0) 0 (string.length / 2) ↔ ∀ c ∈ string, (base16Digit c).isSome := by
  constructor
  · intro digits c member
    obtain ⟨i, inside, rfl⟩ := List.getElem_of_mem member
    simpa [inside] using digits i (by omega) (by omega)
  · intro all i _ inside
    have inside : i < string.length := by omega
    simpa [inside] using all _ (List.getElem_mem inside)

theorem unbase16_decodes (string : List UInt8) (even : string.length % 2 = 0) : Decodes string := by
  have pairs : string.length = 2 * (0 + string.length / 2) := by omega
  obtain ⟨ret, after, ran, range, success, -, values⟩ := unbase16Loop_spec (string.length / 2) 0
    (fun i => .input (string.getD i 0)) pairs fun _ _ => rfl
  have digits := digits_iff even
  refine ⟨ret, after, ran, range, success.trans digits, fun zero i inside => ?_⟩
  have all := digits.mp (success.mp zero)
  obtain ⟨high, isHigh⟩ := Option.isSome_iff_exists.mp (all _ (List.getElem_mem (show 2 * i < string.length by omega)))
  obtain ⟨low, isLow⟩ := Option.isSome_iff_exists.mp (all _ (List.getElem_mem inside))
  refine ⟨high, low, isHigh, isLow, ?_⟩
  rw [values zero i (by omega) (by omega), pairValue, List.getD_eq_getElem _ _ inside,
    List.getD_eq_getElem _ _ (show 2 * i < string.length by omega), isHigh, isLow]
  rfl

/-- The decoder that the daemon is modelled with, pair by pair. -/
theorem unbase16_eq {string : List UInt8} (even : string.length % 2 = 0) : Scubed3.unbase16 string =
    if ∀ c ∈ string, (base16Digit c).isSome then
      some ((List.range (string.length / 2)).map (pairValue fun i => string.getD i 0))
    else none := by
  induction string using Scubed3.unbase16.induct with
  | case1 high low rest ih =>
    have even : rest.length % 2 = 0 := by
      simp only [List.length_cons] at even
      omega
    have half : (high :: low :: rest).length / 2 = rest.length / 2 + 1 := by
      simp only [List.length_cons]
      omega
    have next (i : ℕ) : pairValue (fun i => (high :: low :: rest).getD i 0) (i + 1) =
        pairValue (fun i => rest.getD i 0) i := rfl
    simp only [Scubed3.unbase16, ih even, half, List.range_succ_eq_map, List.map_cons, List.map_map, List.forall_mem_cons,
      Function.comp_def, next]
    cases isHigh : base16Digit high with
    | none => rfl
    | some h =>
      cases isLow : base16Digit low with
      | none => simp
      | some l =>
        have value : pairValue (fun i => (high :: low :: rest).getD i 0) 0 = 16 * h + l := by
          simp only [pairValue, Nat.mul_zero, List.getD_cons_zero, List.getD_cons_succ, Nat.zero_add, isHigh, isLow,
            Option.getD_some]
        rw [value]
        simp only [Option.isSome_some, true_and]
        split <;> rfl
  | case2 string short =>
    cases string with
    | nil => exact (if_pos (List.forall_mem_nil _)).symm
    | cons c string =>
      cases string with
      | nil => cases even
      | cons d string => exact (short _ _ _ rfl).elim

/-- The server's loop and the decoder that the daemon is modelled with agree. -/
theorem unbase16_refines {string : List UInt8} (even : string.length % 2 = 0) :
    ∃ ret after, unbase16 (fun i => string.getD i 0) string.length = .ok (ret, after) ∧
      Scubed3.unbase16 string = if ret = 0 then
        some ((List.range (string.length / 2)).map fun i => (after i).byte) else none := by
  have pairs : string.length = 2 * (0 + string.length / 2) := by omega
  obtain ⟨ret, after, ran, -, success, -, values⟩ := unbase16Loop_spec (string.length / 2) 0
    (fun i => .input (string.getD i 0)) pairs fun _ _ => rfl
  refine ⟨ret, after, ran, ?_⟩
  rw [unbase16_eq even]
  simp only [success.trans (digits_iff even)]
  split
  · next digits =>
    have zero : ret = 0 := (success.trans (digits_iff even)).mpr digits
    congr 1
    refine List.map_congr_left fun i member => ?_
    have := List.mem_range.mp member
    rw [values zero i (by omega) (by omega), Cell.byte]
  · rfl

/-! ### Encoding -/

/-- The loop writes two digits for each byte, and a terminator. -/
theorem hashTextLoop_fits {size : ℕ} (ptr : ℕ) (hash : List UInt8) (text : ℕ → UInt8)
    (room : ptr + 2 * hash.length < size) : ∃ after, hashTextLoop size hash ptr text = .ok after ∧
      (∀ i < ptr, after i = text i) ∧ readList after ptr (2 * hash.length) = hash.flatMap printHex := by
  induction hash generalizing ptr text with
  | nil => exact ⟨text, rfl, fun _ _ => rfl, rfl⟩
  | cons c hash ih =>
    rw [List.length_cons] at room
    obtain ⟨after, ran, kept, digits⟩ := ih (ptr + (printHex c).length) (writeList text ptr (printHex c ++ [0]))
      (by simp only [printHex, List.length_cons, List.length_nil]; omega)
    refine ⟨after, by rw [hashTextLoop, if_pos (by omega), ran], fun i before => ?_, ?_⟩
    · rw [kept i (by omega), writeList_outside _ _ (.inl before)]
    · have pair : readList after ptr 2 = printHex c := by
        have cell (i : ℕ) (inside : i < 2) : after (ptr + i) = getElem (printHex c ++ [0]) i (by simp [printHex]; omega) := by
          rw [kept _ (by simp only [printHex, List.length_cons, List.length_nil]; omega), writeList_inside]
        simp only [Memory.readList_succ, cell 1 (by decide), show after ptr = _ from cell 0 (by decide)]
        rfl
      rw [List.length_cons, show 2 * (hash.length + 1) = 2 + 2 * hash.length by omega, Memory.readList_add, pair,
        List.flatMap_cons]
      exact congrArg (printHex c ++ ·) digits

/-- Without room for the last terminator the loop writes behind the array. -/
theorem hashTextLoop_overflows {size : ℕ} (ptr : ℕ) (hash : List UInt8) (text : ℕ → UInt8) (some : hash ≠ [])
    (tight : size ≤ ptr + 2 * hash.length) : hashTextLoop size hash ptr text = .error .hashText := by
  induction hash generalizing ptr text with
  | nil => exact absurd rfl some
  | cons c hash ih =>
    rw [hashTextLoop]
    split
    · next room =>
      rw [List.length_cons] at tight
      refine ih _ _ ?_ ?_
      · rintro rfl
        simp only [List.length_nil] at tight
        omega
      · simp only [printHex, List.length_cons, List.length_nil]
        omega
    · rfl

theorem getElem?_flatMap_printHex (hash : List UInt8) (i : ℕ) :
    (hash.flatMap printHex)[2 * i]? = hash[i]?.map (fun c => printHexDigit (c / 16)) ∧
      (hash.flatMap printHex)[2 * i + 1]? = hash[i]?.map fun c => printHexDigit (c % 16) := by
  induction hash generalizing i with
  | nil => exact ⟨rfl, rfl⟩
  | cons c hash ih =>
    cases i with
    | zero => exact ⟨rfl, rfl⟩
    | succ i => exact ih i

theorem length_flatMap_printHex (hash : List UInt8) : (hash.flatMap printHex).length = 2 * hash.length := by
  induction hash with
  | nil => rfl
  | cons c hash ih => rw [List.flatMap_cons, List.length_append, ih, List.length_cons, Nat.mul_succ, Nat.add_comm]; rfl

/-- The text is decoded to the bytes it was made from. -/
theorem unbase16_flatMap_printHex (hash : List UInt8) : ∃ after,
    unbase16 (fun i => (hash.flatMap printHex).getD i 0) (hash.flatMap printHex).length = .ok (0, after) ∧
      ∀ i (inside : i < hash.length), after i = .output hash[i] := by
  have length := length_flatMap_printHex hash
  obtain ⟨ret, after, ran, -, success, values⟩ := unbase16_decodes (hash.flatMap printHex) (by omega)
  have zero : ret = 0 := by
    refine success.mpr fun c member => ?_
    obtain ⟨d, -, member⟩ := List.mem_flatMap.mp member
    exact isSome_of_mem_printHex member
  refine ⟨after, by rw [ran, zero], fun i inside => ?_⟩
  obtain ⟨high, low, isHigh, isLow, value⟩ := values zero i (by omega)
  have digits := getElem?_flatMap_printHex hash i
  rw [List.getElem?_eq_getElem (show 2 * i < _ by omega), List.getElem?_eq_getElem (show 2 * i + 1 < _ by omega),
    List.getElem?_eq_getElem inside, Option.map_some, Option.map_some, Option.some_inj, Option.some_inj] at digits
  have halves := map_printHex hash[i]
  rw [printHex, List.map_cons, List.map_cons, ← digits.1, ← digits.2, isHigh, isLow] at halves
  injection halves with first rest
  injection rest with second
  rw [value, Option.some_inj.mp first, Option.some_inj.mp second]
  congr 1
  apply UInt8.toNat_inj.mp
  have := hash[i].toNat_lt
  simp only [UInt8.toNat_add, UInt8.toNat_mul, UInt8.toNat_div, UInt8.toNat_mod, UInt8.reduceToNat]
  omega

/-- The client's loop stays inside an array of `size` bytes, and the server decodes what the client sends to the
bytes of the key. -/
def Arrives (size : ℕ) (hash : List UInt8) (text : ℕ → UInt8) : Prop :=
  ∃ written, hashTextLoop size hash 0 text = .ok written ∧ ∃ after,
    unbase16 (fun i => (transmitted written).getD i 0) (transmitted written).length = .ok (0, after) ∧
      ∀ i (inside : i < hash.length), after i = .output hash[i]

theorem arrives_of_room {size : ℕ} {hash : List UInt8} {text : ℕ → UInt8} (key : hash.length = 32)
    (room : hashTextSize < size) : Arrives size hash text := by
  obtain ⟨written, ran, -, digits⟩ := hashTextLoop_fits 0 hash text
    (show 0 + 2 * hash.length < size by rw [key]; exact room)
  have sent : transmitted written = hash.flatMap printHex := by
    rw [transmitted, show hashTextSize = 2 * hash.length by rw [key]; rfl, digits]
    refine List.takeWhile_eq_self_iff.mpr fun c member => ?_
    obtain ⟨d, -, member⟩ := List.mem_flatMap.mp member
    refine decide_eq_true ?_
    rintro rfl
    cases isSome_of_mem_printHex member
  exact ⟨written, ran, sent ▸ unbase16_flatMap_printHex hash⟩

/-- No key arrives without a byte written behind `hash_text`; one more byte would be enough for all of them.
The decoder is right for every string. -/
theorem key_overflows {hash : List UInt8} (key : hash.length = 32) (text : ℕ → UInt8) :
    ¬ Arrives hashTextSize hash text ∧ Arrives (hashTextSize + 1) hash text ∧
      ∀ string : List UInt8, string.length % 2 = 0 → Decodes string := by
  refine ⟨?_, arrives_of_room key (Nat.lt_succ_self _), unbase16_decodes⟩
  rintro ⟨written, ran, -⟩
  rw [hashTextLoop_overflows 0 hash text (by rintro rfl; cases key) (by rw [key, hashTextSize])] at ran
  cases ran

theorem key_overflows_zeroes : ¬ Arrives hashTextSize (List.replicate 32 0) fun _ => 255 :=
  (@key_overflows (List.replicate 32 0) rfl fun _ => 255).1

/-- The terminator after the last pair is stored behind the array. -/
theorem hashText_overflows :
    hashTextLoop hashTextSize (List.replicate 32 0) 0 (fun _ => 255) = .error .hashText ∧
      ¬ Arrives hashTextSize (List.replicate 32 0) fun _ => 255 := by
  have overflows : hashTextLoop hashTextSize (List.replicate 32 0) 0 (fun _ => 255) = .error .hashText :=
    hashTextLoop_overflows 0 (List.replicate 32 0) (fun _ => 255) (by decide) (by decide)
  refine ⟨overflows, ?_⟩
  rintro ⟨written, ran, -⟩
  rw [overflows] at ran
  cases ran

end CommandLine

end Scubed3
