import Scubed3.Bitmaps.Ranges
import Mathlib

/-! # The count of a bitmap

`bitmap_count` returns a number that every call keeps up to date. Every call but one knows whether the bits it changes were
set before; `bitmap_setbit_safe` always counts one more.
-/

namespace Scubed3.Bitmap.Checked

open Memory

variable {b b' : Bitmap} {index : ℕ}

/-! ## What the calls promise -/

/-- The bits that are set. -/
def setBits (b : Bitmap) : Finset ℕ := (Finset.range b.noBits).filter (b.used · = true)

/-- Bit `i` of an image that `bitmap_read` reads. -/
def imageBit (image : Bytes) (i : ℕ) : Bool := (BitVec.ofNat 32 (Binio.readUint32Be image (4 * (i / 32)))).getLsbD (i % 32)

namespace Call

/-- The assertions of a call. The bits of an image beyond the last one are zero. -/
def Asserted (b : Bitmap) : Call → Prop
  | setbits set => set ≤ b.noBits
  | setbit index => index < b.noBits ∧ b.used index = false
  | setbitSafe index => index < b.noBits
  | clearbit index => index < b.noBits ∧ b.used index = true ∧ b.noSet ≠ 0
  | clearbitSafe index => index < b.noBits
  | read image => ∀ i, b.noBits ≤ i → i < 32 * words b.noBits → imageBit image i = false

/-- `bitmap_setbit_safe` is only called on a bit that is not set. -/
def Clean (b : Bitmap) : Call → Prop
  | setbitSafe index => b.used index = false
  | _ => True

/-- Bit `i` after a call: only the addressed bits change. -/
def bit (b : Bitmap) (i : ℕ) : Call → Bool
  | setbits set => decide (i < set)
  | setbit index => b.used i || i == index
  | setbitSafe index => b.used i || i == index
  | clearbit index => b.used i && i != index
  | clearbitSafe index => b.used i && i != index
  | read image => imageBit image i

/-- The call returns, the bits are as they should be, and they are counted. -/
def Right (b : Bitmap) (c : Call) : Prop :=
  ∃ b', c.run b = .ok b' ∧ b'.noBits = b.noBits ∧ (∀ i < b.noBits, b'.used i = c.bit b i) ∧ count b' = (setBits b').card

end Call

/-- What was written is read back. -/
def Restores (b : Bitmap) : Prop :=
  ∀ (m : Bytes) (off : ℕ) (b₀ : Bitmap), b₀.noBits = b.noBits →
    count (b₀.read (writeFields m (write off b)) off) = count b ∧
      ∀ i < words b.noBits, (b₀.read (writeFields m (write off b)) off).bits i = b.bits i

/-- What calls make of a bitmap of `noBits` bits whose bits are never set twice. -/
inductive Reached (noBits : ℕ) : Bitmap → Prop
  | init : Reached noBits (init noBits)
  | call {b b' : Bitmap} {c : Call} (before : Reached noBits b) (asserted : c.Asserted b) (clean : c.Clean b)
      (ran : c.run b = .ok b') : Reached noBits b'

/-- The count is right, and nothing is set beyond the last bit. -/
structure Counted (b : Bitmap) : Prop where
  padding : ∀ i, b.noBits ≤ i → i < 32 * words b.noBits → b.used i = false
  count : b.noSet = (setBits b).card

theorem mem_setBits {i : ℕ} : i ∈ setBits b ↔ i < b.noBits ∧ b.used i = true := by
  rw [setBits, Finset.mem_filter, Finset.mem_range]

/-! ## Single bits -/

theorem used_increment (b : Bitmap) (i : ℕ) : (increment b).used i = b.used i := by rw [increment, used, used]

theorem used_decrement (b : Bitmap) (i : ℕ) : (decrement b).used i = b.used i := by rw [decrement, used, used]

theorem noBits_decrement (b : Bitmap) : (decrement b).noBits = b.noBits := by rw [decrement]

theorem setBits_card_le (b : Bitmap) : (setBits b).card ≤ b.noBits := by
  have subset := Finset.card_filter_le (Finset.range b.noBits) (b.used · = true)
  rwa [Finset.card_range] at subset

section Bit

variable (fits : b.noBits + 31 < 2 ^ 32) (bound : index < b.noBits)

include fits bound

theorem setWord_eq (w : BitVec 32) : setWord b (index / 32) w = .ok { b with bits := Function.update b.bits (index / 32) w } := by
  refine if_pos ?_
  rw [words_eq fits]
  omega

omit fits bound in
/-- The bit of a word that was replaced. -/
theorem used_update (b : Bitmap) (word i : ℕ) (w : BitVec 32) :
    ({ b with bits := Function.update b.bits word w } : Bitmap).used i =
      if i / 32 = word then w.getLsbD (i % 32) else b.used i := by
  change (Function.update b.bits word w (i / 32)).getLsbD (i % 32) = _
  by_cases here : i / 32 = word
  · rw [here, Function.update_self, if_pos rfl]
  · rw [Function.update_of_ne here, if_neg here]
    rfl

/-- Setting a bit changes no other. -/
theorem orBit_returns : ∃ b', orBit b index = .ok b' ∧ b'.noBits = b.noBits ∧ b'.noSet = b.noSet ∧
    ∀ i, b'.used i = (b.used i || i == index) := by
  refine ⟨{ b with bits := Function.update b.bits (index / 32) (b.bits (index / 32) ||| 1#32 <<< (index % 32)) }, ?_, rfl, rfl,
    fun i => ?_⟩
  · unfold orBit
    rw [word_eq fits bound]
    exact setWord_eq fits bound _
  · rw [used_update]
    split
    · next here =>
      have same : index % 32 = i % 32 ↔ i = index := by omega
      rw [BitVec.getLsbD_or, ← BitVec.twoPow_eq, BitVec.getLsbD_twoPow, used, here]
      simp [Nat.mod_lt, same, beq_eq_decide]
    · next elsewhere =>
      rw [beq_false_of_ne fun same => elsewhere (by rw [same]), Bool.or_false]

/-- Clearing a bit changes no other. -/
theorem clearBit_returns : ∃ b', clearBit b index = .ok b' ∧ b'.noBits = b.noBits ∧ b'.noSet = b.noSet ∧
    ∀ i, b'.used i = (b.used i && i != index) := by
  refine ⟨{ b with bits := Function.update b.bits (index / 32) (b.bits (index / 32) &&& ~~~(1#32 <<< (index % 32))) }, ?_, rfl,
    rfl, fun i => ?_⟩
  · unfold clearBit
    rw [word_eq fits bound]
    exact setWord_eq fits bound _
  · rw [used_update]
    split
    · next here =>
      have same : index % 32 = i % 32 ↔ i = index := by omega
      have small : i % 32 < 32 := Nat.mod_lt _ (by decide)
      rw [BitVec.getLsbD_and, BitVec.getLsbD_not, ← BitVec.twoPow_eq, BitVec.getLsbD_twoPow, used, here]
      simp [small, Nat.mod_lt, same, bne, beq_eq_decide]
    · next elsewhere =>
      rw [bne_iff_ne.mpr fun same => elsewhere (by rw [same]), Bool.and_true]

omit fits in
/-- A bit that was not set is one more. -/
theorem setBits_insert (size : b'.noBits = b.noBits) (bits : ∀ i, b'.used i = (b.used i || i == index)) :
    setBits b' = insert index (setBits b) := by
  ext i
  rw [Finset.mem_insert, mem_setBits, mem_setBits, size, bits, Bool.or_eq_true, beq_iff_eq]
  constructor
  · rintro ⟨inside, set | same⟩
    · exact .inr ⟨inside, set⟩
    · exact .inl same
  · rintro (rfl | ⟨inside, set⟩)
    · exact ⟨bound, .inr rfl⟩
    · exact ⟨inside, .inl set⟩

omit fits bound in
/-- A bit that was set is one less. -/
theorem setBits_erase (size : b'.noBits = b.noBits) (bits : ∀ i, b'.used i = (b.used i && i != index)) :
    setBits b' = (setBits b).erase index := by
  ext i
  rw [Finset.mem_erase, mem_setBits, mem_setBits, size, bits, Bool.and_eq_true, bne_iff_ne]
  constructor
  · exact fun ⟨inside, set, other⟩ => ⟨other, inside, set⟩
  · exact fun ⟨other, inside, set⟩ => ⟨inside, set, other⟩

end Bit

/-! ## All bits -/

/-- The whole words that are set. -/
theorem setWords_returns (turns first : ℕ) (b : Bitmap) (inside : first + turns ≤ words b.noBits) :
    ∃ b', setWords turns first b = .ok b' ∧ b'.noBits = b.noBits ∧ b'.noSet = b.noSet ∧
      ∀ i, b'.used i = (decide (first ≤ i / 32 ∧ i / 32 < first + turns) || b.used i) := by
  induction turns generalizing first b with
  | zero => exact ⟨b, rfl, rfl, rfl, fun i => by rw [decide_eq_false (by omega), Bool.false_or]⟩
  | succ turns ih =>
    have stored : setWord b first 0xFFFFFFFF#32 = .ok { b with bits := Function.update b.bits first 0xFFFFFFFF#32 } :=
      if_pos (by omega)
    obtain ⟨b', ran, size, same, bits⟩ := ih (first + 1)
      { b with bits := Function.update b.bits first 0xFFFFFFFF#32 } (by dsimp only; omega)
    refine ⟨b', Except.bind_eq_ok_iff.mpr ⟨_, stored, ran⟩, size, same, fun i => ?_⟩
    rw [bits, used_update]
    by_cases here : i / 32 = first
    · have ones : (0xFFFFFFFF#32).getLsbD (i % 32) = true := by
        rw [show 0xFFFFFFFF#32 = BitVec.allOnes 32 from rfl, BitVec.getLsbD_allOnes]
        exact decide_eq_true (Nat.mod_lt _ (by decide))
      rw [if_pos here, ones, Bool.or_true, decide_eq_true (by omega), Bool.true_or]
    · rw [if_neg here]
      congr 1
      exact decide_eq_decide.mpr (by omega)

/-- Whatever was set before, the first `set` bits are set afterwards. -/
theorem setbits_returns {set : ℕ} (fits : b.noBits + 31 < 2 ^ 32) (counted : Counted b) (asserted : set ≤ b.noBits) :
    ∃ b', setbits b set = .ok b' ∧ b'.noBits = b.noBits ∧ b'.noSet = set ∧
      ∀ i < 32 * words b.noBits, b'.used i = decide (i < set) := by
  have size := words_eq fits
  set bits := if b.noSet ≠ 0 then fun i => if i < words b.noBits then 0 else b.bits i else b.bits with bitsEq
  -- nothing is set when the loop starts: the bits were cleared, or there were none
  have cleared (i : ℕ) (bound : i < 32 * words b.noBits) : ({ b with bits, noSet := set } : Bitmap).used i = false := by
    change (bits (i / 32)).getLsbD (i % 32) = false
    rw [bitsEq]
    by_cases none : b.noSet ≠ 0
    · rw [if_pos none, if_pos (by omega)]
      exact BitVec.getLsbD_zero
    · rw [if_neg none]
      by_cases inside : i < b.noBits
      · have empty : setBits b = ∅ := Finset.card_eq_zero.mp (counted.count.symm.trans (not_not.mp none))
        have absent : i ∉ setBits b := empty ▸ Finset.notMem_empty i
        exact Bool.eq_false_iff.mpr fun used => absent (mem_setBits.mpr ⟨inside, used⟩)
      · exact counted.padding i (not_lt.mp inside) bound
  obtain ⟨b₁, ran, size₁, same₁, bits₁⟩ := setWords_returns (set / 32) 0 { b with bits, noSet := set }
    (by dsimp only; omega)
  have whole (i : ℕ) (bound : i < 32 * words b.noBits) : b₁.used i = decide (i / 32 < set / 32) := by
    rw [bits₁, cleared i bound, Bool.or_false]
    exact decide_eq_decide.mpr (by omega)
  have started (b' : Bitmap) (last : (if set % 32 ≠ 0 then setWord b₁ (set / 32) (0xFFFFFFFF#32 >>> (32 - set % 32)) else pure b₁) = .ok b') :
      setbits b set = .ok b' := by
    unfold setbits
    rw [check_of _ _ asserted]
    exact Except.bind_eq_ok_iff.mpr ⟨(), rfl, Except.bind_eq_ok_iff.mpr ⟨b₁, ran, last⟩⟩
  by_cases aligned : set % 32 = 0
  · refine ⟨b₁, started _ (if_neg (not_not.mpr aligned)), size₁, same₁, fun i bound => ?_⟩
    rw [whole i bound]
    exact decide_eq_decide.mpr (by omega)
  · have stored (w : BitVec 32) : setWord b₁ (set / 32) w = .ok { b₁ with bits := Function.update b₁.bits (set / 32) w } := by
      refine if_pos ?_
      rw [size₁]
      dsimp only
      omega
    refine ⟨_, started _ ((if_pos aligned).trans (stored _)), size₁, same₁, fun i bound => ?_⟩
    rw [used_update]
    split
    · next here =>
      rw [mask_getLsbD (Nat.mod_lt _ (by decide)).le]
      exact decide_eq_decide.mpr (by omega)
    · next elsewhere =>
      rw [whole i bound]
      exact decide_eq_decide.mpr (by omega)

/-! ## Images -/

theorem used_read (b : Bitmap) (image : Bytes) {i : ℕ} (bound : i < 32 * words b.noBits) :
    (b.read image 0).used i = imageBit image i := by
  have inside : i / 32 < words b.noBits := by omega
  rw [used, read]
  dsimp only
  rw [if_pos inside, Nat.zero_add]
  rfl

/-- The bits of the first words are counted word by word. -/
theorem sum_popcount (bits : ℕ → BitVec 32) (n : ℕ) : ((List.range n).map fun i => popcount (bits i)).sum =
    ((Finset.range (32 * n)).filter fun i => (bits (i / 32)).getLsbD (i % 32) = true).card := by
  have listed (p : ℕ → Bool) (k : ℕ) : (List.range k).countP p = ((Finset.range k).filter (p · = true)).card := by
    rw [List.countP_eq_length_filter, ← List.toFinset_card_of_nodup (List.nodup_range.filter _)]
    congr 1
    ext i
    simp
  rw [← listed]
  induction n with
  | zero => rfl
  | succ n ih =>
    rw [List.range_succ, List.map_append, List.sum_append, ih, Nat.mul_succ, List.range_add, List.countP_append, List.countP_map]
    congr 1
    rw [List.map_singleton, List.sum_singleton, popcount]
    refine List.countP_congr fun i member => ?_
    have small := List.mem_range.mp member
    rw [Function.comp_apply, show (32 * n + i) / 32 = n by omega, show (32 * n + i) % 32 = i by omega]

/-- What is read is counted right when nothing is set beyond the last bit. -/
theorem counted_read {image : Bytes} (fits : b.noBits + 31 < 2 ^ 32)
    (padding : ∀ i, b.noBits ≤ i → i < 32 * words b.noBits → imageBit image i = false) : Counted (b.read image 0) := by
  have size := words_eq fits
  refine ⟨fun i above below => (used_read b image below).trans (padding i above below), ?_⟩
  refine (sum_popcount _ _).trans (congrArg Finset.card ?_)
  ext i
  rw [Finset.mem_filter, Finset.mem_range, mem_setBits]
  change i < 32 * words b.noBits ∧ (b.read image 0).used i = true ↔ i < b.noBits ∧ _
  constructor
  · rintro ⟨below, used⟩
    refine ⟨?_, used⟩
    by_contra above
    rw [used_read b image below, padding i (not_lt.mp above) below] at used
    cases used
  · exact fun ⟨inside, used⟩ => ⟨by omega, used⟩

theorem Counted.restores (counted : Counted b) (fits : b.noBits + 31 < 2 ^ 32) : Restores b := by
  intro m off b₀ size
  have apart := (Binio.words_tiles off (words b.noBits) fun i => (b.bits i).toNat).apart
  have word (i : ℕ) (bound : i < words b.noBits) : (b₀.read (writeFields m (write off b)) off).bits i = b.bits i := by
    have stored := readList_writeFields (m := m) apart (Binio.mem_words off (fun i => (b.bits i).toNat) bound)
    have number := Binio.readUint32Be_of_readList stored
    rw [read]
    dsimp only
    rw [size, if_pos bound]
    refine (congrArg (BitVec.ofNat 32) number).trans ?_
    rw [Nat.mod_eq_of_lt (BitVec.isLt _), BitVec.ofNat_toNat, BitVec.setWidth_eq]
  refine ⟨?_, word⟩
  have same (i : ℕ) (below : i < 32 * words b.noBits) : (b₀.read (writeFields m (write off b)) off).used i = b.used i := by
    rw [used, used, word (i / 32) (by omega)]
  refine (sum_popcount _ _).trans (Eq.trans (congrArg Finset.card ?_) counted.count.symm)
  ext i
  rw [Finset.mem_filter, Finset.mem_range, mem_setBits]
  change i < 32 * words b₀.noBits ∧ (b₀.read (writeFields m (write off b)) off).used i = true ↔ _
  rw [size]
  constructor
  · rintro ⟨below, used⟩
    rw [same i below] at used
    refine ⟨?_, used⟩
    by_contra above
    exact Bool.false_ne_true ((counted.padding i (not_lt.mp above) below).symm.trans used)
  · rintro ⟨inside, used⟩
    have below : i < 32 * words b.noBits := by
      rw [words_eq fits]
      omega
    exact ⟨below, (same i below).trans used⟩

/-! ## Every call -/

section Counts

variable (fits : b.noBits + 31 < 2 ^ 32) (counted : Counted b)

include fits counted

/-- Setting a bit that was not set is counted right. -/
theorem set_counts (bound : index < b.noBits) : ∃ b', orBit b index = .ok b' ∧ (increment b').noBits = b.noBits ∧
    (∀ i, (increment b').used i = (b.used i || i == index)) ∧
    ((increment b').noSet = (setBits (increment b')).card ↔ b.used index = false) := by
  obtain ⟨b', ran, size, same, bits⟩ := orBit_returns fits bound
  have used (i : ℕ) : (increment b').used i = (b.used i || i == index) := (used_increment b' i).trans (bits i)
  have inserted : setBits (increment b') = insert index (setBits b) := setBits_insert bound size used
  have few := setBits_card_le b
  refine ⟨b', ran, size, used, ?_⟩
  have added : (increment b').noSet = (setBits b).card + 1 := by
    change (b'.noSet + 1) % 2 ^ 32 = _
    rw [same, counted.count, Nat.mod_eq_of_lt (by omega)]
  rw [added, inserted]
  cases isSet : b.used index with
  | true =>
    rw [Finset.insert_eq_of_mem (mem_setBits.mpr ⟨bound, isSet⟩)]
    exact iff_of_false (Nat.succ_ne_self _) nofun
  | false =>
    have absent : index ∉ setBits b := fun member => nomatch isSet.symm.trans (mem_setBits.mp member).2
    exact iff_of_true (Finset.card_insert_of_notMem absent).symm rfl

/-- Clearing a bit that was set leaves one less. -/
theorem clear_counts (bound : index < b.noBits) (isSet : b.used index = true) (size : b'.noBits = b.noBits)
    (bits : ∀ i, b'.used i = (b.used i && i != index)) : (decrement b).noSet = (setBits b').card := by
  have member : index ∈ setBits b := mem_setBits.mpr ⟨bound, isSet⟩
  have positive := Finset.card_pos.mpr ⟨index, member⟩
  have few := setBits_card_le b
  rw [setBits_erase size bits, Finset.card_erase_of_mem member, decrement]
  dsimp only
  rw [counted.count]
  omega

/-- Every call returns and changes only the addressed bits; `bitmap_setbit_safe` counts wrong on a bit that is set. -/
theorem Call.returns {c : Call} (asserted : c.Asserted b) : ∃ b', c.run b = .ok b' ∧ b'.noBits = b.noBits ∧
    (∀ i < 32 * words b.noBits, b'.used i = c.bit b i) ∧ (b'.noSet = (setBits b').card ↔ c.Clean b) := by
  cases c with
  | setbits set =>
    have few : set ≤ b.noBits := asserted
    obtain ⟨b', ran, size, noSet, bits⟩ := setbits_returns fits counted few
    have first : setBits b' = Finset.range set := by
      have inside {i : ℕ} (bound : i < b.noBits) : i < 32 * words b.noBits := by
        rw [words_eq fits]
        omega
      ext i
      rw [mem_setBits, Finset.mem_range, size]
      refine ⟨fun ⟨bound, used⟩ => of_decide_eq_true ((bits i (inside bound)).symm.trans used), fun below => ?_⟩
      have bound := below.trans_le few
      exact ⟨bound, (bits i (inside bound)).trans (decide_eq_true below)⟩
    refine ⟨b', ran, size, bits, iff_of_true (noSet.trans ?_) trivial⟩
    rw [first, Finset.card_range]
  | setbit index =>
    obtain ⟨bound, unset⟩ := asserted
    obtain ⟨b', ran, size, bits, counts⟩ := set_counts fits counted bound
    refine ⟨increment b', ?_, size, fun i _ => bits i, iff_of_true (counts.mpr unset) trivial⟩
    change Checked.setbit b index = _
    unfold Checked.setbit
    rw [check_of _ _ bound, getbit_eq fits bound, ran]
    exact Except.bind_eq_ok_iff.mpr ⟨(), rfl, Except.bind_eq_ok_iff.mpr ⟨_, rfl, Except.bind_eq_ok_iff.mpr
      ⟨(), check_of _ _ unset, rfl⟩⟩⟩
  | setbitSafe index =>
    have bound : index < b.noBits := asserted
    obtain ⟨b', ran, size, bits, counts⟩ := set_counts fits counted bound
    refine ⟨increment b', ?_, size, fun i _ => bits i, counts⟩
    change Checked.setbitSafe b index = _
    unfold Checked.setbitSafe
    rw [check_of _ _ bound, ran]
    rfl
  | clearbit index =>
    obtain ⟨bound, isSet, some⟩ := asserted
    obtain ⟨b', ran, size, same, bits⟩ := clearBit_returns fits bound
    have used (i : ℕ) : (decrement b').used i = (b.used i && i != index) := (used_decrement b' i).trans (bits i)
    have size' : (decrement b').noBits = b.noBits := (noBits_decrement b').trans size
    have counts := clear_counts fits counted bound isSet size' used
    refine ⟨decrement b', ?_, size', fun i _ => used i, iff_of_true (Eq.trans ?_ counts) trivial⟩
    · change Checked.clearbit b index = _
      unfold Checked.clearbit
      rw [check_of _ _ bound, getbit_eq fits bound, ran]
      exact Except.bind_eq_ok_iff.mpr ⟨(), rfl, Except.bind_eq_ok_iff.mpr ⟨_, rfl, Except.bind_eq_ok_iff.mpr
        ⟨(), check_of _ _ isSet, Except.bind_eq_ok_iff.mpr ⟨(), check_of _ _ some, rfl⟩⟩⟩⟩
    · rw [decrement, decrement, same]
  | clearbitSafe index =>
    have bound : index < b.noBits := asserted
    have started (b' : Bitmap) (ran : clearBit (if b.used index then decrement b else b) index = .ok b') :
        (clearbitSafe index).run b = .ok b' := by
      change Checked.clearbitSafe b index = _
      unfold Checked.clearbitSafe
      rw [check_of _ _ bound, getbit_eq fits bound]
      exact ran
    cases isSet : b.used index with
    | true =>
      have fits' : (decrement b).noBits + 31 < 2 ^ 32 := (noBits_decrement b).symm ▸ fits
      obtain ⟨b', ran, size, same, bits⟩ := clearBit_returns fits' ((noBits_decrement b).symm ▸ bound)
      have used (i : ℕ) : b'.used i = (b.used i && i != index) := (bits i).trans (by rw [used_decrement])
      have size' : b'.noBits = b.noBits := size.trans (noBits_decrement b)
      refine ⟨b', started b' (by rw [isSet]; exact ran), size', fun i _ => used i, iff_of_true ?_ trivial⟩
      exact same.trans (clear_counts fits counted bound isSet size' used)
    | false =>
      obtain ⟨b', ran, size, same, bits⟩ := clearBit_returns fits bound
      have absent : index ∉ setBits b := fun member => nomatch isSet.symm.trans (mem_setBits.mp member).2
      refine ⟨b', started b' (by rw [isSet]; exact ran), size, fun i _ => bits i, iff_of_true ?_ trivial⟩
      rw [same, setBits_erase size bits, Finset.erase_eq_of_notMem absent]
      exact counted.count
  | read image =>
    exact ⟨b.read image 0, rfl, rfl, fun i bound => used_read b image bound, iff_of_true (counted_read fits asserted).count trivial⟩

theorem Call.right_iff {c : Call} (asserted : c.Asserted b) : c.Right b ↔ c.Clean b := by
  obtain ⟨b', ran, size, bits, counts⟩ := Call.returns fits counted asserted
  refine Iff.trans ⟨?_, fun right => ⟨b', ran, size, fun i bound => bits i ?_, right⟩⟩ counts
  · rintro ⟨b'', ran', -, -, right⟩
    obtain rfl := Except.ok.inj (ran.symm.trans ran')
    exact right
  · rw [words_eq fits]
    omega

/-- The invariant is kept. -/
theorem Counted.call {c : Call} (asserted : c.Asserted b) (clean : c.Clean b) (ran : c.run b = .ok b') :
    b'.noBits = b.noBits ∧ Counted b' := by
  obtain ⟨b'', returns, size, bits, counts⟩ := Call.returns fits counted asserted
  obtain rfl := Except.ok.inj (ran.symm.trans returns)
  refine ⟨size, fun i above below => ?_, counts.mpr clean⟩
  rw [size] at above below
  have before := counted.padding i above below
  rw [bits i below]
  cases c with
  | setbits set =>
    have few : set ≤ b.noBits := asserted
    exact decide_eq_false (by omega)
  | setbit index =>
    obtain ⟨bound, -⟩ := asserted
    rw [Call.bit, before, Bool.false_or]
    exact beq_false_of_ne (by omega)
  | setbitSafe index =>
    have bound : index < b.noBits := asserted
    rw [Call.bit, before, Bool.false_or]
    exact beq_false_of_ne (by omega)
  | clearbit index => rw [Call.bit, before, Bool.false_and]
  | clearbitSafe index => rw [Call.bit, before, Bool.false_and]
  | read image => exact asserted i above below

end Counts

/-- After every call that does not count a bit twice. -/
theorem Reached.counted {noBits : ℕ} (fits : noBits + 31 < 2 ^ 32) (reached : Reached noBits b) :
    b.noBits = noBits ∧ Counted b := by
  induction reached with
  | init =>
    have zero (i : ℕ) : (Bitmap.init noBits).used i = false := BitVec.getLsbD_zero
    refine ⟨rfl, fun i _ _ => zero i, ?_⟩
    rw [eq_comm, Bitmap.init, Finset.card_eq_zero]
    exact Finset.eq_empty_of_forall_notMem fun i member => nomatch (zero i).symm.trans (mem_setBits.mp member).2
  | call _ asserted clean ran ih =>
    obtain ⟨size, counted⟩ := ih
    obtain ⟨same, counted'⟩ := counted.call (size ▸ fits) asserted clean ran
    exact ⟨same.trans size, counted'⟩

/-- In every run without a bit that is set twice, the count is right after every call; a call that sets a bit again makes it
wrong. A size that cannot be rounded up to words gives no words. -/
theorem count_right {noBits : ℕ} (uint32 : noBits < 2 ^ 32) :
    (noBits + 31 < 2 ^ 32 → ∀ b, Reached noBits b → count b = (setBits b).card ∧
      (∀ c : Call, c.Asserted b → (c.Right b ↔ c.Clean b)) ∧ Restores b) ∧
    (2 ^ 32 ≤ noBits + 31 → ∀ index < noBits, setbitSafe (init noBits) index = .error (.outOfBounds "b->bits")) := by
  refine ⟨fun fits b reached => ?_, fun wraps index bound => ?_⟩
  · obtain ⟨size, counted⟩ := reached.counted fits
    have fits' : b.noBits + 31 < 2 ^ 32 := size ▸ fits
    exact ⟨counted.count, fun c asserted => Call.right_iff fits' counted asserted, counted.restores fits'⟩
  · unfold setbitSafe orBit
    rw [check_of _ _ (show index < (init noBits).noBits from bound), word_wraps (b := init noBits) uint32 wraps]
    rfl

/-- Both bits of a bitmap are set. -/
theorem count_right_two : ∃ b, Reached 2 b ∧ count b = 2 ∧ count b = (setBits b).card := by
  have reached : Reached 2 _ := .call (c := .setbits 2) .init (le_refl 2) trivial rfl
  exact ⟨_, reached, rfl, ((count_right (by decide)).1 (by decide) _ reached).1⟩

/-- A bit that is set twice is counted twice. -/
theorem count_drifts : ¬ ∀ noBits < 2 ^ 32, ∀ (c c' : Call) (b b' : Bitmap), c.Asserted (init noBits) →
    c.run (init noBits) = .ok b → c'.Asserted b → c'.run b = .ok b' → count b' = (setBits b').card := by
  intro all
  have counts := all 1 (by decide) (.setbitSafe 0) (.setbitSafe 0) _ _ Nat.one_pos rfl Nat.one_pos rfl
  exact absurd counts (by decide)

end Scubed3.Bitmap.Checked
