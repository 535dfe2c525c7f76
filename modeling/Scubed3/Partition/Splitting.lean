import Scubed3.Partition.Steps
import Scubed3.ToMathlib.Splitting

/-! # A request is split at the boundaries of mesoblocks

`do_req` calls its action for a partial mesoblock at the start, for whole mesoblocks, and for what remains. The
calls lie side by side, on the device and in the buffer of the request, and none of them crosses a boundary. A
request is refused when it reaches past the end of the device; nothing is called then.
-/

namespace Scubed3.Partition

open Splitting

/-- The arguments of a call of `do_write` or `do_read`: `size` bytes from `muoff` of mesoblock `mesoff` on, and the
position `ooff` in the buffer of the request. -/
structure Call where
  mesoff : ℕ
  muoff : ℕ
  size : ℕ
  ooff : ℕ
deriving DecidableEq

variable (p : Params)

/-- The first byte of a call on the device. -/
def Call.address (c : Call) : ℕ := c.mesoff * p.mesoblkSize + c.muoff

/-- The calls cover `size` bytes from `rOffset` on, once and in increasing order, from the matching positions of
the buffer, and each of them stays within a mesoblock of the device. -/
structure Covers (noBlockIndices rOffset size : ℕ) (calls : List Call) : Prop where
  splits : Splits (Call.address p) Call.ooff Call.size rOffset 0 size calls
  inside : ∀ c ∈ calls, c.mesoff < noBlockIndices ∧ c.muoff + c.size ≤ p.mesoblkSize

section Calls

variable {p} {σ : Type} (action : σ → (mesoff muoff size ooff : ℕ) → Draw Failure σ)

/-- Make one call. -/
def perform (s : σ) (c : Call) : Draw Failure σ := action s c.mesoff c.muoff c.size c.ooff

/-- The calls of the loop and for the remainder. -/
def loopCalls (p : Params) : (turns meso size ooff : ℕ) → List Call
  | 0, meso, size, ooff => if size > 0 then [⟨meso, 0, size, ooff⟩] else []
  | turns + 1, meso, size, ooff =>
    ⟨meso, 0, p.mesoblkSize, ooff⟩ :: loopCalls p turns (meso + 1) (size - p.mesoblkSize) (ooff + p.mesoblkSize)

/-- The loop makes these calls; its counters do not wrap around. -/
theorem doReqLoop_eq {turns meso size ooff : ℕ} (s : σ) (whole : turns * p.mesoblkSize ≤ size)
    (mesos : meso + turns < 2 ^ 32) (small : ooff + size < 2 ^ 32) :
    doReqLoop p action turns s meso size ooff = (loopCalls p turns meso size ooff).foldlM (perform action) s := by
  induction turns generalizing s meso size ooff with
  | zero =>
    unfold doReqLoop loopCalls
    split
    · rw [List.foldlM_cons]
      exact (Draw.bind_ret _).symm
    · rfl
  | succ turns ih =>
    have turn : p.mesoblkSize + turns * p.mesoblkSize ≤ size := by rwa [Nat.succ_mul, Nat.add_comm] at whole
    unfold doReqLoop loopCalls
    rw [List.foldlM_cons, Nat.mod_eq_of_lt (by omega), Nat.mod_eq_of_lt (by omega)]
    exact bind_congr fun s' => ih s' (by omega) (by omega) (by omega)

/-- The calls of the loop start at a boundary. -/
theorem loopCalls_covers {turns meso size noBlockIndices : ℕ} (ooff : ℕ) (turnsEq : turns = size / p.mesoblkSize)
    (inside : meso * p.mesoblkSize + size ≤ noBlockIndices * p.mesoblkSize) :
    Splits (Call.address p) Call.ooff Call.size (meso * p.mesoblkSize) ooff size (loopCalls p turns meso size ooff) ∧
      ∀ c ∈ loopCalls p turns meso size ooff,
        c.mesoff < noBlockIndices ∧ c.muoff + c.size ≤ p.mesoblkSize := by
  have pos := p.mesoblkSize_pos
  induction turns generalizing meso size ooff with
  | zero =>
    have short : size < p.mesoblkSize := (Nat.div_eq_zero_iff.mp turnsEq.symm).resolve_left pos.ne'
    unfold loopCalls
    split
    · next remainder =>
      have before : meso < noBlockIndices := Nat.lt_of_mul_lt_mul_right (a := p.mesoblkSize) (by omega)
      refine ⟨.cons' (c := (⟨meso, 0, size, ooff⟩ : Call)) rfl rfl remainder (.nil ..), ?_⟩
      simp only [List.mem_singleton, forall_eq]
      exact ⟨before, by omega⟩
    · next nothing =>
      obtain rfl : size = 0 := by omega
      exact ⟨.nil .., nofun⟩
  | succ turns ih =>
    have enough : p.mesoblkSize ≤ size := by
      by_contra few
      rw [Nat.div_eq_of_lt (by omega)] at turnsEq
      omega
    have next : (meso + 1) * p.mesoblkSize = meso * p.mesoblkSize + p.mesoblkSize := by rw [Nat.succ_mul]
    have before : meso < noBlockIndices := Nat.lt_of_mul_lt_mul_right (a := p.mesoblkSize) (by omega)
    have quotient : turns = (size - p.mesoblkSize) / p.mesoblkSize := by
      have less := Nat.sub_mul_div size p.mesoblkSize 1
      rw [Nat.mul_one] at less
      omega
    have room : (meso + 1) * p.mesoblkSize + (size - p.mesoblkSize) ≤ noBlockIndices * p.mesoblkSize := by omega
    obtain ⟨splits, others⟩ := ih (ooff + p.mesoblkSize) quotient room
    rw [next] at splits
    unfold loopCalls
    refine ⟨(Splits.cons' (c := (⟨meso, 0, p.mesoblkSize, ooff⟩ : Call)) rfl rfl pos splits).of_total ?_, ?_⟩
    · change p.mesoblkSize + (size - p.mesoblkSize) = size
      omega
    · intro c member
      rcases List.mem_cons.mp member with rfl | member
      · exact ⟨before, by simp⟩
      · exact others c member

end Calls

/-- The calls of a request inside the device. -/
def reqCalls (rOffset size : ℕ) : List Call :=
  let meso := rOffset / p.mesoblkSize
  let inmeso := rOffset % p.mesoblkSize
  if inmeso = 0 then loopCalls p (size / p.mesoblkSize) meso size 0
  else
    let reqsz := min size (p.mesoblkSize - inmeso)
    ⟨meso, inmeso, reqsz, 0⟩ ::
      loopCalls p ((size - reqsz) / p.mesoblkSize) (meso + 1) (size - reqsz) reqsz

variable {p} {noBlockIndices rOffset size : ℕ}

/-- The test for the end of the device is exact. -/
theorem pastEnd_iff (offset : rOffset < 2 ^ 63) (positive : 1 ≤ size) (small : size < 2 ^ 32) :
    pastEnd p noBlockIndices rOffset size ↔ noBlockIndices * p.mesoblkSize < rOffset + size := by
  have exact : (rOffset + size + 2 ^ 64 - 1) % 2 ^ 64 = rOffset + size - 1 := by omega
  rw [pastEnd, exact, Nat.le_div_iff_mul_le p.mesoblkSize_pos]
  omega

theorem reqCalls_covers (positive : 1 ≤ size) (inside : rOffset + size ≤ noBlockIndices * p.mesoblkSize) :
    Covers p noBlockIndices rOffset size (reqCalls p rOffset size) := by
  have pos := p.mesoblkSize_pos
  have position : rOffset / p.mesoblkSize * p.mesoblkSize + rOffset % p.mesoblkSize = rOffset :=
    Nat.div_add_mod' rOffset p.mesoblkSize
  have below := Nat.mod_lt rOffset pos
  have next : (rOffset / p.mesoblkSize + 1) * p.mesoblkSize =
      rOffset / p.mesoblkSize * p.mesoblkSize + p.mesoblkSize := Nat.succ_mul ..
  unfold reqCalls
  dsimp only
  split
  · next aligned =>
    rw [aligned, Nat.add_zero] at position
    have room : rOffset / p.mesoblkSize * p.mesoblkSize + size ≤ noBlockIndices * p.mesoblkSize := by omega
    obtain ⟨splits, within⟩ := loopCalls_covers 0 rfl room
    rw [position] at splits
    exact ⟨splits, within⟩
  · next partway =>
    have before : rOffset / p.mesoblkSize < noBlockIndices := Nat.lt_of_mul_lt_mul_right (a := p.mesoblkSize) (by omega)
    set reqsz := min size (p.mesoblkSize - rOffset % p.mesoblkSize) with reqszEq
    have within : reqsz ≤ size := Nat.min_le_left ..
    have first (rest : List Call) (splits : Splits (Call.address p) Call.ooff Call.size (rOffset + reqsz) reqsz
        (size - reqsz) rest) : Splits (Call.address p) Call.ooff Call.size rOffset 0 size
          (⟨rOffset / p.mesoblkSize, rOffset % p.mesoblkSize, reqsz, 0⟩ :: rest) := by
      have some : 0 < reqsz := by omega
      refine (Splits.cons' (c := (⟨rOffset / p.mesoblkSize, rOffset % p.mesoblkSize, reqsz, 0⟩ : Call)) position rfl
        some ?_).of_total (Nat.add_sub_of_le within)
      rwa [Nat.zero_add]
    by_cases short : rOffset % p.mesoblkSize + size ≤ p.mesoblkSize
    · -- the whole request lies in one mesoblock
      have whole : size - reqsz = 0 := by omega
      rw [whole, Nat.zero_div, loopCalls, if_neg (Nat.lt_irrefl 0)]
      refine ⟨first [] (by rw [whole]; exact .nil ..), ?_⟩
      simp only [List.mem_singleton, forall_eq]
      exact ⟨before, by omega⟩
    · have boundary : rOffset + reqsz = (rOffset / p.mesoblkSize + 1) * p.mesoblkSize := by omega
      have room : (rOffset / p.mesoblkSize + 1) * p.mesoblkSize + (size - reqsz) ≤ noBlockIndices * p.mesoblkSize := by
        omega
      obtain ⟨splits, others⟩ := loopCalls_covers reqsz rfl room
      rw [← boundary] at splits
      refine ⟨first _ splits, fun c member => ?_⟩
      rcases List.mem_cons.mp member with rfl | member
      · refine ⟨before, ?_⟩
        change rOffset % p.mesoblkSize + reqsz ≤ _
        omega
      · exact others c member

section Request

variable {σ : Type} (action : σ → (mesoff muoff size ooff : ℕ) → Draw Failure σ)

/-- A request inside the device makes these calls. -/
theorem doReq_eq (s : σ) (indices : noBlockIndices < 2 ^ 32) (offset : rOffset < 2 ^ 63) (positive : 1 ≤ size)
    (small : size < 2 ^ 32) (inside : rOffset + size ≤ noBlockIndices * p.mesoblkSize) :
    doReq p action noBlockIndices s rOffset size = (reqCalls p rOffset size).foldlM (perform action) s := by
  have pos := p.mesoblkSize_pos
  have position : rOffset / p.mesoblkSize * p.mesoblkSize + rOffset % p.mesoblkSize = rOffset :=
    Nat.div_add_mod' rOffset p.mesoblkSize
  have below := Nat.mod_lt rOffset pos
  have next : (rOffset / p.mesoblkSize + 1) * p.mesoblkSize =
      rOffset / p.mesoblkSize * p.mesoblkSize + p.mesoblkSize := Nat.succ_mul ..
  have before : rOffset / p.mesoblkSize < noBlockIndices := Nat.lt_of_mul_lt_mul_right (a := p.mesoblkSize) (by omega)
  have fits : ¬ pastEnd p noBlockIndices rOffset size := by
    rw [pastEnd_iff offset positive small]
    omega
  -- the last mesoblock of the loop still lies in the device
  have mesos {meso rest : ℕ} (within : meso * p.mesoblkSize + rest ≤ noBlockIndices * p.mesoblkSize) :
      meso + rest / p.mesoblkSize < 2 ^ 32 := by
    have whole := Nat.div_mul_le_self rest p.mesoblkSize
    have := Nat.le_of_mul_le_mul_right (by rw [Nat.add_mul]; omega :
      (meso + rest / p.mesoblkSize) * p.mesoblkSize ≤ noBlockIndices * p.mesoblkSize) pos
    omega
  unfold doReq reqCalls
  simp only [if_neg fits, ne_eq, ite_not, Nat.mod_eq_of_lt (show rOffset / p.mesoblkSize < 2 ^ 32 by omega)]
  split
  · exact doReqLoop_eq action s (Nat.div_mul_le_self ..) (mesos (by omega)) (by omega)
  · next partway =>
    have reqsz : (if rOffset % p.mesoblkSize + size ≤ p.mesoblkSize then size
        else p.mesoblkSize - rOffset % p.mesoblkSize) = min size (p.mesoblkSize - rOffset % p.mesoblkSize) := by
      split <;> omega
    rw [reqsz, List.foldlM_cons]
    refine bind_congr fun s' => ?_
    by_cases short : rOffset % p.mesoblkSize + size ≤ p.mesoblkSize
    · have whole : size - min size (p.mesoblkSize - rOffset % p.mesoblkSize) = 0 := by omega
      rw [whole, Nat.zero_div]
      rfl
    · have room : (rOffset / p.mesoblkSize + 1) * p.mesoblkSize +
          (size - min size (p.mesoblkSize - rOffset % p.mesoblkSize)) ≤ noBlockIndices * p.mesoblkSize := by omega
      rw [Nat.mod_eq_of_lt (show rOffset / p.mesoblkSize + 1 < 2 ^ 32 by omega)]
      exact doReqLoop_eq action s' (Nat.div_mul_le_self ..) (mesos room) (by omega)

/-- A request that reaches past the end of the device does nothing. -/
theorem doReq_past (s : σ) (offset : rOffset < 2 ^ 63) (positive : 1 ≤ size) (small : size < 2 ^ 32)
    (past : noBlockIndices * p.mesoblkSize < rOffset + size) :
    doReq p action noBlockIndices s rOffset size = pure s := by
  unfold doReq
  exact if_pos ((pastEnd_iff offset positive small).mpr past)

end Request

/-! ## The device as an array of bytes -/

/-- On single mesoblocks of a device with `noBlockIndices` of them, `do_write` stores the data and nothing else in
the array `view`, and keeps `Inv`. -/
def Stores (p : Params) (fuel noBlockIndices : ℕ) (Inv : Partition → Prop) (view : Partition → Bytes)
    (onFail : Failure → Prop) : Prop :=
  ∀ l mesoff muoff size data, Inv l → mesoff < noBlockIndices → muoff + size ≤ p.mesoblkSize →
    Draw.Ensures (doWrite p fuel l mesoff muoff size data)
      (fun l' => Inv l' ∧ view l' = Memory.blit (view l) (mesoff * p.mesoblkSize + muoff) size data) onFail

/-- On single mesoblocks, `do_read` fetches the data from the array `view`. -/
def Fetches (p : Params) (l : Partition) (view : Bytes) : Prop :=
  ∀ mesoff muoff size out ooff, mesoff < l.noBlockIndices → muoff + size ≤ p.mesoblkSize →
    doRead p l mesoff muoff size out ooff =
      .ok (Memory.blit out ooff size fun i => view (mesoff * p.mesoblkSize + muoff + i))

variable {fuel : ℕ} {Inv : Partition → Prop} {view : Partition → Bytes} {onFail : Failure → Prop}

theorem reqWrite_stores {l : Partition} (stores : Stores p fuel l.noBlockIndices Inv view onFail) (inv : Inv l)
    (indices : l.noBlockIndices < 2 ^ 32) (offset : rOffset < 2 ^ 63) (positive : 1 ≤ size) (small : size < 2 ^ 32)
    (inside : rOffset + size ≤ l.noBlockIndices * p.mesoblkSize) (buf : Bytes) :
    Draw.Ensures (reqWrite p fuel l rOffset size buf)
      (fun l' => Inv l' ∧ view l' = Memory.blit (view l) rOffset size buf) onFail := by
  have covers := reqCalls_covers positive inside
  rw [reqWrite, doReq_eq _ l indices offset positive small inside]
  refine (covers.splits.swap.foldlM_blit Inv view buf (fun c member s invS => ?_) inv).imp fun l' ⟨inv', written⟩ => ?_
  · obtain ⟨mesoff, within⟩ := covers.inside c member
    exact stores s c.mesoff c.muoff c.size _ invS mesoff within
  · refine ⟨inv', ?_⟩
    simpa only [Nat.zero_add] using written

theorem reqRead_fetches {l : Partition} {view : Bytes} (fetches : Fetches p l view)
    (indices : l.noBlockIndices < 2 ^ 32) (offset : rOffset < 2 ^ 63) (positive : 1 ≤ size) (small : size < 2 ^ 32)
    (inside : rOffset + size ≤ l.noBlockIndices * p.mesoblkSize) (buf : Bytes) :
    Draw.Safe (reqRead p l rOffset size buf)
      fun buf' => buf' = Memory.blit buf 0 size fun i => view (rOffset + i) := by
  have covers := reqCalls_covers positive inside
  rw [reqRead, doReq_eq _ buf indices offset positive small inside]
  refine (covers.splits.foldlM_blit (fun _ => True) id view (fun c member s _ => ?_) trivial).imp
    fun buf' ⟨_, filled⟩ => filled
  obtain ⟨mesoff, within⟩ := covers.inside c member
  exact .lift_ok (fetches c.mesoff c.muoff c.size s c.ooff mesoff within) ⟨trivial, rfl⟩

/-- A request is split without gap, overlap or overrun, and acts on the device as on an array of bytes. -/
theorem request_split (indices : noBlockIndices < 2 ^ 32) (offset : rOffset < 2 ^ 63) (positive : 1 ≤ size)
    (small : size ≤ 2 ^ 32 - 1) :
    (rOffset + size ≤ noBlockIndices * p.mesoblkSize →
      ∃ calls, Covers p noBlockIndices rOffset size calls ∧
        ∀ {σ : Type} (action : σ → (mesoff muoff size ooff : ℕ) → Draw Failure σ) (s : σ),
          doReq p action noBlockIndices s rOffset size = calls.foldlM (perform action) s) ∧
    (noBlockIndices * p.mesoblkSize < rOffset + size →
      ∀ {σ : Type} (action : σ → (mesoff muoff size ooff : ℕ) → Draw Failure σ) (s : σ),
        doReq p action noBlockIndices s rOffset size = pure s) ∧
    (rOffset + size ≤ noBlockIndices * p.mesoblkSize → ∀ l : Partition, l.noBlockIndices = noBlockIndices →
      (∀ fuel Inv view onFail, Stores p fuel noBlockIndices Inv view onFail → Inv l → ∀ buf,
        Draw.Ensures (reqWrite p fuel l rOffset size buf)
          (fun l' => Inv l' ∧ view l' = Memory.blit (view l) rOffset size buf) onFail) ∧
      (∀ view, Fetches p l view → ∀ buf,
        Draw.Safe (reqRead p l rOffset size buf)
          fun buf' => buf' = Memory.blit buf 0 size fun i => view (rOffset + i))) := by
  have below : size < 2 ^ 32 := by omega
  refine ⟨fun inside => ⟨reqCalls p rOffset size, reqCalls_covers positive inside, fun action s =>
    doReq_eq action s indices offset positive below inside⟩, fun past _ action s =>
    doReq_past action s offset positive below past, ?_⟩
  rintro inside l rfl
  exact ⟨fun fuel Inv view onFail stores inv => reqWrite_stores stores inv indices offset positive below inside,
    fun view fetches => reqRead_fetches fetches indices offset positive below inside⟩

/-- A thousand bytes from byte 100 of a device of four mesoblocks. -/
theorem request_split_smallest : ∃ calls, Covers (Params.smallest 4 (by decide)) 4 100 1000 calls ∧
    ∀ {σ : Type} (action : σ → (mesoff muoff size ooff : ℕ) → Draw Failure σ) (s : σ),
      doReq (Params.smallest 4 (by decide)) action 4 s 100 1000 = calls.foldlM (perform action) s :=
  (request_split (p := Params.smallest 4 (by decide)) (by decide) (by decide) (by decide) (by decide)).1
    (by decide)

end Scubed3.Partition
