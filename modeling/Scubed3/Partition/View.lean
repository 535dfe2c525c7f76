import Scubed3.Partition.Turning

/-! # A partition as an array of bytes

The mesoblocks lie side by side. A write replaces the bytes of its range and no others, a cycle replaces none. The
condition is that no macroblock is written out while it comes next itself: it would be selected again, and what is mapped
to it would be lost.
-/

namespace Scubed3.Partition

open Blockio Splitting

variable (p : Params)

/-- The contents of the partition, with zeroes behind its end. -/
def view (l : Partition) : Bytes := fun a =>
  if a / p.mesoblkSize < l.noBlockIndices then
    Memory.ofBlock (content p l (a / p.mesoblkSize)) (a % p.mesoblkSize)
  else 0

/-- `do_write` that gives up when a macroblock would be written out although it comes next itself. -/
def cleanWrite (fuel : ℕ) (l : Partition) (mesoff muoff size : ℕ) (data : Bytes) : Draw Failure Partition :=
  if Overruns p l mesoff then .starve else doWrite p fuel l mesoff muoff size data

/-- `do_req(l, SCUBED3_WRITE, …)` with such writes. -/
def cleanReq (fuel : ℕ) (l : Partition) (rOffset size : ℕ) (buf : Bytes) : Draw Failure Partition :=
  doReq p (fun l mesoff muoff size ooff => cleanWrite p fuel l mesoff muoff size fun i => buf (ooff + i))
    l.noBlockIndices l rOffset size

variable {p} {l l' : Partition} {cur m muoff size rOffset fuel : ℕ} {buf data : Bytes}

/-! ## What changes of the array -/

theorem Kept.view (kept : Kept p l l') : view p l' = view p l := by
  funext a
  unfold Partition.view
  rw [kept.noBlockIndices]
  split
  · next inside => rw [kept.content _ inside]
  · rfl

theorem Overwritten.view (inside : m < l.noBlockIndices) (within : muoff + size ≤ p.mesoblkSize)
    (overwritten : Overwritten p m muoff size data l l') :
    view p l' = Memory.blit (view p l) (m * p.mesoblkSize + muoff) size data := by
  have pos := p.mesoblkSize_pos
  funext a
  have position : a / p.mesoblkSize * p.mesoblkSize + a % p.mesoblkSize = a := Nat.div_add_mod' a p.mesoblkSize
  have below := Nat.mod_lt a pos
  unfold Partition.view Memory.blit
  dsimp only
  rw [overwritten.noBlockIndices]
  by_cases here : a / p.mesoblkSize = m
  · rw [here] at position ⊢
    rw [if_pos inside, if_pos inside, overwritten.content m inside, if_pos rfl, Memory.ofBlock_apply _ below,
      Memory.ofBlock_apply _ below, overwrite]
    by_cases replaced : muoff ≤ a % p.mesoblkSize ∧ a % p.mesoblkSize < muoff + size
    · rw [if_pos replaced, if_pos (by omega), show a - (m * p.mesoblkSize + muoff) = a % p.mesoblkSize - muoff by omega]
    · rw [if_neg replaced, if_neg (by omega)]
  · have apart : ¬ (m * p.mesoblkSize + muoff ≤ a ∧ a < m * p.mesoblkSize + muoff + size) := by
      rintro ⟨lower, upper⟩
      refine here (Nat.div_eq_of_lt_le (by omega) ?_)
      rw [Nat.succ_mul]
      omega
    rw [if_neg apart]
    split
    · next bound => rw [overwritten.content _ bound, if_neg here]
    · rfl

/-! ## Reading -/

/-- What is mapped nowhere is not taken for something in the buffer. -/
theorem Intact.unmapped_elsewhere (intact : Intact p l) : l.dev.bi ≠ some (indexId p noIndex) := fun current =>
  (intact.addressable_current current).2 rfl

theorem Intact.fetches (intact : Intact p l) : Fetches p l (view p l) := by
  intro mesoff muoff size out ooff inside within
  have pos := p.mesoblkSize_pos
  rw [doRead_eq (intact.toConsistent.readable inside fun _ => intact.unmapped_elsewhere) within]
  refine congrArg Except.ok ?_
  funext a
  unfold Memory.blit
  split
  · next copied =>
    have block : (mesoff * p.mesoblkSize + muoff + (a - ooff)) / p.mesoblkSize = mesoff :=
      Nat.div_eq_of_lt_le (by omega) (by rw [Nat.succ_mul]; omega)
    have offset : (mesoff * p.mesoblkSize + muoff + (a - ooff)) % p.mesoblkSize = muoff + (a - ooff) := by
      rw [Nat.add_assoc, Nat.mul_comm, Nat.mul_add_mod, Nat.mod_eq_of_lt (by omega)]
    simp only [Partition.view, block, offset, if_pos inside]
  · rfl

/-! ## Writing -/

theorem Tidy.cleanWrite (tidy : Tidy p l) (current : l.dev.bi ≠ none) (inside : m < l.noBlockIndices)
    (within : muoff + size ≤ p.mesoblkSize) (fuel : ℕ) (data : Bytes) :
    Draw.Safe (cleanWrite p fuel l m muoff size data) fun l' => ∃ next, Ready p l' next ∧ l'.outputInitialized = true ∧
      Overwritten p m muoff size data l l' ∧ (¬ MakesRoom p l m → l'.dev.updated = true) ∧
      (¬ MakesRoom p l m ∧ l'.dev.b.base = l.dev.b.base ∨ MakesRoom p l m ∧ Flushes p l l'.dev.b.base) := by
  unfold Partition.cleanWrite
  split
  · exact .starve
  · next clean =>
    obtain ⟨cur, current⟩ := Option.ne_none_iff_exists'.mp current
    exact tidy.doWrite data current inside within clean fuel

/-- The second program runs as the first one, unless that gives up. -/
def Follows {σ : Type} (x y : Draw Failure σ) : Prop := ∀ tape, x.run tape = .starved ∨ y.run tape = x.run tape

theorem Follows.refl {σ : Type} (x : Draw Failure σ) : Follows x x := fun _ => .inr rfl

theorem Follows.done {σ : Type} {x y : Draw Failure σ} (follows : Follows x y) {tape rest : List ℕ} {s : σ}
    (ran : x.run tape = .done s rest) : y.run tape = .done s rest := by
  rcases follows tape with starved | same
  · exact nomatch ran.symm.trans starved
  · exact same.trans ran

section Request

variable {σ : Type} {action action' : σ → (mesoff muoff size ooff : ℕ) → Draw Failure σ}

theorem Follows.bind {τ : Type} {x y : Draw Failure σ} {f g : σ → Draw Failure τ} (first : Follows x y)
    (next : ∀ s, Follows (f s) (g s)) : Follows (x >>= f) (y >>= g) := by
  intro tape
  rw [Draw.run_bind, Draw.run_bind]
  rcases first tape with starved | same
  · rw [starved]
    exact .inl rfl
  · rw [same]
    cases x.run tape with
    | done s rest => exact next s rest
    | failed e => exact .inr rfl
    | starved => exact .inl rfl

variable (follows : ∀ s mesoff muoff size ooff, Follows (action s mesoff muoff size ooff) (action' s mesoff muoff size ooff))
include follows

theorem doReqLoop_follows (turns : ℕ) (s : σ) (meso size ooff : ℕ) :
    Follows (doReqLoop p action turns s meso size ooff) (doReqLoop p action' turns s meso size ooff) := by
  induction turns generalizing s meso size ooff with
  | zero =>
    unfold doReqLoop
    split
    · exact follows _ _ _ _ _
    · exact .refl _
  | succ turns ih => exact .bind (follows _ _ _ _ _) fun s => ih s _ _ _

theorem doReq_follows (noBlockIndices : ℕ) (s : σ) (rOffset size : ℕ) :
    Follows (doReq p action noBlockIndices s rOffset size) (doReq p action' noBlockIndices s rOffset size) := by
  unfold doReq
  dsimp only
  split
  · exact .refl _
  · split
    · exact .bind (follows _ _ _ _ _) fun s => doReqLoop_follows follows _ _ _ _ _
    · exact doReqLoop_follows follows _ _ _ _ _

end Request

/-- When it does not give up, it is the request itself. -/
theorem cleanReq_follows (fuel : ℕ) (l : Partition) (rOffset size : ℕ) (buf : Bytes) :
    Follows (cleanReq p fuel l rOffset size buf) (reqWrite p fuel l rOffset size buf) := by
  refine doReq_follows (fun l mesoff muoff size ooff => ?_) _ _ _ _
  unfold cleanWrite
  split
  · exact fun _ => .inl rfl
  · exact .refl _

/-- What a request does not change. -/
structure Serves (p : Params) (l l' : Partition) : Prop where
  tidy : Tidy p l'
  current : l'.dev.bi ≠ none
  noBlockIndices : l'.noBlockIndices = l.noBlockIndices
  owned : owned p l'.dev = owned p l.dev
  noMacroblocks : l'.dev.noMacroblocks = l.dev.noMacroblocks
  reservedMacroblocks : l'.dev.reservedMacroblocks = l.dev.reservedMacroblocks

/-- A request of no bytes makes at most one call, for no bytes. -/
theorem doReq_zero {σ : Type} (action : σ → (mesoff muoff size ooff : ℕ) → Draw Failure σ) {noBlockIndices : ℕ} (s : σ)
    (indices : noBlockIndices < 2 ^ 32) (offset : rOffset < 2 ^ 63) :
    doReq p action noBlockIndices s rOffset 0 = pure s ∨ rOffset / p.mesoblkSize < noBlockIndices ∧
      rOffset % p.mesoblkSize < p.mesoblkSize ∧
      doReq p action noBlockIndices s rOffset 0 = action s (rOffset / p.mesoblkSize) (rOffset % p.mesoblkSize) 0 0 := by
  have pos := p.mesoblkSize_pos
  have position : rOffset / p.mesoblkSize * p.mesoblkSize + rOffset % p.mesoblkSize = rOffset :=
    Nat.div_add_mod' rOffset p.mesoblkSize
  have below := Nat.mod_lt rOffset pos
  unfold doReq
  dsimp only
  split
  · exact .inl rfl
  · next fits =>
    rw [pastEnd, not_le] at fits
    by_cases aligned : rOffset % p.mesoblkSize = 0
    · rw [if_neg (not_not.mpr aligned), Nat.zero_div]
      exact .inl rfl
    · have before : rOffset / p.mesoblkSize < noBlockIndices := by
        have exact_ : (rOffset + 0 + 2 ^ 64 - 1) % 2 ^ 64 = rOffset - 1 := by omega
        rw [exact_] at fits
        refine lt_of_le_of_lt (le_of_eq (Eq.symm (Nat.div_eq_of_lt_le (by omega) ?_))) fits
        rw [Nat.succ_mul]
        omega
      refine .inr ⟨before, below, ?_⟩
      rw [if_pos aligned, if_pos (by omega), Nat.sub_zero, Nat.zero_div,
        Nat.mod_eq_of_lt (show rOffset / p.mesoblkSize < 2 ^ 32 by omega)]
      exact Draw.bind_ret _

theorem Tidy.indices_lt (tidy : Tidy p l) : l.noBlockIndices < 2 ^ 32 :=
  tidy.intact.sized.trans_lt (blank_noBlockIndices_lt p l.dev)

/-- A request replaces the bytes of its range when it does not reach past the end of the device, and does nothing
otherwise. -/
theorem Tidy.cleanReq (tidy : Tidy p l) (current : l.dev.bi ≠ none) (fuel : ℕ) (offset : rOffset < 2 ^ 63)
    (small : size < 2 ^ 32) (buf : Bytes) :
    Draw.Safe (cleanReq p fuel l rOffset size buf) fun l' => Serves p l l' ∧
      view p l' = if rOffset + size ≤ l.noBlockIndices * p.mesoblkSize then Memory.blit (view p l) rOffset size buf
        else view p l := by
  have stays : Serves p l l := ⟨tidy, current, rfl, rfl, rfl, rfl⟩
  have indices := tidy.indices_lt
  have writes {s : Partition} {mesoff muoff size : ℕ} {data : Bytes} (serves : Serves p l s) (inside : mesoff < l.noBlockIndices)
      (within : muoff + size ≤ p.mesoblkSize) : Draw.Safe (Partition.cleanWrite p fuel s mesoff muoff size data) fun s' =>
        Serves p l s' ∧ view p s' = Memory.blit (view p s) (mesoff * p.mesoblkSize + muoff) size data := by
    rw [← serves.noBlockIndices] at inside
    refine (serves.tidy.cleanWrite serves.current inside within fuel data).imp fun s' ⟨next, prepared, output, replaced, _⟩ => ?_
    exact ⟨⟨.ready prepared output, prepared.bi ▸ nofun, replaced.noBlockIndices.trans serves.noBlockIndices,
      replaced.owned.trans serves.owned, replaced.noMacroblocks.trans serves.noMacroblocks,
      replaced.reservedMacroblocks.trans serves.reservedMacroblocks⟩, replaced.view inside within⟩
  unfold Partition.cleanReq
  by_cases none : size = 0
  · subst none
    have same : (if rOffset + 0 ≤ l.noBlockIndices * p.mesoblkSize then Memory.blit (view p l) rOffset 0 buf else view p l) =
        view p l := by
      split
      · exact Memory.blit_zero ..
      · rfl
    rw [same]
    obtain nothing | ⟨inside, below, once⟩ := doReq_zero (p := p)
      (fun l mesoff muoff size ooff => Partition.cleanWrite p fuel l mesoff muoff size fun i => buf (ooff + i)) l indices offset
    · rw [nothing]
      exact .pure ⟨stays, rfl⟩
    · rw [once]
      refine (writes stays inside below.le).imp fun s' ⟨serves, written⟩ => ⟨serves, written.trans (Memory.blit_zero ..)⟩
  · have positive : 1 ≤ size := Nat.one_le_iff_ne_zero.mpr none
    by_cases inside : rOffset + size ≤ l.noBlockIndices * p.mesoblkSize
    · have covers := reqCalls_covers positive inside
      rw [if_pos inside, doReq_eq _ l indices offset positive small inside]
      refine (covers.splits.swap.foldlM_blit (Serves p l) (view p) buf (fun c member s serves => ?_) stays).imp
        fun l' ⟨serves, written⟩ => ⟨serves, by simpa only [Nat.zero_add] using written⟩
      obtain ⟨mesoff, within⟩ := covers.inside c member
      exact writes serves mesoff within
    · rw [if_neg inside, doReq_past _ l offset positive small (not_le.mp inside)]
      exact .pure ⟨stays, rfl⟩

/-- Reading returns at once, with the bytes of its range. -/
theorem Tidy.reqRead (tidy : Tidy p l) (offset : rOffset < 2 ^ 63) (small : size < 2 ^ 32)
    (inside : rOffset + size ≤ l.noBlockIndices * p.mesoblkSize) (buf : Bytes) :
    reqRead p l rOffset size buf = pure (Memory.blit buf 0 size fun i => view p l (rOffset + i)) := by
  have fetches := tidy.intact.fetches
  rcases Nat.eq_zero_or_pos size with rfl | positive
  · rw [Memory.blit_zero]
    obtain nothing | ⟨inside, below, once⟩ := doReq_zero (p := p)
      (fun out mesoff muoff size ooff => liftM (doRead p l mesoff muoff size out ooff)) buf tidy.indices_lt offset
    · exact nothing
    · refine once.trans ?_
      rw [fetches _ _ _ _ _ inside below.le, Memory.blit_zero]
      rfl
  · have covers := reqCalls_covers positive inside
    obtain ⟨filled, read⟩ : ∃ filled, Partition.reqRead p l rOffset size buf = pure filled := by
      unfold Partition.reqRead
      rw [doReq_eq _ buf tidy.indices_lt offset positive small inside]
      refine Draw.foldlM_pure (fun c member out => ?_) buf
      obtain ⟨mesoff, within⟩ := covers.inside c member
      refine ⟨_, congrArg liftM (fetches c.mesoff c.muoff c.size out c.ooff mesoff within)⟩
    have result := reqRead_fetches fetches tidy.indices_lt offset positive small inside buf
    rw [read] at result ⊢
    exact congrArg pure (result.of_done (Draw.run_pure filled []))

end Scubed3.Partition
