import Scubed3.Device.Orderly
import Scubed3.Server.Locking

/-! # What the file system is told

`fuse_io_read` and `fuse_io_write` return the number of bytes they were asked for, whatever `do_req` did. A request
inside the partition is carried out completely; a request that reaches past its end is not carried out at all, and is
reported in the same way.
-/

namespace Scubed3.Locking

open Scubed3.Partition Volume

variable {u : Setup} {w w' : Locked u} {path : List UInt8} {entry : FuseIoEntry u} {size offset fuel : ℕ}
  {buf : Bytes} {tape : List ℕ} {log : List Change}

/-- The partition of an entry. -/
abbrev partitionOf (w : Locked u) (entry : FuseIoEntry u) : Partition := (entry.io.attach w.daemon.b).l

/-- The file system has the partition under `path`, and may write to it. -/
structure Offers (w : Locked u) (path : List UInt8) (entry : FuseIoEntry u) : Prop where
  found : w.daemon.find path.tail = some entry
  free : .entry path.tail ∉ w.mutexes.held
  writable : entry.readonly = false

/-- A macroblock was written out during the request although it came next itself. -/
def Overran (p : Params) (fuel : ℕ) (l : Partition) (offset size : ℕ) (buf : Bytes) (tape : List ℕ) : Prop :=
  (cleanReq p fuel l offset size buf).run tape = .starved ∧ (reqWrite p fuel l offset size buf).run tape ≠ .starved

/-- A request that returns its size was carried out, and one that reaches past the end of the partition does not
return its size. -/
structure Reports (w : Locked u) (path : List UInt8) (entry : FuseIoEntry u) (size offset : ℕ) : Prop where
  wrote : ∀ fuel buf tape rest w', ¬ Overran (u.params entry.c) fuel (partitionOf w entry) offset size buf tape →
    (fuseIoWrite fuel w path buf size offset).run tape = .done ((size : ℤ), w') rest →
    ∀ out, ∃ out', fuseIoRead w' path out size offset = pure ((size : ℤ), out', w') ∧ ∀ i < size, out' i = buf i
  read : ∀ buf tape rest out w', (fuseIoRead w path buf size offset).run tape = .done ((size : ℤ), out, w') rest →
    ∀ i < size, out i = view (u.params entry.c) (partitionOf w entry) (offset + i)
  notWritten : pastEnd (u.params entry.c) (partitionOf w entry).noBlockIndices offset size → ∀ fuel buf tape rest w',
    (fuseIoWrite fuel w path buf size offset).run tape ≠ .done ((size : ℤ), w') rest
  notRead : pastEnd (u.params entry.c) (partitionOf w entry).noBlockIndices offset size → ∀ buf tape rest out w',
    (fuseIoRead w path buf size offset).run tape ≠ .done ((size : ℤ), out, w') rest

/-! ## The two calls -/

theorem toInt_of_lt (small : size < 2 ^ 31) : toInt size = size := Int.bmod_eq_of_le (by omega) (by omega)

/-- The return value is too small for such a request. -/
theorem toInt_ne (large : 2 ^ 31 ≤ size) : toInt size ≠ size := by
  have bound := Int.bmod_lt (x := (size : ℤ)) (m := 2 ^ 32) (by decide)
  unfold toInt
  omega

/-- An entry that is replaced is found afterwards. -/
theorem find_put {d : Daemon u} {name : List UInt8} {old : FuseIoEntry u} (found : d.find name = some old)
    (key : entry.key = old.key) : (d.put entry).find name = some entry := by
  have named : old.key = name := (Control.find_eq_some found).2
  rw [Daemon.find, Daemon.put, List.find?_map]
  have same : ((fun e : FuseIoEntry u => decide (e.key = name)) ∘ fun other => if other.key = entry.key then entry else other) =
      fun e => decide (e.key = name) := by
    funext other
    rw [Function.comp_apply]
    split
    · next replaced => rw [replaced]
    · rfl
  rw [same, show d.entries.find? (fun e => decide (e.key = name)) = some old from found, Option.map_some,
    if_pos key.symm]

theorem Offers.find (offers : Offers w path entry) : ∃ mutexes,
    hashtblFindElementBykey w path.tail = .ok (some entry, { w with mutexes }) ∧
      mutexes.unlock (.entry path.tail) = w.mutexes := by
  have held := Holding.lock_eq_some_iff.mpr ⟨offers.free, rfl⟩
  refine ⟨_, ?_, Holding.unlock_of_lock held⟩
  rw [hashtblFindElementBykey, offers.found]
  exact Except.bind_eq_ok_iff.mpr ⟨_, pthdMutexLock_eq_ok_iff.mpr ⟨_, held, rfl⟩, rfl⟩

theorem Offers.fuseIoRead (offers : Offers w path entry) (buf : Bytes) (size offset : ℕ) :
    fuseIoRead w path buf size offset =
      reqRead (u.params entry.c) (partitionOf w entry) offset size buf >>= fun out => pure (toInt size, out, w) := by
  obtain ⟨mutexes, found, unlocked⟩ := offers.find
  rw [Locking.fuseIoRead, found]
  simp only [Draw.lift_ok, Draw.ret_bind, hashtblUnlockElementByptr, unlocked]

theorem Offers.fuseIoWrite (offers : Offers w path entry) (fuel : ℕ) (buf : Bytes) (size offset : ℕ) :
    fuseIoWrite fuel w path buf size offset =
      reqWrite (u.params entry.c) fuel (partitionOf w entry) offset size buf >>= fun l =>
        pure (toInt size, { w with daemon := w.daemon.putIo entry { entry.io with l } }) := by
  obtain ⟨mutexes, found, unlocked⟩ := offers.find
  rw [Locking.fuseIoWrite, found]
  simp only [Draw.lift_ok, Draw.ret_bind, offers.writable, check, if_pos, hashtblUnlockElementByptr, unlocked]

/-- After a write the partition is there as before. -/
theorem Offers.wrote (offers : Offers w path entry) (l : Partition) :
    Offers { w with daemon := w.daemon.putIo entry { entry.io with l } } path { entry with io := { entry.io with l } } where
  found := find_put (d := { w.daemon with b := l.dev.b }) offers.found rfl
  free := offers.free
  writable := offers.writable

/-! ## What is reported -/

theorem blit_zero_inside (out src : Bytes) {i : ℕ} (less : i < size) : Memory.blit out 0 size src i = src i := by
  have read : Memory.blit out 0 size src (0 + i) = src i := Memory.blit_inside out src less
  rwa [Nat.zero_add] at read

/-- A request past the end does nothing and returns its size. -/
theorem Offers.read_past (offers : Offers w path entry)
    (past : pastEnd (u.params entry.c) (partitionOf w entry).noBlockIndices offset size) (buf : Bytes) :
    Locking.fuseIoRead w path buf size offset = pure (toInt size, buf, w) := by
  rw [offers.fuseIoRead, reqRead, doReq, if_pos past]
  rfl

/-- A size that does not fit is not returned. -/
theorem Offers.reports_of_large (offers : Offers w path entry) (large : 2 ^ 31 ≤ size) :
    Reports w path entry size offset := by
  have writes {fuel buf tape rest w'} : (Locking.fuseIoWrite fuel w path buf size offset).run tape ≠
      .done ((size : ℤ), w') rest := by
    rw [offers.fuseIoWrite]
    intro ran
    obtain ⟨_, _, -, returns⟩ := Draw.bind_done_iff.mp ran
    injection returns with returned
    exact toInt_ne large (Prod.mk.inj returned).1
  have reads {buf tape rest out w'} : (Locking.fuseIoRead w path buf size offset).run tape ≠
      .done ((size : ℤ), out, w') rest := by
    rw [offers.fuseIoRead]
    intro ran
    obtain ⟨_, _, -, returns⟩ := Draw.bind_done_iff.mp ran
    injection returns with returned
    exact toInt_ne large (Prod.mk.inj returned).1
  exact ⟨fun _ _ _ _ _ _ ran => absurd ran writes, fun _ _ _ _ _ ran => absurd ran reads, fun _ _ _ _ _ _ => writes,
    fun _ _ _ _ _ _ => reads⟩

/-- What was written can be read. -/
theorem Offers.write_read (offers : Offers w path entry) (tidy : Tidy (u.params entry.c) (partitionOf w entry))
    (current : (partitionOf w entry).dev.bi ≠ none) (offset64 : offset < 2 ^ 63) (small : size < 2 ^ 31)
    (inside : offset + size ≤ (partitionOf w entry).noBlockIndices * (u.params entry.c).mesoblkSize) {rest : List ℕ}
    (clean : ¬ Overran (u.params entry.c) fuel (partitionOf w entry) offset size buf tape)
    (ran : (Locking.fuseIoWrite fuel w path buf size offset).run tape = .done ((size : ℤ), w') rest) (out : Bytes) :
    ∃ out', Locking.fuseIoRead w' path out size offset = pure ((size : ℤ), out', w') ∧ ∀ i < size, out' i = buf i := by
  rw [offers.fuseIoWrite] at ran
  obtain ⟨l, mid, wrote, returns⟩ := Draw.bind_done_iff.mp ran
  injection returns with returned
  obtain rfl := (Prod.mk.inj returned).2
  have cleaned : (cleanReq (u.params entry.c) fuel (partitionOf w entry) offset size buf).run tape = .done l mid := by
    rcases cleanReq_follows fuel (partitionOf w entry) offset size buf tape with starved | same
    · exact absurd ⟨starved, by rw [wrote]; exact nofun⟩ clean
    · exact same.symm.trans wrote
  obtain ⟨serves, written⟩ := (tidy.cleanReq current fuel offset64 (by omega) buf).of_done cleaned
  rw [if_pos inside] at written
  have reads := serves.tidy.reqRead offset64 (by omega) (serves.noBlockIndices ▸ inside) out
  refine ⟨Memory.blit out 0 size fun i => view (u.params entry.c) l (offset + i), ?_, fun i less => ?_⟩
  · rw [(offers.wrote l).fuseIoRead, toInt_of_lt small]
    exact congrArg (· >>= fun out => pure ((size : ℤ), out, _)) reads
  · rw [blit_zero_inside out _ less, written, Memory.blit_inside _ _ less]

/-- A request inside the partition is reported as it was carried out. -/
theorem Offers.reports_of_inside (offers : Offers w path entry) (tidy : Tidy (u.params entry.c) (partitionOf w entry))
    (current : (partitionOf w entry).dev.bi ≠ none) (offset64 : offset < 2 ^ 63) (positive : 1 ≤ size)
    (small : size < 2 ^ 31)
    (inside : offset + size ≤ (partitionOf w entry).noBlockIndices * (u.params entry.c).mesoblkSize) :
    Reports w path entry size offset := by
  have notPast : ¬ pastEnd (u.params entry.c) (partitionOf w entry).noBlockIndices offset size := by
    rw [pastEnd_iff offset64 positive (by omega)]
    exact not_lt.mpr inside
  refine ⟨fun fuel buf tape rest w' clean ran => offers.write_read tidy current offset64 small inside clean ran,
    fun buf tape rest out w' ran i less => ?_, fun past => absurd past notPast, fun past => absurd past notPast⟩
  rw [offers.fuseIoRead, tidy.reqRead offset64 (by omega) inside buf] at ran
  injection ran with returned
  obtain rfl := (Prod.mk.inj (Prod.mk.inj returned).2).1
  exact blit_zero_inside buf _ less

end Scubed3.Locking
