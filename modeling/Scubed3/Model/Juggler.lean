import Scubed3.ToMathlib.KeyedInsert
import Scubed3.Model.BlockioInfo
import Scubed3.Model.Binio

/-! # The juggler: which macroblock is written next

`juggler.c` hands out the macroblocks of one partition. Blocks that were never handed out are
unscheduled; a block that was is scheduled: its `next_seqno` says at which sequence number it is
handed out again. The scheduled list is sorted on that number. `getDevblock` takes the block that
is due, or a random unscheduled one, and immediately decides when it will be seen again.

The loop of `getDevblock` has no bound in the source; here it may take `fuel` turns and starves when
it wants more. Sequence numbers are natural numbers.
-/

namespace Scubed3

/-- `juggler_t`. The two singly linked lists are lists of macroblock numbers, head first. -/
structure Juggler where
  scheduled : List ℕ := []
  unscheduled : List ℕ := []
  noScheduled : ℕ := 0
  noUnscheduled : ℕ := 0
  seqno : ℕ := 0
deriving DecidableEq, Repr

/-- The `next` pointer of `b` inside a list. -/
def linkedNext (list : List ℕ) (b : ℕ) : Option ℕ := (list.dropWhile (· ≠ b)).tail.head?

namespace Juggler

/-- `juggler_init`. -/
def init : Juggler := {}

/-- `juggler_count`. -/
def count (j : Juggler) : ℕ := j.noScheduled + j.noUnscheduled

/-- `juggler_notify_seqno`. -/
def notifySeqno (j : Juggler) (seqno : ℕ) : Juggler :=
  if seqno > j.seqno then { j with seqno := seqno } else j

/-- `juggler_add_macroblock`. -/
def addMacroblock (j : Juggler) (infos : BlockioInfos) (b : ℕ) : Except Failure Juggler := do
  check (linkedNext j.scheduled b = none ∧ linkedNext j.unscheduled b = none) "!b->next"
  if (infos b).seqno = 0 ∧ (infos b).nextSeqno = 0 then -- new block
    return { j with unscheduled := b :: j.unscheduled, noUnscheduled := j.noUnscheduled + 1 }
  else if (infos b).seqno < (infos b).nextSeqno then -- block that is in use
    match j.scheduled.insertByKey (fun c => (infos c).nextSeqno) b with
    | some scheduled =>
      return { j with scheduled, noScheduled := j.noScheduled + 1 }.notifySeqno (infos b).seqno
    | none => throw (.assertion "!(*iterate) || (*iterate)->next_seqno > b->next_seqno")
  else throw (.assertion "0") -- nonsensical block

/-- `juggler_get_obsoleted`. -/
def getObsoleted (j : Juggler) (infos : BlockioInfos) : Option ℕ :=
  match j.scheduled with
  | ret :: _ => if (infos ret).nextSeqno = j.seqno + 1 then some ret else none
  | [] => none

/-- `juggler_discard_possible`, for `next` the head of the scheduled list or `NULL`. -/
def discardPossible (j : Juggler) (infos : BlockioInfos) : Option ℕ → Bool
  | some next =>
    !(j.noUnscheduled == 0 &&
      match linkedNext j.scheduled next with
      | none => true
      | some after => (infos after).nextSeqno != (infos next).nextSeqno + 1)
  | none => !(j.noUnscheduled < 2)

/-- `juggler_hash_scheduled_seqnos`. -/
def hashScheduledSeqnos (hash : List UInt8 → Hash) (j : Juggler) (infos : BlockioInfos) : Hash :=
  hash (j.scheduled.flatMap fun b => Binio.uint64Be (infos b).seqno)

/-- Walk `index` links into a list and unlink the block found there. -/
def unlinkNth : List ℕ → (index : ℕ) → Except Failure (ℕ × List ℕ)
  | [], _ => .error (.null "*iterate")
  | b :: rest, 0 => .ok (b, rest)
  | b :: rest, index + 1 => do
    let (next, rest) ← unlinkNth rest index
    return (next, b :: rest)

/-- The `do … while (1)` loop of `juggler_get_devblock`. `iterate` is the part of the scheduled
list from `*iterate` on; the result is `next->next_seqno` and that part with `next` linked in. -/
def place (infos : BlockioInfos) (next : ℕ) :
    (fuel nextSeqno availableBlocks : ℕ) → (iterate : List ℕ) → Draw Failure (ℕ × List ℕ)
  | 0, _, _, _ => .starve
  | fuel + 1, nextSeqno, availableBlocks, iterate => do
    if iterate.head?.map (fun c => (infos c).nextSeqno) = some (nextSeqno + 1) then
      -- another block is scheduled to appear here
      let (chosen, rest) ← place infos next fuel (nextSeqno + 1) (availableBlocks + 1) iterate.tail
      return (chosen, iterate.take 1 ++ rest)
    else
      let outcome ← randomCustom availableBlocks
      if outcome = 0 then return (nextSeqno + 1, next :: iterate)
      else place infos next fuel (nextSeqno + 1) availableBlocks iterate

/-- `juggler_get_devblock` from `j->seqno++` on, with `next` already unlinked. -/
def reschedule (fuel : ℕ) (j : Juggler) (infos : BlockioInfos) (next : ℕ) (discard : Bool) :
    Draw Failure (Option ℕ × Juggler × BlockioInfos) := do
  if discard then
    check (j.noUnscheduled > 0 ∨
        j.scheduled.head?.map (fun c => (infos c).nextSeqno) = some (j.seqno + 1 + 1))
      "j->no_unscheduled > 0 || (j->scheduled && j->scheduled->next_seqno == next->seqno + 1)"
    return (some next, { j with seqno := j.seqno + 1 },
      infos.set next { infos next with seqno := j.seqno + 1, nextSeqno := j.seqno + 1 })
  else
    let (nextSeqno, scheduled) ←
      place infos next fuel (j.seqno + 1) (j.noUnscheduled + 1) j.scheduled
    return (some next, { j with seqno := j.seqno + 1, scheduled, noScheduled := j.noScheduled + 1 },
      infos.set next { infos next with seqno := j.seqno + 1, nextSeqno })

/-- `juggler_get_devblock`. -/
def getDevblock (fuel : ℕ) (j : Juggler) (infos : BlockioInfos) (discard : Bool) :
    Draw Failure (Option ℕ × Juggler × BlockioInfos) := do
  if discard && !j.discardPossible infos (j.getObsoleted infos) then return (none, j, infos)
  else
    match j.getObsoleted infos with
    | some next =>
      reschedule fuel { j with scheduled := j.scheduled.tail, noScheduled := j.noScheduled - 1 }
        infos next discard
    | none =>
      check (j.unscheduled ≠ [] ∧ j.noUnscheduled ≠ 0) "j->unscheduled && j->no_unscheduled != 0"
      let index ← randomCustom j.noUnscheduled
      let (next, unscheduled) ← unlinkNth j.unscheduled index
      if discard then
        check (j.noUnscheduled - 1 > 0) "j->no_unscheduled > 0"
        return (some next, { j with unscheduled, noUnscheduled := j.noUnscheduled - 1 },
          infos.set next { infos next with seqno := 0, nextSeqno := 0 })
      else
        reschedule fuel { j with unscheduled, noUnscheduled := j.noUnscheduled - 1 } infos next discard

end Juggler

end Scubed3
