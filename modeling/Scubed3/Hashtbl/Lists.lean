import Scubed3.Model.Hashtbl

/-! # The lists of a hash table

The pointers of a table as lists of elements, one for each bucket (`Chains`). An element is added in two steps:
its own pointer is set to the first element of the bucket, and then it becomes the first element. It is removed in
one step. Nothing else changes the pointers.
-/

namespace Scubed3.Hashtbl

open LinkedCells

variable {κ : Type} {h : Hashtbl κ} {next next' : Cell κ → Option (Elt κ)} {chain : ℕ → List (Elt κ)}
  {elt elt2 : Elt κ} {bucket : ℕ} {eltp eltp' : Cell κ}

/-- `get_bucket` gives one of the buckets. -/
theorem getBucket_lt (h : Hashtbl κ) (key : κ) : h.getBucket key < h.noBuckets := by
  rw [getBucket, noBuckets, Nat.one_shiftLeft]
  refine Nat.and_lt_two_pow _ ?_
  rw [Nat.shiftRight_eq_div_pow, Nat.div_lt_iff_lt_mul (Nat.two_pow_pos _), ← Nat.pow_add,
    show h.keyBits + (32 - h.keyBits) = 32 by have := h.keyBits_le; omega]
  decide

/-- The element is linked in its bucket. -/
def IsLinked (h : Hashtbl κ) (next : Cell κ → Option (Elt κ)) (elt : Elt κ) : Prop :=
  Reach .elt next (.bucket (h.getBucket elt.key)) elt

/-- The pointer belongs to the list of a bucket. -/
def InBucket (next : Cell κ → Option (Elt κ)) (bucket : ℕ) (eltp : Cell κ) : Prop :=
  eltp = .bucket bucket ∨ ∃ elt, Reach .elt next (.bucket bucket) elt ∧ eltp = .elt elt

/-- Every bucket has a list, of the elements whose keys belong there. Keys occur once. -/
structure Chains (h : Hashtbl κ) (next : Cell κ → Option (Elt κ)) (chain : ℕ → List (Elt κ)) : Prop where
  linked : ∀ bucket, Linked .elt next (.bucket bucket) (chain bucket)
  bucket : ∀ bucket, ∀ elt ∈ chain bucket, h.getBucket elt.key = bucket
  keys : ∀ bucket, ((chain bucket).map Elt.key).Nodup

namespace Chains

variable (chains : Chains h next chain)

include chains

theorem nodup (bucket : ℕ) : (chain bucket).Nodup := (chains.keys bucket).of_map Elt.key

theorem isLinked_iff : IsLinked h next elt ↔ elt ∈ chain (h.getBucket elt.key) := (chains.linked _).reach_iff

theorem isLinked (reach : Reach .elt next (.bucket bucket) elt) : h.getBucket elt.key = bucket ∧ IsLinked h next elt := by
  have here := chains.bucket bucket elt ((chains.linked bucket).reach_iff.mp reach)
  refine ⟨here, ?_⟩
  rwa [IsLinked, here]

theorem inBucket_iff : InBucket next bucket eltp ↔ OnList .elt (.bucket bucket) (chain bucket) eltp := by
  unfold InBucket OnList
  simp only [(chains.linked bucket).reach_iff]

theorem reach_of_next (inBucket : InBucket next bucket eltp) (points : next eltp = some elt) :
    Reach .elt next (.bucket bucket) elt :=
  (chains.linked bucket).reach_iff.mpr
    ((chains.linked bucket).mem_of_next (chains.inBucket_iff.mp inBucket) points)

theorem isLinked_of_next (inBucket : InBucket next bucket eltp) (points : next eltp = some elt) :
    h.getBucket elt.key = bucket ∧ IsLinked h next elt := chains.isLinked (chains.reach_of_next inBucket points)

/-- Two elements with one key are not linked. -/
theorem eq_of_key (linked : IsLinked h next elt) (linked2 : IsLinked h next elt2) (same : elt.key = elt2.key) :
    elt = elt2 := by
  have mem := chains.isLinked_iff.mp linked
  have mem2 := chains.isLinked_iff.mp linked2
  rw [← same] at mem2
  exact List.inj_on_of_nodup_map (chains.keys _) mem mem2 same

theorem isLinked_of_inBucket (inBucket : InBucket next bucket (.elt elt)) : IsLinked h next elt := by
  rcases inBucket with same | ⟨elt2, reach, same⟩
  · cases same
  · cases same
    exact (chains.isLinked reach).2

/-- An element has one predecessor. -/
theorem predecessor {bucket' : ℕ} (inBucket : InBucket next bucket eltp) (inBucket' : InBucket next bucket' eltp')
    (points : next eltp = some elt) (points' : next eltp' = some elt) : eltp = eltp' := by
  obtain rfl := (chains.isLinked_of_next inBucket points).1
  obtain rfl := (chains.isLinked_of_next inBucket' points').1
  exact (chains.linked _).predecessor (chains.nodup _) (chains.inBucket_iff.mp inBucket)
    (chains.inBucket_iff.mp inBucket') points points'

end Chains

/-- The pointer is in the bucket of the element and points to it. -/
structure PointsTo (h : Hashtbl κ) (next : Cell κ → Option (Elt κ)) (eltp : Cell κ) (elt : Elt κ) : Prop where
  inBucket : InBucket next (h.getBucket elt.key) eltp
  points : next eltp = some elt

theorem Chains.pointsTo (chains : Chains h next chain) (inBucket : InBucket next bucket eltp)
    (points : next eltp = some elt) : PointsTo h next eltp elt := by
  obtain rfl := (chains.isLinked_of_next inBucket points).1
  exact ⟨inBucket, points⟩

/-- No element with this key is linked. -/
def Absent (h : Hashtbl κ) (next : Cell κ → Option (Elt κ)) (key : κ) : Prop :=
  ∀ elt, Reach .elt next (.bucket (h.getBucket key)) elt → elt.key ≠ key

/-! ## Pointers that change -/

namespace Chains

variable (chains : Chains h next chain)

include chains

/-- What is behind a pointer of a bucket is in the bucket. -/
theorem reach_bucket (inBucket : InBucket next bucket eltp) (reach : Reach .elt next eltp elt) :
    Reach .elt next (.bucket bucket) elt :=
  (chains.linked bucket).reach_iff.mpr ((chains.linked bucket).reach_mem (chains.inBucket_iff.mp inBucket) reach)

/-- Pointers outside of a bucket do not matter for it. -/
theorem reach_frame (inBucket : InBucket next bucket eltp) (reach : Reach .elt next eltp elt)
    (same : ∀ eltp', InBucket next bucket eltp' → next' eltp' = next eltp') : Reach .elt next' eltp elt := by
  obtain ⟨l, linked, mem⟩ := reach
  refine ⟨l, linked.frame fun eltp' on => same eltp' ?_, mem⟩
  rcases on with rfl | ⟨elt2, mem2, rfl⟩
  · exact inBucket
  · exact .inr ⟨elt2, chains.reach_bucket inBucket ⟨l, linked, mem2⟩, rfl⟩

theorem congr (same : ∀ bucket eltp, InBucket next bucket eltp → next' eltp = next eltp) : Chains h next' chain where
  linked bucket := (chains.linked bucket).frame fun eltp on => same bucket eltp (chains.inBucket_iff.mpr on)
  bucket := chains.bucket
  keys := chains.keys

/-- An element is not its own predecessor. -/
theorem elt_ne (pointsTo : PointsTo h next eltp elt) : .elt elt ≠ eltp := by
  rintro rfl
  have mem := chains.isLinked_iff.mp (chains.isLinked_of_inBucket pointsTo.inBucket)
  classical
  exact Nat.lt_irrefl _ ((chains.linked _).idxOf_lt (chains.nodup _) mem pointsTo.points)

/-- Only one pointer of the lists points to an element. -/
theorem only {bucket' : ℕ} (pointsTo : PointsTo h next eltp elt) (inBucket : InBucket next bucket' eltp')
    (points : next eltp' = some elt) : eltp' = eltp := chains.predecessor inBucket pointsTo.inBucket points pointsTo.points

variable [DecidableEq κ]

/-- The pointer of an element that is not linked is outside of the lists. -/
theorem outside {elt' : Option (Elt κ)} (unlinked : ¬ IsLinked h next elt) (inBucket : InBucket next bucket eltp) :
    Function.update next (.elt elt) elt' eltp = next eltp := by
  refine Function.update_of_ne ?_ _ _
  rintro rfl
  exact unlinked (chains.isLinked_of_inBucket inBucket)

theorem prepare {elt' : Option (Elt κ)} (unlinked : ¬ IsLinked h next elt) :
    Chains h (Function.update next (.elt elt) elt') chain := chains.congr fun _ _ => chains.outside unlinked

theorem reach_prepare_iff {elt' : Option (Elt κ)} (unlinked : ¬ IsLinked h next elt) :
    Reach .elt (Function.update next (.elt elt) elt') (.bucket bucket) elt2 ↔ Reach .elt next (.bucket bucket) elt2 := by
  rw [((chains.prepare unlinked).linked bucket).reach_iff, (chains.linked bucket).reach_iff]

/-- An element that is not linked becomes the first one. -/
theorem insert (absent : Absent h next elt.key) (ready : next (.elt elt) = next (.bucket (h.getBucket elt.key))) :
    Chains h (Function.update next (.bucket (h.getBucket elt.key)) (some elt))
      (Function.update chain (h.getBucket elt.key) (elt :: chain (h.getBucket elt.key))) where
  linked bucket := by
    by_cases here : bucket = h.getBucket elt.key
    · rw [here, Function.update_self]
      exact (chains.linked _).insert ready nofun fun _ _ => nofun
    · rw [Function.update_of_ne here]
      refine (chains.linked bucket).frame fun eltp on => Function.update_of_ne ?_ _ _
      rintro rfl
      rcases on with same | ⟨_, _, same⟩
      · cases same
        exact here rfl
      · cases same
  bucket := by
    intro bucket elt2 mem
    by_cases here : bucket = h.getBucket elt.key
    · rw [here, Function.update_self] at mem
      rcases List.mem_cons.mp mem with rfl | mem
      · exact here.symm
      · rw [here]
        exact chains.bucket _ elt2 mem
    · rw [Function.update_of_ne here] at mem
      exact chains.bucket bucket elt2 mem
  keys := by
    intro bucket
    by_cases here : bucket = h.getBucket elt.key
    · rw [here, Function.update_self, List.map_cons, List.nodup_cons]
      refine ⟨fun mem => ?_, chains.keys _⟩
      obtain ⟨elt2, mem, same⟩ := List.mem_map.mp mem
      exact absent elt2 ((chains.linked _).reach_iff.mpr mem) same
    · rw [Function.update_of_ne here]
      exact chains.keys bucket

/-- An element is removed. -/
theorem remove (pointsTo : PointsTo h next eltp elt) :
    Chains h (Function.update next eltp (next (.elt elt))) (fun bucket => (chain bucket).filter (· ≠ elt)) where
  linked bucket := (chains.linked bucket).remove pointsTo.points (chains.elt_ne pointsTo) fun _ on points =>
    chains.only pointsTo (chains.inBucket_iff.mpr on) points
  bucket bucket elt2 mem := chains.bucket bucket elt2 (List.mem_of_mem_filter mem)
  keys bucket := (chains.keys bucket).sublist (List.filter_sublist.map Elt.key)

/-- What is behind a pointer of a bucket after an element was removed. -/
theorem linked_remove {l : List (Elt κ)} (pointsTo : PointsTo h next eltp elt) (inBucket : InBucket next bucket eltp')
    (linked : Linked .elt next eltp' l) :
    Linked .elt (Function.update next eltp (next (.elt elt))) eltp' (l.filter (· ≠ elt)) := by
  refine linked.remove pointsTo.points (chains.elt_ne pointsTo) fun c on points => ?_
  have inside : InBucket next bucket c := ?_
  · exact chains.only pointsTo inside points
  rcases on with rfl | ⟨elt3, mem3, rfl⟩
  · exact inBucket
  · exact .inr ⟨elt3, chains.reach_bucket inBucket ⟨l, linked, mem3⟩, rfl⟩

/-- What was behind a pointer of a bucket is still there after another element was removed. -/
theorem reach_remove (pointsTo : PointsTo h next eltp elt) (inBucket : InBucket next bucket eltp')
    (reach : Reach .elt next eltp' elt2) (other : elt2 ≠ elt) :
    Reach .elt (Function.update next eltp (next (.elt elt))) eltp' elt2 := by
  obtain ⟨l, linked, mem⟩ := reach
  exact ⟨_, chains.linked_remove pointsTo inBucket linked, List.mem_filter.mpr ⟨mem, by simpa using other⟩⟩

theorem reach_insert_iff (absent : Absent h next elt.key)
    (ready : next (.elt elt) = next (.bucket (h.getBucket elt.key))) :
    Reach .elt (Function.update next (.bucket (h.getBucket elt.key)) (some elt)) (.bucket bucket) elt2 ↔
      Reach .elt next (.bucket bucket) elt2 ∨ elt2 = elt ∧ bucket = h.getBucket elt.key := by
  rw [((chains.insert absent ready).linked bucket).reach_iff, (chains.linked bucket).reach_iff]
  by_cases here : bucket = h.getBucket elt.key
  · subst here
    rw [Function.update_self, List.mem_cons, or_comm, and_iff_left rfl]
  · rw [Function.update_of_ne here]
    simp [here]

theorem reach_remove_iff (pointsTo : PointsTo h next eltp elt) :
    Reach .elt (Function.update next eltp (next (.elt elt))) (.bucket bucket) elt2 ↔
      Reach .elt next (.bucket bucket) elt2 ∧ elt2 ≠ elt := by
  rw [((chains.remove pointsTo).linked bucket).reach_iff, (chains.linked bucket).reach_iff, List.mem_filter]
  simp

end Chains

end Scubed3.Hashtbl
