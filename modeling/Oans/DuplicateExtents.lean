import Oans.DuplicateFiles

/-!
# The extents table and its duplicate groups

`GET_DUPLICATE_EXTENTS` selection by selection, and the loader that feeds its result to a results
tree. Extents of whole-file duplicates are left out wherever `extents` is read; a window loads the
extents new in it and one older copy of each group, the anchor.
-/

namespace Oans

open IntervalCut

structure ExtentRow (δ : Type*) where
  rowid : ℤ
  digest : δ
  fileid : ℤ
  loff : ℕ
  poff : ℕ
  len : ℕ
  deriving DecidableEq, Repr

/-- `UNIQUE(fileid, loff, len)` beside the rowid. -/
structure ExtentsTable (δ : Type*) where
  rows : List (ExtentRow δ)
  rowids_nodup : (rows.map ExtentRow.rowid).Nodup
  unique : (rows.map fun e => (e.fileid, e.loff, e.len)).Nodup

/-- A row of `extents e join files f on e.fileid = f.id`. -/
structure JoinedExtent (δ : Type*) where
  extent : ExtentRow δ
  file : FileRow δ
  deriving DecidableEq, Repr

namespace JoinedExtent

variable {δ : Type*}

def key (j : JoinedExtent δ) : δ × ℕ := (j.extent.digest, j.extent.len)

/-- `order by wo.dedupe_seq, wo.id, o.rowid`. -/
def Before (a b : JoinedExtent δ) : Prop :=
  a.file.dedupeSeq < b.file.dedupeSeq ∨ a.file.dedupeSeq = b.file.dedupeSeq ∧
    (a.file.id < b.file.id ∨ a.file.id = b.file.id ∧ a.extent.rowid ≤ b.extent.rowid)

instance : DecidableRel (Before (δ := δ)) := fun _ _ => inferInstanceAs (Decidable (_ ∨ _))

instance : Std.Total (Before (δ := δ)) where
  total a b := by unfold Before; omega

instance : IsTrans (JoinedExtent δ) Before where
  trans a b c := by unfold Before; omega

def toExtent (j : JoinedExtent δ) : Extent :=
  ⟨j.extent.fileid, j.extent.loff, j.extent.poff, j.extent.len⟩

end JoinedExtent

/-- A row of `GET_DUPLICATE_EXTENTS` with the columns it is ordered by. -/
structure LoadedExtent (δ : Type*) where
  digest : δ
  fileid : ℤ
  loff : ℕ
  len : ℕ
  poff : ℕ
  n : ℕ
  s : ℕ
  r : ℤ
  deriving DecidableEq, Repr

/-- `order by n, s, fileid, r`. -/
def LoadedExtent.le {δ : Type*} (a b : LoadedExtent δ) : Prop :=
  a.n < b.n ∨ a.n = b.n ∧ (a.s < b.s ∨ a.s = b.s ∧
    (a.fileid < b.fileid ∨ a.fileid = b.fileid ∧ a.r ≤ b.r))

instance {δ : Type*} : DecidableRel (LoadedExtent.le (δ := δ)) := fun _ _ =>
  inferInstanceAs (Decidable (_ ∨ _))

instance {δ : Type*} : Std.Total (LoadedExtent.le (δ := δ)) where
  total a b := by unfold LoadedExtent.le; omega

instance {δ : Type*} : IsTrans (LoadedExtent δ) LoadedExtent.le where
  trans a b c := by unfold LoadedExtent.le; omega

def LoadedExtent.extent {δ : Type*} (y : LoadedExtent δ) : Extent := ⟨y.fileid, y.loff, y.poff, y.len⟩

def JoinedExtent.loaded {δ : Type*} (j : JoinedExtent δ) (n s : ℕ) : LoadedExtent δ :=
  ⟨j.extent.digest, j.extent.fileid, j.extent.loff, j.extent.len, j.extent.poff, n, s,
    j.extent.rowid⟩

variable {δ : Type*}

def FileRow.isInlined (r : FileRow δ) : Bool := r.flags.any fun f => f &&& fileInlined != 0

variable [DecidableEq δ]

/-- `not FILEDUP_MEMBER(f)`: one of the three conjuncts is known to be false. -/
def FilesTable.notFiledup (t : FilesTable δ) (f : FileRow δ) : Bool :=
  f.digest.isNone || f.isInlined ||
    !t.rows.any fun d => decide (d.key = f.key) && decide (d.id ≠ f.id) && d.notInlined

namespace ExtentsTable

variable (x : ExtentsTable δ) (t : FilesTable δ)

def joined : List (JoinedExtent δ) :=
  x.rows.flatMap fun e => (t.rows.filter fun f => decide (e.fileid = f.id)).map fun f => ⟨e, f⟩

def eligible : List (JoinedExtent δ) := (x.joined t).filter fun j => t.notFiledup j.file

def group (k : δ × ℕ) : List (JoinedExtent δ) := (x.eligible t).filter fun j => decide (j.key = k)

def olderCopies (lo : ℕ) (k : δ × ℕ) : List (JoinedExtent δ) :=
  (x.group t k).filter fun j => decide (j.file.dedupeSeq ≤ lo)

def anchor (lo : ℕ) (k : δ × ℕ) : Option (JoinedExtent δ) :=
  if 0 < lo then ((x.olderCopies t lo k).insertionSort JoinedExtent.Before).head? else none

def newExtents (lo hi : ℕ) : List (JoinedExtent δ) :=
  (x.eligible t).filter fun j => j.file.inWindow lo hi

/-- `g0` and `grp`. -/
def grp (lo hi : ℕ) : List (δ × ℕ) :=
  ((x.newExtents t lo hi).map JoinedExtent.key).dedup.filter fun k =>
    decide (1 < (x.newExtents t lo hi).countP fun j => decide (j.key = k)) ||
      (x.anchor t lo k).isSome

def getDuplicateExtents (lo hi : ℕ) : List (LoadedExtent δ) :=
  (((x.newExtents t lo hi).filter fun j => decide (j.key ∈ x.grp t lo hi)).map
      (fun j => j.loaded 1 j.file.dedupeSeq) ++
    (x.grp t lo hi).filterMap fun k => (x.anchor t lo k).map fun j => j.loaded 0 0).insertionSort
      LoadedExtent.le

end ExtentsTable

section Load

def findOrLoadFilerec (t : FilesTable δ) (recs : List Filerec) (fileid : ℤ) : List Filerec :=
  match filerecFind recs fileid with
  | some _ => recs
  | none => ((t.rows.find? fun f => decide (f.id = fileid)).map
      fun f => (⟨f.id, f.filename, f.size⟩ : Filerec)).toList ++ recs

def loadExtent (t : FilesTable δ) (st : List Filerec × ResultsTree δ) (row : LoadedExtent δ) :
    List Filerec × ResultsTree δ :=
  (findOrLoadFilerec t st.1 row.fileid,
    st.2.insertOneResult row.digest row.fileid row.loff row.len row.poff)

def dbfileLoadExtentHashes (x : ExtentsTable δ) (t : FilesTable δ) (seqLo seqHi : ℕ)
    (st : List Filerec × ResultsTree δ) : List Filerec × ResultsTree δ :=
  (x.getDuplicateExtents t seqLo seqHi).foldl (loadExtent t) st

def extentTree (x : ExtentsTable δ) (t : FilesTable δ) (recs : List Filerec) (w : Window ℕ) :
    ResultsTree δ := (dbfileLoadExtentHashes x t w.lo w.hi (recs, .init)).2

def loadedExtents (x : ExtentsTable δ) (t : FilesTable δ) (recs : List Filerec) (w : Window ℕ)
    (k : δ × ℕ) : List Extent := (extentTree x t recs w).members k.1 k.2

end Load

namespace ExtentsTable

variable {x : ExtentsTable δ} {t : FilesTable δ} {lo hi : ℕ} {k : δ × ℕ} {j m : JoinedExtent δ}

omit [DecidableEq δ] in
theorem mem_joined : j ∈ x.joined t ↔
    j.extent ∈ x.rows ∧ j.file ∈ t.rows ∧ j.extent.fileid = j.file.id := by
  simp only [joined, List.mem_flatMap, List.mem_map, List.mem_filter, decide_eq_true_eq]
  constructor
  · rintro ⟨e, he, f, ⟨hf, hid⟩, rfl⟩
    exact ⟨he, hf, hid⟩
  · rintro ⟨he, hf, hid⟩
    exact ⟨_, he, _, ⟨hf, hid⟩, rfl⟩

theorem mem_group : j ∈ x.group t k ↔
    j ∈ x.joined t ∧ t.notFiledup j.file = true ∧ j.key = k := by
  simp only [group, eligible, List.mem_filter, decide_eq_true_eq, and_assoc]

theorem mem_newExtents : j ∈ x.newExtents t lo hi ↔
    j ∈ x.group t j.key ∧ j.file.inWindow lo hi = true := by
  simp [newExtents, group, List.mem_filter]

omit [DecidableEq δ] in
theorem eq_of_extent_eq (hj : j ∈ x.joined t) (hm : m ∈ x.joined t) (h : j.extent = m.extent) :
    j = m := by
  obtain ⟨-, hf, hid⟩ := mem_joined.mp hj
  obtain ⟨-, hf', hid'⟩ := mem_joined.mp hm
  have hfile : j.file = m.file := t.eq_of_id_eq hf hf' (by rw [← hid, ← hid', h])
  cases j
  cases m
  simp_all

omit [DecidableEq δ] in
theorem eq_of_rowid_eq (hj : j ∈ x.joined t) (hm : m ∈ x.joined t)
    (h : j.extent.rowid = m.extent.rowid) : j = m :=
  eq_of_extent_eq hj hm
    (List.inj_on_of_nodup_map x.rowids_nodup (mem_joined.mp hj).1 (mem_joined.mp hm).1 h)

omit [DecidableEq δ] in
theorem eq_of_place_eq (hj : j ∈ x.joined t) (hm : m ∈ x.joined t)
    (h : (j.extent.fileid, j.extent.loff, j.extent.len) =
      (m.extent.fileid, m.extent.loff, m.extent.len)) : j = m :=
  eq_of_extent_eq hj hm
    (List.inj_on_of_nodup_map x.unique (mem_joined.mp hj).1 (mem_joined.mp hm).1 h)

omit [DecidableEq δ] in
theorem joined_nodup (x : ExtentsTable δ) (t : FilesTable δ) : (x.joined t).Nodup := by
  rw [joined, List.nodup_flatMap]
  refine ⟨fun e _ => ?_, ?_⟩
  · refine List.Nodup.map (fun f f' h => congrArg JoinedExtent.file h) ?_
    exact (List.Nodup.of_map _ t.ids_nodup).filter _
  · refine (List.Nodup.of_map _ x.rowids_nodup).imp fun {e e'} hne => ?_
    intro j hj hj'
    simp only [List.mem_map, List.mem_filter] at hj hj'
    obtain ⟨f, -, rfl⟩ := hj
    obtain ⟨f', -, heq⟩ := hj'
    exact hne (congrArg JoinedExtent.extent heq).symm

theorem group_nodup (x : ExtentsTable δ) (t : FilesTable δ) (k : δ × ℕ) : (x.group t k).Nodup :=
  ((joined_nodup x t).filter _).filter _

/-- The purpose of the anchor: `m` comes first over *all* extents of its group. -/
def IsFirst (x : ExtentsTable δ) (t : FilesTable δ) (k : δ × ℕ) (m : JoinedExtent δ) : Prop :=
  m ∈ x.group t k ∧ ∀ j ∈ x.group t k, m.Before j

instance (x : ExtentsTable δ) (t : FilesTable δ) (k : δ × ℕ) (m : JoinedExtent δ) :
    Decidable (x.IsFirst t k m) := inferInstanceAs (Decidable (_ ∧ _))

theorem IsFirst.eq_of_before (h : x.IsFirst t k m) (hj : j ∈ x.group t k) (hle : j.Before m) :
    j = m := by
  have hge := h.2 j hj
  refine eq_of_rowid_eq (mem_group.mp hj).1 (mem_group.mp h.1).1 ?_
  unfold JoinedExtent.Before at hle hge
  omega

theorem exists_first (h : x.group t k ≠ []) : ∃ m, x.IsFirst t k m := by
  have hsorted := List.pairwise_insertionSort JoinedExtent.Before (x.group t k)
  cases hl : (x.group t k).insertionSort JoinedExtent.Before with
  | nil =>
    have hlen := List.length_insertionSort JoinedExtent.Before (x.group t k)
    rw [hl] at hlen
    exact absurd (List.length_eq_zero_iff.mp hlen.symm) h
  | cons m ms =>
    rw [hl] at hsorted
    refine ⟨m, (List.mem_insertionSort JoinedExtent.Before).mp (by simp [hl]), fun j hj => ?_⟩
    have hmem := (List.mem_insertionSort JoinedExtent.Before).mpr hj
    rw [hl] at hmem
    rcases List.mem_cons.mp hmem with rfl | hmem
    · exact (Std.Total.total (r := JoinedExtent.Before) _ _).elim id id
    · exact List.rel_of_pairwise_cons hsorted hmem

/-- With every generation at least 1, the anchor of a window is the first of the group's extents,
when that one is older than the window. -/
theorem anchor_eq (hgen : ∀ f ∈ t.rows, 1 ≤ f.dedupeSeq) (hm : x.IsFirst t k m) :
    x.anchor t lo k = if m.file.dedupeSeq ≤ lo then some m else none := by
  have hpos := hgen _ (mem_joined.mp (mem_group.mp hm.1).1).2.1
  unfold anchor
  by_cases hold : m.file.dedupeSeq ≤ lo
  · rw [if_pos (by omega), if_pos hold]
    have hmem : m ∈ x.olderCopies t lo k := List.mem_filter.mpr ⟨hm.1, by simpa using hold⟩
    have hsorted := List.pairwise_insertionSort JoinedExtent.Before (x.olderCopies t lo k)
    have hmem' := (List.mem_insertionSort JoinedExtent.Before).mpr hmem
    cases hl : (x.olderCopies t lo k).insertionSort JoinedExtent.Before with
    | nil => simp [hl] at hmem'
    | cons a l =>
      rw [hl] at hsorted hmem'
      have ha : a ∈ x.group t k := by
        have : a ∈ x.olderCopies t lo k :=
          (List.mem_insertionSort JoinedExtent.Before).mp (by simp [hl])
        exact (List.mem_filter.mp this).1
      have hle : a.Before m := by
        rcases List.mem_cons.mp hmem' with rfl | hmem'
        · exact hm.2 m hm.1
        · exact List.rel_of_pairwise_cons hsorted hmem'
      rw [List.head?_cons, hm.eq_of_before ha hle]
  · rw [if_neg hold]
    split_ifs with hlo
    · have hnone : x.olderCopies t lo k = [] := by
        rw [olderCopies, List.filter_eq_nil_iff]
        intro j hj
        have hle := hm.2 j hj
        unfold JoinedExtent.Before at hle
        simp only [decide_eq_true_eq]
        omega
      simp [hnone]
    · rfl

theorem anchor_mem (h : x.anchor t lo k = some m) : m ∈ x.group t k ∧ m.file.dedupeSeq ≤ lo := by
  unfold anchor at h
  split_ifs at h
  have hmem : m ∈ x.olderCopies t lo k :=
    (List.mem_insertionSort JoinedExtent.Before).mp (List.mem_of_mem_head? h)
  simpa [olderCopies, List.mem_filter] using hmem

theorem mem_grp : k ∈ x.grp t lo hi ↔ (∃ j ∈ x.newExtents t lo hi, j.key = k) ∧
    (1 < (x.newExtents t lo hi).countP (fun j => decide (j.key = k)) ∨
      (x.anchor t lo k).isSome = true) := by
  simp [grp, List.mem_filter, List.mem_dedup, List.mem_map]

theorem grp_nodup (x : ExtentsTable δ) (t : FilesTable δ) (lo hi : ℕ) : (x.grp t lo hi).Nodup :=
  (List.nodup_dedup _).filter _

def loadedJoined (x : ExtentsTable δ) (t : FilesTable δ) (lo hi : ℕ) : List (JoinedExtent δ) :=
  ((x.newExtents t lo hi).filter fun j => decide (j.key ∈ x.grp t lo hi)) ++
    (x.grp t lo hi).filterMap (x.anchor t lo)

theorem mem_loadedJoined : j ∈ x.loadedJoined t lo hi ↔ j.key ∈ x.grp t lo hi ∧
    (j ∈ x.newExtents t lo hi ∨ x.anchor t lo j.key = some j) := by
  simp only [loadedJoined, List.mem_append, List.mem_filter, decide_eq_true_eq, List.mem_filterMap]
  constructor
  · rintro (⟨hj, hk⟩ | ⟨k, hk, hanchor⟩)
    · exact ⟨hk, Or.inl hj⟩
    · obtain rfl := (mem_group.mp (anchor_mem hanchor).1).2.2
      exact ⟨hk, Or.inr hanchor⟩
  · rintro ⟨hk, hj | hanchor⟩
    · exact Or.inl ⟨hj, hk⟩
    · exact Or.inr ⟨_, hk, hanchor⟩

theorem loadedJoined_nodup (x : ExtentsTable δ) (t : FilesTable δ) (lo hi : ℕ) :
    (x.loadedJoined t lo hi).Nodup := by
  refine List.Nodup.append (((joined_nodup x t).filter _).filter _ |>.filter _) ?_ ?_
  · refine (grp_nodup x t lo hi).filterMap fun k k' j hk hk' => ?_
    rw [← (mem_group.mp (anchor_mem hk).1).2.2, (mem_group.mp (anchor_mem hk').1).2.2]
  · intro j hj hj'
    obtain ⟨k, -, hanchor⟩ := List.mem_filterMap.mp hj'
    have hnew := (mem_newExtents.mp (List.mem_filter.mp hj).1).2
    have hold := (anchor_mem hanchor).2
    simp only [FileRow.inWindow, decide_eq_true_eq] at hnew
    omega

theorem mem_joined_of_mem_loadedJoined (h : j ∈ x.loadedJoined t lo hi) : j ∈ x.joined t := by
  rcases (mem_loadedJoined.mp h).2 with hnew | hanchor
  · exact (mem_group.mp (mem_newExtents.mp hnew).1).1
  · exact (mem_group.mp (anchor_mem hanchor).1).1

theorem getDuplicateExtents_perm (x : ExtentsTable δ) (t : FilesTable δ) (lo hi : ℕ) :
    ((x.getDuplicateExtents t lo hi).map fun y => (y.digest, y.extent)).Perm
      ((x.loadedJoined t lo hi).map fun j => (j.extent.digest, j.toExtent)) := by
  refine ((List.perm_insertionSort _ _).map _).trans (List.Perm.of_eq ?_)
  rw [loadedJoined, List.map_append, List.map_append, List.map_map, List.map_filterMap,
    List.map_filterMap]
  congr 1
  refine List.filterMap_congr fun k _ => ?_
  cases x.anchor t lo k <;> rfl

end ExtentsTable

open ExtentsTable

section Groups

variable {x : ExtentsTable δ} {t : FilesTable δ} {recs : List Filerec} {w : Window ℕ} {k : δ × ℕ}
  {j m : JoinedExtent δ}

theorem foldl_loadExtent_snd (t : FilesTable δ) (l : List (LoadedExtent δ))
    (st : List Filerec × ResultsTree δ) :
    (l.foldl (loadExtent t) st).2 = st.2.insertAll (l.map fun y => (y.digest, y.extent)) := by
  induction l generalizing st with
  | nil => rfl
  | cons y ys ih =>
    rw [List.foldl_cons, ih]
    rfl

/-- A window's rows of one group go into the tree in the query's order. -/
theorem loadedExtents_eq (x : ExtentsTable δ) (t : FilesTable δ) (recs : List Filerec)
    (w : Window ℕ) (k : δ × ℕ) : loadedExtents x t recs w k =
      ((x.getDuplicateExtents t w.lo w.hi).filter fun y => decide ((y.digest, y.len) = k)).map
        LoadedExtent.extent := by
  have hfilter : ((x.getDuplicateExtents t w.lo w.hi).map fun y => (y.digest, y.extent)).filter
      (fun a => decide ((a.1, a.2.ePlen) = k)) =
        ((x.getDuplicateExtents t w.lo w.hi).filter fun y => decide ((y.digest, y.len) = k)).map
          fun y => (y.digest, y.extent) := by
    rw [List.filter_map]
    rfl
  have hplaces : ((((x.getDuplicateExtents t w.lo w.hi).map fun y => (y.digest, y.extent)).filter
      (fun a => decide ((a.1, a.2.ePlen) = k))).map fun a => (a.2.eFile, a.2.eLoff)).Nodup := by
    have hperm := (x.getDuplicateExtents_perm t w.lo w.hi).filter
      (fun a => decide ((a.1, a.2.ePlen) = k))
    rw [(hperm.map _).nodup_iff, List.filter_map, List.map_map]
    refine ((loadedJoined_nodup x t w.lo w.hi).filter _).map_on fun j hj j' hj' hplace => ?_
    obtain ⟨hj, hk⟩ := List.mem_filter.mp hj
    obtain ⟨hj', hk'⟩ := List.mem_filter.mp hj'
    refine eq_of_place_eq (mem_joined_of_mem_loadedJoined hj) (mem_joined_of_mem_loadedJoined hj') ?_
    simp only [Function.comp_apply, JoinedExtent.toExtent, decide_eq_true_eq, Prod.mk.injEq]
      at hk hk' hplace ⊢
    have hlen : j.extent.len = j'.extent.len := congrArg Prod.snd (hk.trans hk'.symm)
    exact ⟨hplace.1, hplace.2, hlen⟩
  unfold loadedExtents extentTree dbfileLoadExtentHashes
  rw [foldl_loadExtent_snd, ResultsTree.members_insertAll k _ _ hplaces (by simp), hfilter,
    List.map_map]
  simp [Function.comp_def]

theorem loadedExtents_perm (x : ExtentsTable δ) (t : FilesTable δ) (recs : List Filerec)
    (w : Window ℕ) (k : δ × ℕ) : (loadedExtents x t recs w k).Perm
      (((x.loadedJoined t w.lo w.hi).filter fun j => decide (j.key = k)).map
        JoinedExtent.toExtent) := by
  have hperm := ((x.getDuplicateExtents_perm t w.lo w.hi).filter
    (fun a => decide ((a.1, a.2.ePlen) = k))).map Prod.snd
  rw [List.filter_map, List.filter_map, List.map_map, List.map_map] at hperm
  rw [loadedExtents_eq]
  exact hperm

theorem mem_loadedExtents {e : Extent} : e ∈ loadedExtents x t recs w k ↔
    ∃ j ∈ x.loadedJoined t w.lo w.hi, j.key = k ∧ j.toExtent = e := by
  rw [(loadedExtents_perm x t recs w k).mem_iff]
  simp [List.mem_map, List.mem_filter, and_assoc]

omit [DecidableEq δ] in
theorem toExtent_inj (hj : j ∈ x.joined t) (hm : m ∈ x.joined t) (h : j.toExtent = m.toExtent) :
    j = m := by
  refine eq_of_place_eq hj hm ?_
  simp only [JoinedExtent.toExtent, Extent.mk.injEq] at h
  simp [h]

theorem loadedExtents_nodup (x : ExtentsTable δ) (t : FilesTable δ) (recs : List Filerec)
    (w : Window ℕ) (k : δ × ℕ) : (loadedExtents x t recs w k).Nodup := by
  rw [(loadedExtents_perm x t recs w k).nodup_iff]
  refine ((loadedJoined_nodup x t w.lo w.hi).filter _).map_on fun j hj j' hj' h => ?_
  exact toExtent_inj (mem_joined_of_mem_loadedJoined (List.mem_filter.mp hj).1)
    (mem_joined_of_mem_loadedJoined (List.mem_filter.mp hj').1) h

/-- A window loads of a group with first extent `m` as soon as it holds another of its extents. -/
theorem mem_grp_iff (hgen : ∀ f ∈ t.rows, 1 ≤ f.dedupeSeq) (hm : x.IsFirst t k m) :
    k ∈ x.grp t w.lo w.hi ↔ ∃ j ∈ x.group t k, w.Contains j.file.dedupeSeq ∧ j ≠ m := by
  have hnew : ∀ j, j ∈ x.newExtents t w.lo w.hi ∧ j.key = k ↔
      j ∈ x.group t k ∧ w.Contains j.file.dedupeSeq := by
    intro j
    rw [mem_newExtents, FileRow.inWindow_iff]
    constructor
    · rintro ⟨⟨hj, hc⟩, rfl⟩
      exact ⟨hj, hc⟩
    · rintro ⟨hj, hc⟩
      obtain rfl := (mem_group.mp hj).2.2
      exact ⟨⟨hj, hc⟩, rfl⟩
  rw [mem_grp, anchor_eq hgen hm, List.countP_eq_length_filter]
  constructor
  · rintro ⟨⟨j, hj, hk⟩, htwo | hold⟩
    · have hnodup : ((x.newExtents t w.lo w.hi).filter fun j => decide (j.key = k)).Nodup :=
        (((joined_nodup x t).filter _).filter _).filter _
      by_contra! hall
      have hsub : (x.newExtents t w.lo w.hi).filter (fun j => decide (j.key = k)) ⊆ [m] := by
        intro a ha
        obtain ⟨ha, hc⟩ := (hnew a).mp (by simpa using ha)
        exact List.mem_singleton.mpr (hall a ha hc)
      have hlen := hnodup.length_le_of_subset hsub
      rw [List.length_singleton] at hlen
      omega
    · have hj' := (hnew j).mp ⟨hj, hk⟩
      refine ⟨j, hj'.1, hj'.2, ?_⟩
      rintro rfl
      split_ifs at hold with hle
      · exact absurd hj'.2.1 (not_lt.mpr hle)
      · cases hold
  · rintro ⟨j, hj, hc, hne⟩
    obtain ⟨hjn, hk⟩ := (hnew j).mpr ⟨hj, hc⟩
    refine ⟨⟨j, hjn, hk⟩, ?_⟩
    by_cases hle : m.file.dedupeSeq ≤ w.lo
    · exact Or.inr (by simp [hle])
    · -- the first extent is no younger than `j`, so it is in the window too
      have hbefore := hm.2 j hj
      have hcm : w.Contains m.file.dedupeSeq := by
        refine ⟨not_le.mp hle, ?_⟩
        have := hc.2
        unfold JoinedExtent.Before at hbefore
        omega
      obtain ⟨hmn, hkm⟩ := (hnew m).mpr ⟨hm.1, hcm⟩
      left
      by_contra! hlen
      have hj' : j ∈ (x.newExtents t w.lo w.hi).filter (fun j => decide (j.key = k)) := by
        simp [hjn, hk]
      have hm' : m ∈ (x.newExtents t w.lo w.hi).filter (fun j => decide (j.key = k)) := by
        simp [hmn, hkm]
      obtain ⟨a, ha⟩ := List.length_eq_one_iff.mp (le_antisymm hlen (List.length_pos_of_mem hj'))
      rw [ha, List.mem_singleton] at hj' hm'
      exact hne (hj'.trans hm'.symm)

theorem mem_loadedExtents_iff (hgen : ∀ f ∈ t.rows, 1 ≤ f.dedupeSeq) (hm : x.IsFirst t k m)
    {e : Extent} : e ∈ loadedExtents x t recs w k ↔ k ∈ x.grp t w.lo w.hi ∧
      ∃ j ∈ x.group t k, j.toExtent = e ∧
        (w.Contains j.file.dedupeSeq ∨ j = m ∧ m.file.dedupeSeq ≤ w.lo) := by
  simp only [mem_loadedExtents, mem_loadedJoined, mem_newExtents, FileRow.inWindow_iff]
  constructor
  · rintro ⟨j, ⟨hk, hsel⟩, rfl, rfl⟩
    refine ⟨hk, j, ?_, rfl, ?_⟩
    · exact hsel.elim (fun h => h.1) fun h => (anchor_mem h).1
    · refine hsel.imp (fun h => h.2) fun h => ?_
      rw [anchor_eq hgen hm] at h
      split_ifs at h with hle
      exact ⟨(Option.some.inj h).symm, hle⟩
  · rintro ⟨hk, j, hj, rfl, hsel⟩
    obtain rfl := (mem_group.mp hj).2.2
    refine ⟨j, ⟨hk, hsel.imp (fun h => ⟨hj, h⟩) ?_⟩, rfl, rfl⟩
    rintro ⟨rfl, hle⟩
    rw [anchor_eq hgen hm, if_pos hle]

theorem first_mem_loadedExtents (hgen : ∀ f ∈ t.rows, 1 ≤ f.dedupeSeq) (hm : x.IsFirst t k m)
    (hgrp : k ∈ x.grp t w.lo w.hi) : m.toExtent ∈ loadedExtents x t recs w k := by
  refine (mem_loadedExtents_iff hgen hm).mpr ⟨hgrp, m, hm.1, rfl, ?_⟩
  obtain ⟨j, hj, hc, -⟩ := (mem_grp_iff hgen hm).mp hgrp
  by_cases hold : m.file.dedupeSeq ≤ w.lo
  · exact Or.inr ⟨rfl, hold⟩
  · have hbefore := hm.2 j hj
    have hhi := hc.2
    unfold JoinedExtent.Before at hbefore
    exact Or.inl ⟨not_le.mp hold, by omega⟩

/-- Whatever a window loads of a group, its first extent leads the list. -/
theorem head?_loadedExtents (hgen : ∀ f ∈ t.rows, 1 ≤ f.dedupeSeq) (hm : x.IsFirst t k m)
    (hmem : m.toExtent ∈ loadedExtents x t recs w k) :
    (loadedExtents x t recs w k).head? = some m.toExtent := by
  rw [loadedExtents_eq] at hmem ⊢
  have hsorted : ((x.getDuplicateExtents t w.lo w.hi).filter
      fun y => decide ((y.digest, y.len) = k)).Pairwise LoadedExtent.le :=
    (List.pairwise_insertionSort LoadedExtent.le _).filter _
  -- every row of the group is some `j` of it: the anchor with n = 0, the others with n = 1
  have hrow : ∀ y ∈ (x.getDuplicateExtents t w.lo w.hi).filter
      (fun y => decide ((y.digest, y.len) = k)), ∃ j ∈ x.group t k, y.extent = j.toExtent ∧
        y.fileid = j.file.id ∧ y.r = j.extent.rowid ∧
        (y.n = 1 ∧ y.s = j.file.dedupeSeq ∧ w.lo < j.file.dedupeSeq ∨
          y.n = 0 ∧ y.s = 0 ∧ j = m ∧ m.file.dedupeSeq ≤ w.lo) := by
    intro y hy
    obtain ⟨hy, hk⟩ := List.mem_filter.mp hy
    rw [getDuplicateExtents, List.mem_insertionSort, List.mem_append] at hy
    rcases hy with hy | hy
    · obtain ⟨j, hj, rfl⟩ := List.mem_map.mp hy
      obtain ⟨hj, hwin⟩ := mem_newExtents.mp (List.mem_filter.mp hj).1
      have hjk : j.key = k := of_decide_eq_true hk
      rw [hjk] at hj
      exact ⟨j, hj, rfl, (mem_joined.mp (mem_group.mp hj).1).2.2, rfl,
        Or.inl ⟨rfl, rfl, (FileRow.inWindow_iff.mp hwin).1⟩⟩
    · obtain ⟨k', -, hy⟩ := List.mem_filterMap.mp hy
      obtain ⟨j, hanchor, rfl⟩ := Option.map_eq_some_iff.mp hy
      obtain ⟨hj, hold⟩ := anchor_mem hanchor
      have hjk : j.key = k := of_decide_eq_true hk
      obtain rfl : k' = k := (mem_group.mp hj).2.2.symm.trans hjk
      rw [anchor_eq hgen hm] at hanchor
      split_ifs at hanchor with hle
      obtain rfl := Option.some.inj hanchor
      exact ⟨m, hj, rfl, (mem_joined.mp (mem_group.mp hj).1).2.2, rfl,
        Or.inr ⟨rfl, rfl, rfl, hle⟩⟩
  obtain ⟨z, hz, hzm⟩ := List.mem_map.mp hmem
  cases hl : (x.getDuplicateExtents t w.lo w.hi).filter
      fun y => decide ((y.digest, y.len) = k) with
  | nil => simp [hl] at hz
  | cons y ys =>
    rw [hl] at hz hsorted hrow
    have hle : y.le z := by
      rcases List.mem_cons.mp hz with rfl | hz
      · exact (Std.Total.total (r := LoadedExtent.le) z z).elim id id
      · exact List.rel_of_pairwise_cons hsorted hz
    obtain ⟨j, hj, hyj, hyid, hyr, hycase⟩ := hrow y List.mem_cons_self
    obtain ⟨j', hj', hzj, hzid, hzr, hzcase⟩ := hrow z hz
    obtain rfl : j' = m := toExtent_inj (mem_group.mp hj').1 (mem_group.mp hm.1).1
      (hzj.symm.trans hzm)
    have hjm : j = j' := by
      rcases hycase with ⟨hn, hs, hlo⟩ | ⟨-, -, rfl, -⟩
      · refine hm.eq_of_before hj ?_
        unfold LoadedExtent.le at hle
        unfold JoinedExtent.Before
        rcases hzcase with ⟨hn', hs', -⟩ | ⟨hn', -, -, -⟩ <;> omega
      · rfl
    rw [List.map_cons, List.head?_cons, hyj, hjm]

end Groups

/-- Over the windows of one dedupe phase, `m` being the extent of its group with the smallest
generation, file and row: a window loads nothing of the group, or `m` first and exactly the
window's extents beside it, and every new extent other than `m` is loaded in exactly one window. -/
theorem phase_loads_extents (x : ExtentsTable δ) (t : FilesTable δ)
    (recs : Window ℕ → List Filerec) (firstSeq : ℕ) (ws : List (Window ℕ))
    (hgen : ∀ f ∈ t.rows, 1 ≤ f.dedupeSeq) (hcut : IsCut firstSeq ws t.getMaxDedupeSeq)
    (k : δ × ℕ) :
    (∀ w ∈ ws, loadedExtents x t (recs w) w k = [] ∨ ∃ m, x.IsFirst t k m ∧
      1 < (loadedExtents x t (recs w) w k).length ∧
      (loadedExtents x t (recs w) w k).head? = some m.toExtent ∧
      (loadedExtents x t (recs w) w k).Nodup ∧
      ∀ e, e ∈ loadedExtents x t (recs w) w k ↔ ∃ j ∈ x.group t k, j.toExtent = e ∧
        (w.Contains j.file.dedupeSeq ∨ j = m ∧ m.file.dedupeSeq ≤ w.lo)) ∧
    ∀ m, x.IsFirst t k m → ∀ j ∈ x.group t k, firstSeq < j.file.dedupeSeq → j ≠ m →
      ws.countP (fun w => j.toExtent ∈ loadedExtents x t (recs w) w k) = 1 := by
  refine ⟨fun w hw => ?_, fun m hm j hj hnew hne => ?_⟩
  · by_cases hnil : loadedExtents x t (recs w) w k = []
    · exact Or.inl hnil
    · right
      obtain ⟨e, he⟩ := List.exists_mem_of_ne_nil _ hnil
      obtain ⟨j, hj, hk, -⟩ := mem_loadedExtents.mp he
      have hgroup : j ∈ x.group t k := by
        rcases (mem_loadedJoined.mp hj).2 with hnew | hanchor
        · exact hk ▸ (mem_newExtents.mp hnew).1
        · exact hk ▸ (anchor_mem hanchor).1
      obtain ⟨m, hm⟩ := exists_first (List.ne_nil_of_mem hgroup)
      have hgrp := ((mem_loadedExtents_iff hgen hm).mp he).1
      obtain ⟨j', hj', hc, hne⟩ := (mem_grp_iff hgen hm).mp hgrp
      have hmem : ∀ e, e ∈ loadedExtents x t (recs w) w k ↔ ∃ j ∈ x.group t k,
          j.toExtent = e ∧ (w.Contains j.file.dedupeSeq ∨ j = m ∧ m.file.dedupeSeq ≤ w.lo) := by
        intro e
        rw [mem_loadedExtents_iff hgen hm, and_iff_right hgrp]
      have hmload : m.toExtent ∈ loadedExtents x t (recs w) w k :=
        first_mem_loadedExtents hgen hm hgrp
      have hjload := (hmem j'.toExtent).mpr ⟨j', hj', rfl, Or.inl hc⟩
      refine ⟨m, hm, ?_, head?_loadedExtents hgen hm hmload, loadedExtents_nodup x t _ w k, hmem⟩
      by_contra! hlen
      obtain ⟨a, ha⟩ := List.length_eq_one_iff.mp (le_antisymm hlen (List.length_pos_of_mem hmload))
      rw [ha, List.mem_singleton] at hmload hjload
      exact hne (toExtent_inj (mem_group.mp hj').1 (mem_group.mp hm.1).1 (hjload.trans hmload.symm))
  · have hmax := t.dedupeSeq_le_max (mem_joined.mp (mem_group.mp hj).1).2.1
    rw [← hcut.countP_contains hnew hmax]
    refine List.countP_congr fun w hw => ?_
    simp only [decide_eq_true_eq]
    rw [mem_loadedExtents_iff hgen hm]
    constructor
    · rintro ⟨-, j', hj', heq, hsel⟩
      obtain rfl := toExtent_inj (mem_group.mp hj').1 (mem_group.mp hj).1 heq
      exact hsel.elim id fun h => absurd h.1 hne
    · exact fun hc => ⟨(mem_grp_iff hgen hm).mpr ⟨j, hj, hc, hne⟩, j, hj, rfl, Or.inl hc⟩

def threeFiles : FilesTable ℕ where
  rows := [⟨1, "a", 10, 3, some 1, some 0, 1⟩, ⟨2, "b", 20, 1, some 2, some 0, 1⟩,
    ⟨3, "c", 30, 2, some 3, some 0, 1⟩]
  ids_nodup := by decide

def sharedExtents : ExtentsTable ℕ where
  rows := [⟨1, 7, 1, 0, 4096, 10⟩, ⟨2, 7, 2, 0, 8192, 10⟩, ⟨3, 7, 3, 10, 12288, 10⟩]
  rowids_nodup := by decide
  unique := by decide

/-- The copies of files 1 and 3 are each loaded once, behind the oldest one in file 2. -/
theorem phase_loads_extents_threeFiles :
    ([⟨0, 2⟩, ⟨2, 3⟩] : List (Window ℕ)).countP
        (fun w => ⟨1, 0, 4096, 10⟩ ∈ loadedExtents sharedExtents threeFiles [] w (7, 10)) = 1 ∧
      ([⟨0, 2⟩, ⟨2, 3⟩] : List (Window ℕ)).countP
        (fun w => ⟨3, 10, 12288, 10⟩ ∈ loadedExtents sharedExtents threeFiles [] w (7, 10)) = 1 := by
  have h := (phase_loads_extents sharedExtents threeFiles (fun _ => []) 0 [⟨0, 2⟩, ⟨2, 3⟩]
    (by decide) (by decide) (7, 10)).2 ⟨⟨2, 7, 2, 0, 8192, 10⟩, ⟨2, "b", 20, 1, some 2, some 0, 1⟩⟩
    (by decide)
  exact ⟨h ⟨⟨1, 7, 1, 0, 4096, 10⟩, ⟨1, "a", 10, 3, some 1, some 0, 1⟩⟩ (by decide) (by decide)
      (by decide),
    h ⟨⟨3, 7, 3, 10, 12288, 10⟩, ⟨3, "c", 30, 2, some 3, some 0, 1⟩⟩ (by decide) (by decide)
      (by decide)⟩

end Oans
