import Oans.DuplicateExtents
import Oans.HashTree

/-!
# The blocks table and its duplicate blocks

`GET_DUPLICATE_BLOCKS` selection by selection, and the loader that feeds its result to a hash tree.
The groups are counted among the blocks of the window only, and the copies before it are inferred
from the presence of an anchor; over generations from 1 on the two make up every copy there is.
-/

namespace Oans

structure BlockRow (δ : Type*) where
  rowid : ℤ
  digest : δ
  fileid : ℤ
  loff : ℕ
  deriving DecidableEq, Repr

/-- `UNIQUE(fileid, loff)` beside the rowid. -/
structure BlocksTable (δ : Type*) where
  rows : List (BlockRow δ)
  rowids_nodup : (rows.map BlockRow.rowid).Nodup
  unique : (rows.map fun b => (b.fileid, b.loff)).Nodup

/-- A row of `blocks b join files f on b.fileid = f.id`. -/
abbrev JoinedBlock (δ : Type*) := BlockRow δ × FileRow δ

/-- A row of `GET_DUPLICATE_BLOCKS` with the columns it is ordered by. -/
structure LoadedBlock (δ : Type*) where
  digest : δ
  fileid : ℤ
  loff : ℕ
  n : ℕ
  r : ℤ
  deriving DecidableEq, Repr

/-- `order by n, fileid, r`. -/
def LoadedBlock.le {δ : Type*} (a b : LoadedBlock δ) : Prop :=
  a.n < b.n ∨ a.n = b.n ∧ (a.fileid < b.fileid ∨ a.fileid = b.fileid ∧ a.r ≤ b.r)

instance {δ : Type*} : DecidableRel (LoadedBlock.le (δ := δ)) := fun _ _ =>
  inferInstanceAs (Decidable (_ ∨ _))

instance {δ : Type*} : Std.Total (LoadedBlock.le (δ := δ)) where
  total a b := by unfold LoadedBlock.le; omega

instance {δ : Type*} : IsTrans (LoadedBlock δ) LoadedBlock.le where
  trans a b c := by unfold LoadedBlock.le; omega

def BlockRow.loaded {δ : Type*} (b : BlockRow δ) (n : ℕ) : LoadedBlock δ :=
  ⟨b.digest, b.fileid, b.loff, n, b.rowid⟩

/-- A row of `g0`. -/
structure BlockGroup (δ : Type*) where
  digest : δ
  cnt : ℕ
  anchor : Option ℤ

variable {δ : Type*} [DecidableEq δ]

namespace BlocksTable

variable (x : BlocksTable δ) (t : FilesTable δ)

omit [DecidableEq δ] in
def joined : List (JoinedBlock δ) :=
  x.rows.flatMap fun b => (t.rows.filter fun f => decide (b.fileid = f.id)).map fun f => (b, f)

def window (lo hi : ℕ) : List (JoinedBlock δ) :=
  (x.joined t).filter fun j => j.2.inWindow lo hi

def copies (seq : ℕ) (d : δ) : List (JoinedBlock δ) :=
  (x.joined t).filter fun j => decide (j.1.digest = d) && decide (j.2.dedupeSeq ≤ seq)

/-- `order by o.rowid limit 1`. -/
def oldest (lo : ℕ) (d : δ) : Option (JoinedBlock δ) :=
  ((x.copies t lo d).insertionSort fun a b => a.1.rowid ≤ b.1.rowid).head?

def groupOf (lo hi : ℕ) (d : δ) : BlockGroup δ :=
  ⟨d, (x.window t lo hi).countP fun j => decide (j.1.digest = d),
    if 0 < lo then (x.oldest t lo d).map fun j => j.1.rowid else none⟩

def g0 (lo hi : ℕ) : List (BlockGroup δ) :=
  ((x.window t lo hi).map fun j => j.1.digest).dedup.map (x.groupOf t lo hi)

def grp (lo hi : ℕ) : List (BlockGroup δ) :=
  (x.g0 t lo hi).filter fun g => decide (1 < g.cnt) || g.anchor.isSome

def getDuplicateBlocks (lo hi : ℕ) : List (LoadedBlock δ) :=
  (((x.window t lo hi).filter fun j =>
      decide (j.1.digest ∈ (x.grp t lo hi).map BlockGroup.digest)).map (fun j => j.1.loaded 1) ++
    (x.grp t lo hi).flatMap fun g =>
      (x.rows.filter fun b => decide (g.anchor = some b.rowid)).map
        fun b => b.loaded 0).insertionSort LoadedBlock.le

end BlocksTable

section Load

/-- One row of `dbfile_load_block_hashes()`; nothing where it crashes, on a file that is not there
or in `insert_hashed_block()`. -/
def loadBlock (t : FilesTable δ) (st : List Filerec × HashTree δ) (row : LoadedBlock δ) :
    Option (List Filerec × HashTree δ) :=
  let recs := findOrLoadFilerec t st.1 row.fileid
  match filerecFind recs row.fileid with
  | none => none
  | some file => (st.2.insertHashedBlock row.digest file.fileid row.loff).map (recs, ·)

def dbfileLoadBlockHashes (x : BlocksTable δ) (t : FilesTable δ) (seqLo seqHi : ℕ)
    (st : List Filerec × HashTree δ) : Option (List Filerec × HashTree δ) :=
  (x.getDuplicateBlocks t seqLo seqHi).foldlM (loadBlock t) st

end Load

/-- What sorts first is below everything. -/
theorem mem_of_head?_insertionSort {α : Type*} (r : α → α → Prop) [DecidableRel r] [Std.Total r]
    [IsTrans α r] {l : List α} {m : α} (h : (l.insertionSort r).head? = some m) :
    m ∈ l ∧ ∀ a ∈ l, r m a := by
  have hsorted := List.pairwise_insertionSort r l
  refine ⟨(List.mem_insertionSort r).mp (List.mem_of_head? h), fun a ha => ?_⟩
  replace ha := (List.mem_insertionSort r).mpr ha
  cases hl : l.insertionSort r with
  | nil => simp [hl] at h
  | cons b rest =>
    rw [hl] at h ha hsorted
    obtain rfl : b = m := Option.some.inj h
    rcases List.mem_cons.mp ha with rfl | ha
    · exact (Std.Total.total (r := r) a a).elim id id
    · exact List.rel_of_pairwise_cons hsorted ha

namespace BlocksTable

variable {x : BlocksTable δ} {t : FilesTable δ} {lo hi : ℕ} {d : δ} {j m : JoinedBlock δ}

omit [DecidableEq δ] in
theorem mem_joined : j ∈ x.joined t ↔ j.1 ∈ x.rows ∧ j.2 ∈ t.rows ∧ j.1.fileid = j.2.id := by
  simp only [joined, List.mem_flatMap, List.mem_map, List.mem_filter, decide_eq_true_eq]
  constructor
  · rintro ⟨b, hb, f, ⟨hf, hid⟩, rfl⟩
    exact ⟨hb, hf, hid⟩
  · rintro ⟨hb, hf, hid⟩
    exact ⟨_, hb, _, ⟨hf, hid⟩, rfl⟩

omit [DecidableEq δ] in
theorem eq_of_block_eq (hj : j ∈ x.joined t) (hm : m ∈ x.joined t) (h : j.1 = m.1) : j = m := by
  obtain ⟨-, hf, hid⟩ := mem_joined.mp hj
  obtain ⟨-, hf', hid'⟩ := mem_joined.mp hm
  exact Prod.ext h (t.eq_of_id_eq hf hf' (by rw [← hid, ← hid', h]))

omit [DecidableEq δ] in
theorem eq_of_rowid_eq (hj : j ∈ x.joined t) (hm : m ∈ x.joined t)
    (h : j.1.rowid = m.1.rowid) : j = m :=
  eq_of_block_eq hj hm
    (List.inj_on_of_nodup_map x.rowids_nodup (mem_joined.mp hj).1 (mem_joined.mp hm).1 h)

omit [DecidableEq δ] in
theorem eq_of_place_eq (hj : j ∈ x.joined t) (hm : m ∈ x.joined t)
    (h : (j.1.fileid, j.1.loff) = (m.1.fileid, m.1.loff)) : j = m :=
  eq_of_block_eq hj hm
    (List.inj_on_of_nodup_map x.unique (mem_joined.mp hj).1 (mem_joined.mp hm).1 h)

omit [DecidableEq δ] in
theorem joined_nodup (x : BlocksTable δ) (t : FilesTable δ) : (x.joined t).Nodup := by
  rw [joined, List.nodup_flatMap]
  refine ⟨fun b _ => ?_, ?_⟩
  · refine List.Nodup.map (fun f f' h => congrArg Prod.snd h) ?_
    exact (List.Nodup.of_map _ t.ids_nodup).filter _
  · refine (List.Nodup.of_map _ x.rowids_nodup).imp fun {b b'} hne => ?_
    intro j hj hj'
    simp only [List.mem_map, List.mem_filter] at hj hj'
    obtain ⟨f, -, rfl⟩ := hj
    obtain ⟨f', -, heq⟩ := hj'
    exact hne (congrArg Prod.fst heq).symm

omit [DecidableEq δ] in
theorem mem_window : j ∈ x.window t lo hi ↔
    j ∈ x.joined t ∧ lo < j.2.dedupeSeq ∧ j.2.dedupeSeq ≤ hi := by
  simp [window, FileRow.inWindow]

theorem mem_copies {seq : ℕ} : j ∈ x.copies t seq d ↔
    j ∈ x.joined t ∧ j.1.digest = d ∧ j.2.dedupeSeq ≤ seq := by
  simp [copies]

theorem length_copies (x : BlocksTable δ) (t : FilesTable δ) (d : δ) (h : lo ≤ hi) :
    (x.copies t hi d).length =
      (x.window t lo hi).countP (fun j => decide (j.1.digest = d)) +
        (x.copies t lo d).length := by
  rw [copies, copies, window, ← List.countP_eq_length_filter, ← List.countP_eq_length_filter,
    List.countP_eq_countP_filter_add _ _ fun j : JoinedBlock δ => j.2.inWindow lo hi,
    List.countP_filter, List.countP_filter, List.countP_filter]
  congr 1 <;> refine List.countP_congr fun j _ => ?_
  · simp only [FileRow.inWindow, Bool.and_eq_true, decide_eq_true_eq]
    tauto
  · simp only [FileRow.inWindow, Bool.and_eq_true, Bool.not_eq_true', decide_eq_true_eq,
      decide_eq_false_iff_not]
    constructor
    · rintro ⟨⟨hd, hle⟩, hout⟩
      exact ⟨hd, by omega⟩
    · rintro ⟨hd, hle⟩
      exact ⟨⟨hd, by omega⟩, by omega⟩

def IsOldest (x : BlocksTable δ) (t : FilesTable δ) (lo : ℕ) (m : JoinedBlock δ) : Prop :=
  m ∈ x.copies t lo m.1.digest ∧ ∀ c ∈ x.copies t lo m.1.digest, m.1.rowid ≤ c.1.rowid

theorem IsOldest.unique (hj : x.IsOldest t lo j) (hm : x.IsOldest t lo m)
    (h : j.1.digest = m.1.digest) : j = m := by
  have hle := hj.2 m (h ▸ hm.1)
  have hge := hm.2 j (h ▸ hj.1)
  exact eq_of_rowid_eq (mem_copies.mp hj.1).1 (mem_copies.mp hm.1).1 (le_antisymm hle hge)

theorem oldest_eq_some_iff : x.oldest t lo d = some m ↔ m.1.digest = d ∧ x.IsOldest t lo m := by
  have hspec : ∀ {c}, x.oldest t lo d = some c → c.1.digest = d ∧ x.IsOldest t lo c := by
    intro c hc
    obtain ⟨hmem, hmin⟩ := mem_of_head?_insertionSort
      (fun a b : JoinedBlock δ => a.1.rowid ≤ b.1.rowid) hc
    obtain rfl := (mem_copies.mp hmem).2.1
    exact ⟨rfl, hmem, hmin⟩
  refine ⟨hspec, ?_⟩
  rintro ⟨rfl, hm⟩
  cases hold : x.oldest t lo m.1.digest with
  | none =>
    rw [oldest, List.head?_eq_none_iff] at hold
    have hmem := (List.mem_insertionSort fun a b : JoinedBlock δ => a.1.rowid ≤ b.1.rowid).mpr hm.1
    rw [hold] at hmem
    cases hmem
  | some c =>
    obtain ⟨hdigest, hc⟩ := hspec hold
    rw [hc.unique hm hdigest]

theorem oldest_isSome_iff : (x.oldest t lo d).isSome = true ↔ 0 < (x.copies t lo d).length := by
  rw [oldest, List.isSome_head?, List.length_pos_iff]
  simp [← List.length_eq_zero_iff]

/-- Over generations from 1 on, the probe that a window from the start skips finds nothing. -/
theorem anchor_groupOf (hgen : ∀ f ∈ t.rows, 1 ≤ f.dedupeSeq) :
    (x.groupOf t lo hi d).anchor = (x.oldest t lo d).map fun j => j.1.rowid := by
  rw [groupOf]
  by_cases hlo : 0 < lo
  · simp only [if_pos hlo]
  · have hnone : x.copies t lo d = [] := by
      refine List.eq_nil_iff_forall_not_mem.mpr fun j hj => ?_
      obtain ⟨hj, -, hle⟩ := mem_copies.mp hj
      have := hgen _ (mem_joined.mp hj).2.1
      omega
    simp [hlo, oldest, hnone]

/-- A digest of the window qualifies exactly when it has two copies up to the window's end. -/
theorem mem_grp (hgen : ∀ f ∈ t.rows, 1 ≤ f.dedupeSeq) {g : BlockGroup δ} :
    g ∈ x.grp t lo hi ↔ ∃ w ∈ x.window t lo hi, x.groupOf t lo hi w.1.digest = g ∧
      1 < (x.copies t hi w.1.digest).length := by
  have hmem : g ∈ x.g0 t lo hi ↔
      ∃ w ∈ x.window t lo hi, x.groupOf t lo hi w.1.digest = g := by
    simp [g0]
  rw [grp, List.mem_filter, hmem]
  have hcount : ∀ w ∈ x.window t lo hi, x.groupOf t lo hi w.1.digest = g →
      ((decide (1 < g.cnt) || g.anchor.isSome) = true ↔
        1 < (x.copies t hi w.1.digest).length) := by
    rintro w hw rfl
    obtain ⟨-, hlt, hle⟩ := mem_window.mp hw
    have hpos : 0 < (x.window t lo hi).countP fun j => decide (j.1.digest = w.1.digest) :=
      List.countP_pos_iff.mpr ⟨w, hw, decide_eq_true rfl⟩
    rw [Bool.or_eq_true, decide_eq_true_eq, anchor_groupOf hgen, Option.isSome_map,
      oldest_isSome_iff, length_copies x t w.1.digest (hlt.le.trans hle)]
    simp only [groupOf]
    omega
  constructor
  · rintro ⟨⟨w, hw, hg⟩, hqual⟩
    exact ⟨w, hw, hg, (hcount w hw hg).mp hqual⟩
  · rintro ⟨w, hw, hg, htwo⟩
    exact ⟨⟨w, hw, hg⟩, (hcount w hw hg).mpr htwo⟩

/-- The blocks new in the window of the digests that have two copies up to its end. -/
def newCopies (x : BlocksTable δ) (t : FilesTable δ) (lo hi : ℕ) : List (JoinedBlock δ) :=
  (x.window t lo hi).filter fun j => decide (1 < (x.copies t hi j.1.digest).length)

def olderCopies (x : BlocksTable δ) (t : FilesTable δ) (lo hi : ℕ) : List (JoinedBlock δ) :=
  (x.grp t lo hi).filterMap fun g => x.oldest t lo g.digest

theorem mem_newCopies : j ∈ x.newCopies t lo hi ↔
    (j ∈ x.joined t ∧ lo < j.2.dedupeSeq ∧ j.2.dedupeSeq ≤ hi) ∧
      1 < (x.copies t hi j.1.digest).length := by
  rw [newCopies, List.mem_filter, mem_window, decide_eq_true_eq]

theorem mem_olderCopies (hgen : ∀ f ∈ t.rows, 1 ≤ f.dedupeSeq) : j ∈ x.olderCopies t lo hi ↔
    (∃ w ∈ x.newCopies t lo hi, w.1.digest = j.1.digest) ∧ x.IsOldest t lo j := by
  simp only [olderCopies, List.mem_filterMap, mem_grp hgen, oldest_eq_some_iff]
  constructor
  · rintro ⟨g, ⟨w, hw, rfl, htwo⟩, hdigest, hold⟩
    exact ⟨⟨w, mem_newCopies.mpr ⟨mem_window.mp hw, htwo⟩, hdigest.symm⟩, hold⟩
  · rintro ⟨⟨w, hw, hdigest⟩, hold⟩
    obtain ⟨hw, htwo⟩ := mem_newCopies.mp hw
    exact ⟨_, ⟨w, mem_window.mpr hw, rfl, htwo⟩, hdigest.symm, hold⟩

theorem newCopies_nodup (x : BlocksTable δ) (t : FilesTable δ) (lo hi : ℕ) :
    (x.newCopies t lo hi).Nodup := ((joined_nodup x t).filter _).filter _

theorem olderCopies_nodup (x : BlocksTable δ) (t : FilesTable δ) (lo hi : ℕ) :
    (x.olderCopies t lo hi).Nodup := by
  have hgrp : ((x.grp t lo hi).map BlockGroup.digest).Nodup := by
    refine List.Nodup.sublist (List.filter_sublist.map _) ?_
    have hdigest : BlockGroup.digest ∘ x.groupOf t lo hi = id := rfl
    rw [g0, List.map_map, hdigest, List.map_id]
    exact List.nodup_dedup _
  have hmap : x.olderCopies t lo hi =
      ((x.grp t lo hi).map BlockGroup.digest).filterMap (x.oldest t lo) := by
    rw [List.filterMap_map]
    rfl
  rw [hmap]
  refine hgrp.filterMap fun d d' j hd hd' => ?_
  rw [← (oldest_eq_some_iff.mp hd).1, ← (oldest_eq_some_iff.mp hd').1]

def ByPlace (a b : JoinedBlock δ) : Prop :=
  a.1.fileid < b.1.fileid ∨ a.1.fileid = b.1.fileid ∧ a.1.rowid ≤ b.1.rowid

omit [DecidableEq δ] in
instance : DecidableRel (ByPlace (δ := δ)) := fun _ _ => inferInstanceAs (Decidable (_ ∨ _))

omit [DecidableEq δ] in
instance : Std.Total (ByPlace (δ := δ)) where
  total a b := by unfold ByPlace; omega

omit [DecidableEq δ] in
instance : IsTrans (JoinedBlock δ) ByPlace where
  trans a b c := by unfold ByPlace; omega

theorem anchors_eq (hgen : ∀ f ∈ t.rows, 1 ≤ f.dedupeSeq) :
    ((x.grp t lo hi).flatMap fun g => (x.rows.filter fun b =>
      decide (g.anchor = some b.rowid)).map fun b => b.loaded 0) =
        (x.olderCopies t lo hi).map fun j => j.1.loaded 0 := by
  rw [olderCopies, List.map_filterMap, List.filterMap_eq_flatMap_toList]
  refine List.flatMap_congr fun g hg => ?_
  obtain ⟨w, -, rfl, -⟩ := (mem_grp hgen).mp hg
  rw [anchor_groupOf hgen]
  change _ = ((x.oldest t lo w.1.digest).map fun j => j.1.loaded 0).toList
  cases hold : x.oldest t lo w.1.digest with
  | none => simp
  | some m =>
    have hm := (mem_joined.mp (mem_copies.mp (oldest_eq_some_iff.mp hold).2.1).1).1
    have hone : x.rows.filter (fun b => decide (m.1.rowid = b.rowid)) = [m.1] := by
      refine List.perm_singleton.mp ((List.perm_ext_iff_of_nodup
        ((List.Nodup.of_map _ x.rowids_nodup).filter _) (List.nodup_singleton _)).mpr fun b => ?_)
      rw [List.mem_filter, decide_eq_true_eq, List.mem_singleton]
      refine ⟨fun h => List.inj_on_of_nodup_map x.rowids_nodup h.1 hm h.2.symm, ?_⟩
      rintro rfl
      exact ⟨hm, rfl⟩
    simp only [Option.map_some, Option.some.injEq, hone, List.map_singleton, Option.toList_some]

/-- The older copies come first, then the window's blocks by file and rowid. -/
theorem getDuplicateBlocks_eq (hgen : ∀ f ∈ t.rows, 1 ≤ f.dedupeSeq) :
    x.getDuplicateBlocks t lo hi =
      ((x.olderCopies t lo hi).insertionSort ByPlace).map (fun j => j.1.loaded 0) ++
        ((x.newCopies t lo hi).insertionSort ByPlace).map fun j => j.1.loaded 1 := by
  have hnew : (x.window t lo hi).filter (fun j =>
      decide (j.1.digest ∈ (x.grp t lo hi).map BlockGroup.digest)) = x.newCopies t lo hi := by
    refine List.filter_congr fun j hj => decide_eq_decide.mpr ?_
    rw [List.mem_map]
    constructor
    · rintro ⟨g, hg, hdigest⟩
      obtain ⟨w, hw, rfl, htwo⟩ := (mem_grp hgen).mp hg
      exact hdigest ▸ htwo
    · exact fun htwo => ⟨_, (mem_grp hgen).mpr ⟨j, hj, rfl, htwo⟩, rfl⟩
  rw [getDuplicateBlocks, hnew, anchors_eq hgen]
  have hperm := List.perm_insertionSort LoadedBlock.le
    ((x.newCopies t lo hi).map (fun j => j.1.loaded 1) ++
      (x.olderCopies t lo hi).map fun j => j.1.loaded 0)
  have hrow : ∀ y, y ∈ (x.newCopies t lo hi).map (fun j => j.1.loaded 1) ++
      (x.olderCopies t lo hi).map (fun j => j.1.loaded 0) →
      ∃ j ∈ x.joined t, ∃ n, y = j.1.loaded n := by
    intro y hy
    rcases List.mem_append.mp hy with hy | hy
    · obtain ⟨j, hj, rfl⟩ := List.mem_map.mp hy
      exact ⟨j, (mem_newCopies.mp hj).1.1, 1, rfl⟩
    · obtain ⟨j, hj, rfl⟩ := List.mem_map.mp hy
      exact ⟨j, (mem_copies.mp ((mem_olderCopies hgen).mp hj).2.1).1, 0, rfl⟩
  have hsorted : (((x.olderCopies t lo hi).insertionSort ByPlace).map (fun j => j.1.loaded 0) ++
      ((x.newCopies t lo hi).insertionSort ByPlace).map fun j => j.1.loaded 1).Pairwise
        LoadedBlock.le := by
    refine List.pairwise_append.mpr ⟨?_, ?_, fun a ha b hb => ?_⟩
    · exact List.pairwise_map.mpr ((List.pairwise_insertionSort ByPlace _).imp fun h =>
        Or.inr ⟨rfl, h⟩)
    · exact List.pairwise_map.mpr ((List.pairwise_insertionSort ByPlace _).imp fun h =>
        Or.inr ⟨rfl, h⟩)
    · obtain ⟨j, -, rfl⟩ := List.mem_map.mp ha
      obtain ⟨m, -, rfl⟩ := List.mem_map.mp hb
      exact Or.inl Nat.zero_lt_one
  have hperm' := hperm.trans (List.perm_append_comm.trans
    (((List.perm_insertionSort ByPlace (x.olderCopies t lo hi)).map fun j => j.1.loaded 0).symm.append
      ((List.perm_insertionSort ByPlace (x.newCopies t lo hi)).map fun j => j.1.loaded 1).symm))
  refine List.Perm.eq_of_pairwise (fun a b ha hb hab hba => ?_) (List.pairwise_insertionSort _ _)
    hsorted hperm'
  obtain ⟨j, hj, n, rfl⟩ := hrow a (hperm.subset ha)
  obtain ⟨m, hm, n', rfl⟩ := hrow b (hperm.subset (hperm'.symm.subset hb))
  have hsame : n = n' ∧ j.1.rowid = m.1.rowid := by
    simp only [LoadedBlock.le, BlockRow.loaded] at hab hba
    omega
  rw [hsame.1, eq_of_rowid_eq hj hm hsame.2]

end BlocksTable

def LoadedBlock.block (row : LoadedBlock δ) : FileBlock δ := ⟨row.fileid, row.loff, row.digest⟩

omit [DecidableEq δ] in
theorem filerecFind_findOrLoadFilerec {t : FilesTable δ} {f : FileRow δ} (hf : f ∈ t.rows)
    (recs : List Filerec) :
    ∃ file, filerecFind (findOrLoadFilerec t recs f.id) f.id = some file ∧ file.fileid = f.id := by
  have hid : ∀ {l : List Filerec} {file}, filerecFind l f.id = some file → file.fileid = f.id := by
    intro l file h
    rw [filerecFind] at h
    simpa using List.find?_some h
  have hsome : (filerecFind (findOrLoadFilerec t recs f.id) f.id).isSome = true := by
    unfold findOrLoadFilerec
    cases hfound : filerecFind recs f.id with
    | some file => simp [hfound]
    | none =>
      have hrow : (t.rows.find? fun g => decide (g.id = f.id)).isSome = true :=
        List.find?_isSome.mpr ⟨f, hf, decide_eq_true rfl⟩
      obtain ⟨g, hg⟩ := Option.isSome_iff_exists.mp hrow
      have hgid := List.find?_some hg
      simp [hg, filerecFind, of_decide_eq_true hgid]
  obtain ⟨file, hfile⟩ := Option.isSome_iff_exists.mp hsome
  exact ⟨file, hfile, hid hfile⟩

/-- Rows of files of the table, no two at one place, all go in. -/
theorem foldlM_loadBlock {t : FilesTable δ} {rows : List (LoadedBlock δ)} {recs : List Filerec}
    {tree : HashTree δ} {blocks : List (FileBlock δ)} (h : tree.Holds blocks)
    (hfiles : ∀ row ∈ rows, ∃ f ∈ t.rows, f.id = row.fileid)
    (hplaces : ((blocks ++ rows.map LoadedBlock.block).map fun b => (b.bFile, b.bLoff)).Nodup) :
    ∃ recs' tree', rows.foldlM (loadBlock t) (recs, tree) = some (recs', tree') ∧
      tree'.Holds (blocks ++ rows.map LoadedBlock.block) := by
  induction rows generalizing recs tree blocks with
  | nil => exact ⟨recs, tree, rfl, by simpa using h⟩
  | cons row rows ih =>
    obtain ⟨⟨f, hf, hid⟩, hrest⟩ := List.forall_mem_cons.mp hfiles
    have hsplit : blocks ++ (row :: rows).map LoadedBlock.block =
        (blocks ++ [row.block]) ++ rows.map LoadedBlock.block := by simp
    rw [hsplit] at hplaces ⊢
    have hnew : ∀ b ∈ blocks, b.bFile = row.block.bFile → b.bLoff ≠ row.block.bLoff := by
      intro b hb hfile hloff
      rw [List.map_append, List.map_append, List.append_assoc] at hplaces
      refine (List.nodup_append.mp hplaces).2.2 _ (List.mem_map_of_mem hb) _ ?_ rfl
      rw [hfile, hloff]
      exact List.mem_append_left _ List.mem_cons_self
    obtain ⟨tree₁, hinsert, hholds⟩ := h.insertHashedBlock row.block hnew
    obtain ⟨recs', tree', hrun, hend⟩ := @ih (findOrLoadFilerec t recs row.fileid) _ _ hholds hrest
      hplaces
    refine ⟨recs', tree', ?_, hend⟩
    obtain ⟨file, hfind, hfileid⟩ := filerecFind_findOrLoadFilerec hf recs
    rw [hid] at hfind hfileid
    have hstep : loadBlock t (recs, tree) row =
        some (findOrLoadFilerec t recs row.fileid, tree₁) := by
      rw [loadBlock]
      simp only [hfind, hfileid]
      rw [LoadedBlock.block] at hinsert
      simp only at hinsert
      rw [hinsert, Option.map_some]
    rw [List.foldlM_cons, hstep]
    exact hrun

namespace BlocksTable

variable {x : BlocksTable δ} {t : FilesTable δ} {lo hi : ℕ}

def loadedCopies (x : BlocksTable δ) (t : FilesTable δ) (lo hi : ℕ) : List (JoinedBlock δ) :=
  (x.olderCopies t lo hi).insertionSort ByPlace ++ (x.newCopies t lo hi).insertionSort ByPlace

theorem mem_loadedCopies {j : JoinedBlock δ} : j ∈ x.loadedCopies t lo hi ↔
    j ∈ x.olderCopies t lo hi ∨ j ∈ x.newCopies t lo hi := by
  rw [loadedCopies, List.mem_append, List.mem_insertionSort, List.mem_insertionSort]

theorem mem_joined_of_mem_loadedCopies (hgen : ∀ f ∈ t.rows, 1 ≤ f.dedupeSeq) {j : JoinedBlock δ}
    (hj : j ∈ x.loadedCopies t lo hi) : j ∈ x.joined t := by
  rcases mem_loadedCopies.mp hj with hj | hj
  · exact (mem_copies.mp ((mem_olderCopies hgen).mp hj).2.1).1
  · exact (mem_newCopies.mp hj).1.1

theorem loadedCopies_nodup (hgen : ∀ f ∈ t.rows, 1 ≤ f.dedupeSeq) :
    (x.loadedCopies t lo hi).Nodup := by
  refine List.nodup_append.mpr ⟨?_, ?_, ?_⟩
  · exact (List.perm_insertionSort _ _).nodup_iff.mpr (olderCopies_nodup x t lo hi)
  · exact (List.perm_insertionSort _ _).nodup_iff.mpr (newCopies_nodup x t lo hi)
  · rintro j hj _ hm rfl
    have hold := ((mem_olderCopies hgen).mp ((List.mem_insertionSort _).mp hj)).2.1
    have hnew := (mem_newCopies.mp ((List.mem_insertionSort _).mp hm)).1.2.1
    exact absurd (mem_copies.mp hold).2.2 (by omega)

theorem map_block_getDuplicateBlocks (hgen : ∀ f ∈ t.rows, 1 ≤ f.dedupeSeq) :
    (x.getDuplicateBlocks t lo hi).map LoadedBlock.block =
      (x.loadedCopies t lo hi).map fun j => ⟨j.1.fileid, j.1.loff, j.1.digest⟩ := by
  rw [getDuplicateBlocks_eq hgen, loadedCopies, List.map_append, List.map_append, List.map_map,
    List.map_map]
  rfl

/-- A digest that is loaded at all is loaded twice. -/
theorem exists_ne_of_mem_loadedCopies (hgen : ∀ f ∈ t.rows, 1 ≤ f.dedupeSeq) {j : JoinedBlock δ}
    (hj : j ∈ x.loadedCopies t lo hi) :
    ∃ a ∈ x.loadedCopies t lo hi, ∃ b ∈ x.loadedCopies t lo hi, a ≠ b ∧
      a.1.digest = j.1.digest ∧ b.1.digest = j.1.digest := by
  obtain ⟨w, hw, hdigest⟩ : ∃ w ∈ x.newCopies t lo hi, w.1.digest = j.1.digest := by
    rcases mem_loadedCopies.mp hj with hj | hj
    · exact ((mem_olderCopies hgen).mp hj).1
    · exact ⟨j, hj, rfl⟩
  obtain ⟨hwin, htwo⟩ := mem_newCopies.mp hw
  obtain ⟨c, hc, hne⟩ : ∃ c ∈ x.copies t hi w.1.digest, c ≠ w := by
    by_contra! hall
    have hnodup : (x.copies t hi w.1.digest).Nodup := (joined_nodup x t).filter _
    have hsub : x.copies t hi w.1.digest ⊆ [w] := fun c hc => List.mem_singleton.mpr (hall c hc)
    have hlen := hnodup.length_le_of_subset hsub
    rw [List.length_singleton] at hlen
    omega
  obtain ⟨hcj, hcd, hle⟩ := mem_copies.mp hc
  refine ⟨w, mem_loadedCopies.mpr (Or.inr hw), ?_⟩
  by_cases hnew : lo < c.2.dedupeSeq
  · refine ⟨c, mem_loadedCopies.mpr (Or.inr ?_), hne.symm, hdigest, hcd.trans hdigest⟩
    exact mem_newCopies.mpr ⟨⟨hcj, hnew, hle⟩, hcd ▸ htwo⟩
  · -- a copy from before the window: the oldest of them is loaded with it
    have hlen : 0 < (x.copies t lo w.1.digest).length :=
      List.length_pos_of_mem (mem_copies.mpr ⟨hcj, hcd, not_lt.mp hnew⟩)
    obtain ⟨m, hm⟩ := Option.isSome_iff_exists.mp (oldest_isSome_iff.mpr hlen)
    obtain ⟨hmd, hmold⟩ := oldest_eq_some_iff.mp hm
    refine ⟨m, mem_loadedCopies.mpr (Or.inl ?_), ?_, hdigest, hmd.trans hdigest⟩
    · exact (mem_olderCopies hgen).mpr ⟨⟨w, hw, hmd.symm⟩, hmold⟩
    · rintro rfl
      exact absurd (mem_copies.mp hmold.1).2.2 (by omega)

end BlocksTable

theorem one_lt_length_of_mem_of_ne {α : Type*} {l : List α} {a b : α} (ha : a ∈ l) (hb : b ∈ l)
    (hne : a ≠ b) : 1 < l.length := by
  by_contra! hlen
  obtain ⟨c, rfl⟩ := List.length_eq_one_iff.mp (le_antisymm hlen (List.length_pos_of_mem ha))
  rw [List.mem_singleton] at ha hb
  exact hne (ha.trans hb.symm)

def fourCopies : BlocksTable ℕ where
  rows := [⟨1, 7, 2, 4096⟩, ⟨2, 7, 2, 0⟩, ⟨3, 7, 3, 0⟩, ⟨4, 7, 1, 8192⟩, ⟨5, 8, 1, 0⟩]
  rowids_nodup := by decide
  unique := by decide

example : (fourCopies.getDuplicateBlocks threeFiles 1 3).map LoadedBlock.r = [1, 4, 3] := by decide

open BlocksTable in
/-- A window's rows are its blocks with two copies up to its end, behind the oldest earlier copy of
each digest that has one; the load ends with exactly these, two or more on every list. -/
theorem window_loads_duplicate_blocks (x : BlocksTable δ) (t : FilesTable δ) (lo hi : ℕ)
    (hgen : ∀ f ∈ t.rows, 1 ≤ f.dedupeSeq) :
    ∃ older new : List (JoinedBlock δ),
      x.getDuplicateBlocks t lo hi =
        older.map (fun j => j.1.loaded 0) ++ new.map (fun j => j.1.loaded 1) ∧
      older.Nodup ∧ new.Nodup ∧ new.Pairwise ByPlace ∧
      (∀ j, j ∈ new ↔ (j ∈ x.joined t ∧ lo < j.2.dedupeSeq ∧ j.2.dedupeSeq ≤ hi) ∧
        1 < (x.copies t hi j.1.digest).length) ∧
      (∀ j, j ∈ older ↔ (∃ w ∈ new, w.1.digest = j.1.digest) ∧ x.IsOldest t lo j) ∧
      ∀ recs, ∃ recs' tree, dbfileLoadBlockHashes x t lo hi (recs, .init) = some (recs', tree) ∧
        tree.Holds ((x.getDuplicateBlocks t lo hi).map LoadedBlock.block) ∧
        ∀ l ∈ tree.root, 2 ≤ l.dlList.length ∧ l.dlNumElem = l.dlList.length := by
  refine ⟨(x.olderCopies t lo hi).insertionSort ByPlace,
    (x.newCopies t lo hi).insertionSort ByPlace, getDuplicateBlocks_eq hgen,
    (List.perm_insertionSort _ _).nodup_iff.mpr (olderCopies_nodup x t lo hi),
    (List.perm_insertionSort _ _).nodup_iff.mpr (newCopies_nodup x t lo hi),
    List.pairwise_insertionSort _ _, fun j => ?_, fun j => ?_, fun recs => ?_⟩
  · rw [List.mem_insertionSort, mem_newCopies]
  · simp only [List.mem_insertionSort, mem_olderCopies hgen]
  · have hfiles : ∀ row ∈ x.getDuplicateBlocks t lo hi, ∃ f ∈ t.rows, f.id = row.fileid := by
      intro row hrow
      have hblock := List.mem_map_of_mem (f := LoadedBlock.block) hrow
      rw [map_block_getDuplicateBlocks hgen] at hblock
      obtain ⟨j, hj, heq⟩ := List.mem_map.mp hblock
      obtain ⟨-, hf, hid⟩ := mem_joined.mp (mem_joined_of_mem_loadedCopies hgen hj)
      exact ⟨j.2, hf, hid.symm.trans (congrArg FileBlock.bFile heq)⟩
    have hplaces : (([] ++ (x.getDuplicateBlocks t lo hi).map LoadedBlock.block).map
        fun b : FileBlock δ => (b.bFile, b.bLoff)).Nodup := by
      rw [List.nil_append, map_block_getDuplicateBlocks hgen, List.map_map]
      refine (loadedCopies_nodup hgen).map_on fun j hj m hm heq => ?_
      exact eq_of_place_eq (mem_joined_of_mem_loadedCopies hgen hj)
        (mem_joined_of_mem_loadedCopies hgen hm) heq
    obtain ⟨recs', tree, hrun, hholds⟩ := @foldlM_loadBlock _ _ t _ recs _ _ HashTree.holds_init
      hfiles hplaces
    rw [List.nil_append] at hholds
    refine ⟨recs', tree, hrun, hholds, fun l hl => ⟨?_, hholds.counted l hl⟩⟩
    have hdigest := (hholds.hashes l.dlHash).mp (List.mem_map_of_mem hl)
    rw [map_block_getDuplicateBlocks hgen, List.map_map] at hdigest
    obtain ⟨j, hj, hjl⟩ := List.mem_map.mp hdigest
    obtain ⟨a, ha, b, hb, hne, had, hbd⟩ := exists_ne_of_mem_loadedCopies hgen hj
    have hin : ∀ {c}, c ∈ x.loadedCopies t lo hi → c.1.digest = j.1.digest →
        (⟨c.1.fileid, c.1.loff, c.1.digest⟩ : FileBlock δ) ∈ l.dlList := by
      intro c hc hcd
      rw [hholds.listed l hl, map_block_getDuplicateBlocks hgen, List.mem_filter]
      exact ⟨List.mem_map.mpr ⟨c, hc, rfl⟩, decide_eq_true (hcd.trans hjl)⟩
    refine one_lt_length_of_mem_of_ne (hin ha had) (hin hb hbd) fun heq => hne ?_
    refine eq_of_place_eq (mem_joined_of_mem_loadedCopies hgen ha)
      (mem_joined_of_mem_loadedCopies hgen hb) ?_
    exact congrArg (fun e : FileBlock δ => (e.bFile, e.bLoff)) heq

/-- Two copies in the window and two before it: the new ones follow the older of the others. -/
theorem window_loads_duplicate_blocks_fourCopies :
    ∃ older new : List (JoinedBlock ℕ), fourCopies.getDuplicateBlocks threeFiles 1 3 =
      older.map (fun j => j.1.loaded 0) ++ new.map (fun j => j.1.loaded 1) ∧ older.Nodup ∧
      ∀ j, j ∈ older ↔ (∃ w ∈ new, w.1.digest = j.1.digest) ∧ fourCopies.IsOldest threeFiles 1 j := by
  obtain ⟨older, new, heq, holder, -, -, -, hmem, -⟩ :=
    window_loads_duplicate_blocks fourCopies threeFiles 1 3 (by decide)
  exact ⟨older, new, heq, holder, hmem⟩

end Oans
