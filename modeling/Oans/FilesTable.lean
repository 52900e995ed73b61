import Mathlib.Data.List.Sort
import Mathlib.Tactic
import Oans.IntervalCut
import Oans.ResultsTree

/-!
# The files table and its whole-file duplicate groups

The rows of `files` as the dedupe phase reads them, the query `GET_DUPLICATE_FILES` selection by
selection, and the loader that feeds its result to the results tree. SQL comparisons with NULL
never hold: a row without digest has no group, and a row without flags is not known to be free of
`FILE_INLINED`.
-/

namespace Oans

open IntervalCut

def fileInlined : ℕ := 0x0001

def fileRoSubvol : ℕ := 0x0002

structure FileRow (δ : Type*) where
  id : ℤ
  filename : String
  size : ℕ
  dedupeSeq : ℕ
  digest : Option δ
  flags : Option ℕ
  nrExtents : ℕ
  deriving DecidableEq, Repr

namespace FileRow

variable {δ : Type*}

def key (r : FileRow δ) : Option (δ × ℕ) := r.digest.map (·, r.size)

theorem size_eq_of_key {r : FileRow δ} {k : δ × ℕ} (h : r.key = some k) : r.size = k.2 := by
  obtain ⟨d, -, rfl⟩ := Option.map_eq_some_iff.mp h
  rfl

/-- SQL's `not (flags & 1)`. -/
def notInlined (r : FileRow δ) : Bool := r.flags.any fun f => f &&& fileInlined == 0

def inWindow (r : FileRow δ) (lo hi : ℕ) : Bool := decide (lo < r.dedupeSeq ∧ r.dedupeSeq ≤ hi)

theorem inWindow_iff {r : FileRow δ} {w : Window ℕ} :
    r.inWindow w.lo w.hi = true ↔ w.Contains r.dedupeSeq := decide_eq_true_iff

def roSubvol (r : FileRow δ) : ℕ := r.flags.getD 0 &&& fileRoSubvol

/-- `order by (flags & 2) desc, nr_extents, id`. -/
def RankLe (a b : FileRow δ) : Prop :=
  b.roSubvol < a.roSubvol ∨ a.roSubvol = b.roSubvol ∧
    (a.nrExtents < b.nrExtents ∨ a.nrExtents = b.nrExtents ∧ a.id ≤ b.id)

instance : DecidableRel (RankLe (δ := δ)) := fun _ _ => inferInstanceAs (Decidable (_ ∨ _))

instance : Std.Total (RankLe (δ := δ)) where
  total a b := by unfold RankLe; omega

instance : IsTrans (FileRow δ) RankLe where
  trans a b c := by unfold RankLe; omega

end FileRow

/-- `id` is the table's primary key. -/
structure FilesTable (δ : Type*) where
  rows : List (FileRow δ)
  ids_nodup : (rows.map FileRow.id).Nodup

structure TgtRow (δ : Type*) where
  key : δ × ℕ
  fileid : ℤ
  seq : ℕ

/-- A row `GET_DUPLICATE_FILES` returns. -/
structure LoadedFile (δ : Type*) where
  id : ℤ
  size : ℕ
  digest : δ
  filename : String
  dedupeSeq : ℕ
  isTarget : Bool
  deriving DecidableEq, Repr

/-- `order by is_target desc, f.id`. -/
def LoadedFile.le {δ : Type*} (a b : LoadedFile δ) : Prop :=
  a.isTarget = true ∧ b.isTarget = false ∨ a.isTarget = b.isTarget ∧ a.id ≤ b.id

instance {δ : Type*} : DecidableRel (LoadedFile.le (δ := δ)) := fun _ _ =>
  inferInstanceAs (Decidable (_ ∨ _))

instance {δ : Type*} : Std.Total (LoadedFile.le (δ := δ)) where
  total a b := by unfold LoadedFile.le; cases a.isTarget <;> cases b.isTarget <;> simp <;> omega

instance {δ : Type*} : IsTrans (LoadedFile δ) LoadedFile.le where
  trans a b c := by
    unfold LoadedFile.le
    cases a.isTarget <;> cases b.isTarget <;> cases c.isTarget <;> simp <;> omega

namespace FilesTable

variable {δ : Type*} [DecidableEq δ] (t : FilesTable δ)

/-- `select max(dedupe_seq) from files`, 0 for an empty table. -/
def getMaxDedupeSeq : ℕ := (t.rows.map FileRow.dedupeSeq).foldr max 0

def members (k : δ × ℕ) : List (FileRow δ) :=
  t.rows.filter fun r => r.notInlined && decide (r.key = some k)

/-- The row numbered 1 in the partition of `k`: the elected target. -/
def target (k : δ × ℕ) : Option (FileRow δ) := ((t.members k).insertionSort FileRow.RankLe).head?

def grp (lo hi : ℕ) : List (δ × ℕ) :=
  ((t.rows.filter fun r => r.inWindow lo hi && r.notInlined).filterMap FileRow.key).dedup.filter
    fun k => 1 < (t.members k).length

/-- Whether `tgt` keeps the group of target `r`: it is outside the window, or another member would
load with it. -/
def keepsTarget (lo hi phaseLo : ℕ) (k : δ × ℕ) (r : FileRow δ) : Bool :=
  decide (r.dedupeSeq ≤ lo) || decide (hi < r.dedupeSeq) ||
    (t.members k).any fun m =>
      decide (m.id ≠ r.id) && (decide (m.dedupeSeq ≤ phaseLo) || m.inWindow lo hi)

def tgt (lo hi phaseLo : ℕ) : List (TgtRow δ) :=
  (t.grp lo hi).filterMap fun k => (t.target k).bind fun r =>
    if t.keepsTarget lo hi phaseLo k r then some ⟨k, r.id, r.dedupeSeq⟩ else none

/-- The last `where` of the query, for `f` joined with its group's target row. -/
def selects (lo hi phaseLo : ℕ) (f : FileRow δ) (x : TgtRow δ) : Bool :=
  f.notInlined && (f.inWindow lo hi || decide (f.id = x.fileid) ||
    (decide (lo < x.seq ∧ x.seq ≤ hi) && decide (f.dedupeSeq ≤ phaseLo)))

def joinedRow (lo hi phaseLo : ℕ) (f : FileRow δ) (x : TgtRow δ) : Option (LoadedFile δ) :=
  if f.key = some x.key ∧ selects lo hi phaseLo f x then
    some ⟨f.id, f.size, x.key.1, f.filename, f.dedupeSeq, decide (f.id = x.fileid)⟩
  else none

def getDuplicateFiles (lo hi phaseLo : ℕ) : List (LoadedFile δ) :=
  (t.rows.flatMap fun f => (t.tgt lo hi phaseLo).filterMap (joinedRow lo hi phaseLo f)).insertionSort
    LoadedFile.le

end FilesTable

/-- What the dedupe phase keeps of a file it opens by name. -/
structure Filerec where
  fileid : ℤ
  filename : String
  size : ℕ
  deriving DecidableEq, Repr

def filerecFind (recs : List Filerec) (fileid : ℤ) : Option Filerec :=
  recs.find? fun r => decide (r.fileid = fileid)

section Load

variable {δ : Type*} [DecidableEq δ]

/-- One row of `dbfile_load_same_files`: a filerec the global list lacks is created. -/
def loadSameFile (st : List Filerec × ResultsTree δ) (row : LoadedFile δ) :
    List Filerec × ResultsTree δ :=
  let recs := match filerecFind st.1 row.id with
    | some _ => st.1
    | none => ⟨row.id, row.filename, row.size⟩ :: st.1
  (recs, st.2.insertOneResult row.digest row.id 0 row.size 0)

def dbfileLoadSameFiles (t : FilesTable δ) (seqLo seqHi phaseLo : ℕ)
    (st : List Filerec × ResultsTree δ) : List Filerec × ResultsTree δ :=
  (t.getDuplicateFiles seqLo seqHi phaseLo).foldl loadSameFile st

def loadedTree (t : FilesTable δ) (recs : List Filerec) (w : Window ℕ) (phaseLo : ℕ) :
    ResultsTree δ :=
  (dbfileLoadSameFiles t w.lo w.hi phaseLo (recs, .init)).2

def loadedGroup (t : FilesTable δ) (recs : List Filerec) (w : Window ℕ) (phaseLo : ℕ)
    (k : δ × ℕ) : List ℤ :=
  ((loadedTree t recs w phaseLo).members k.1 k.2).map Extent.eFile

end Load

end Oans
