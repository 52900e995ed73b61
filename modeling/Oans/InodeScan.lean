import Oans.FilesTable
import Oans.UniqueTable

/-!
# How a scan keeps the rows of `files`

The listing thread meets the files of a tree that does not change during the scan, looks each one
up by inode through a connection whose snapshot is refreshed now and then, and writes rows through
another one whose batch is committed now and then; the csum workers store the digests of the files
handed to them. No two paths have the same `path_hash` and no write fails. The hashes of a row
go where the row goes.
-/

namespace Oans

open UniqueTable

def FILE_SCAN_CHECKED : ℕ := 0x0004 ||| 0x0008 ||| 0x0010

structure InodeKey where
  ino : ℕ
  subvol : ℕ
  deriving DecidableEq, Repr

structure InodeStat (δ : Type*) where
  size : ℕ
  mtime : ℕ
  digest : δ

inductive DirEntry
  | regular (inode : InodeKey)
  | other
  deriving DecidableEq, Repr

structure DiskTree (δ : Type*) where
  /-- what `longpath_lstat` finds -/
  entry : String → Option DirEntry
  /-- `longpath_stat` fails with `ENOENT` or `ENOTDIR` -/
  missing : String → Bool
  inode : InodeKey → InodeStat δ
  entry_empty : entry "" = none
  missing_regular : ∀ path i, entry path = some (.regular i) → missing path = false

structure InodeRow (δ : Type*) where
  id : ℤ
  inode : InodeKey
  filename : String
  size : ℕ
  mtime : ℕ
  digest : Option δ
  flags : Option ℕ
  deriving DecidableEq, Repr

namespace InodeRow

variable {δ : Type*}

/-- The primary key, `UNIQUE(ino, subvol)` and `UNIQUE(path_hash)`. -/
def clash (a b : InodeRow δ) : Bool :=
  decide (a.id = b.id ∨ a.inode = b.inode ∨ a.filename = b.filename)

end InodeRow

structure DbFile where
  id : ℤ
  filename : String
  mtime : ℕ
  size : ℕ
  digestValid : Bool
  flags : ℕ
  deriving DecidableEq, Repr

/-- What `scan_row_ok` comes to for a row an older binary hashed. -/
inductive RowCheck
  | rehash
  /-- the file could not be opened or mapped -/
  | unasked
  | passed
  deriving DecidableEq, Repr

inductive InodeEvent
  /-- `scan_write_flush` on either thread -/
  | commit
  /-- `scan_read_flush` -/
  | readFlush
  /-- `__scan_file`; `resume` is what `resume_scan` would return -/
  | visit (path : String) (check : RowCheck) (resume : Bool)
  /-- a worker is done with a file it was handed; `extra` are the flags beside the checked ones -/
  | hashed (fileid : ℤ) (extra : ℕ)
  deriving DecidableEq, Repr

structure InodeScan (δ : Type*) where
  /-- as the writer's connection sees them -/
  rows : List (InodeRow δ)
  committed : List (InodeRow δ)
  /-- of the listing read transaction, while one is open -/
  snapshot : Option (List (InodeRow δ))
  seenInodes : List InodeKey
  seenFiles : List ℤ
  queued : List (ℤ × String)

section

variable {δ : Type*} (tree : DiskTree δ)

def describeFile (rows : List (InodeRow δ)) (inode : InodeKey) : DbFile :=
  match rows.find? fun r => decide (r.inode = inode) with
  | none => ⟨0, "", 0, 0, false, 0⟩
  | some r => ⟨r.id, r.filename, r.mtime, r.size, r.digest.isSome, r.flags.getD 0⟩

def isFileRenamed (pathInDb path : String) : Bool :=
  if pathInDb = "" ∨ pathInDb = path then false else (tree.entry pathInDb).isNone

def newRowid (rows : List (InodeRow δ)) : ℤ := rows.foldr (fun r m => max r.id m) 0 + 1

def dbfileRenameFile (rows : List (InodeRow δ)) (fileid : ℤ) (path : String) : List (InodeRow δ) :=
  updateOrReplace InodeRow.clash (fun r => decide (r.id = fileid))
    (fun r => { r with filename := path }) rows

/-- `dbfile_store_file_info`; the columns `WRITE_FILE` leaves out are NULL. -/
def dbfileStoreFileInfo (rows : List (InodeRow δ)) (inode : InodeKey) (path : String)
    (size mtime : ℕ) : List (InodeRow δ) × ℤ :=
  (insertOrReplace InodeRow.clash rows ⟨newRowid rows, inode, path, size, mtime, none, none⟩,
    newRowid rows)

def storeFileRow (rows : List (InodeRow δ)) (f : DbFile) (inode : InodeKey) (path : String)
    (size mtime : ℕ) (fileRenamed : Bool) : List (InodeRow δ) × ℤ :=
  dbfileStoreFileInfo (if fileRenamed then dbfileRenameFile rows f.id path else rows) inode path
    size mtime

def addFileFlags (rows : List (InodeRow δ)) (fileid : ℤ) (flags : ℕ) : List (InodeRow δ) :=
  rows.map fun r => if r.id = fileid then { r with flags := r.flags.map (· ||| flags) } else r

def updateScannedFile (rows : List (InodeRow δ)) (fileid : ℤ) (digest : δ) (flags : ℕ) :
    List (InodeRow δ) :=
  rows.map fun r =>
    if r.id = fileid then { r with digest := some digest, flags := some flags } else r

namespace InodeScan

def init (rows : List (InodeRow δ)) : InodeScan δ := ⟨rows, rows, none, [], [], []⟩

def view (s : InodeScan δ) : List (InodeRow δ) := s.snapshot.getD s.committed

def keepRow (s : InodeScan δ) (f : DbFile) (check : RowCheck) : InodeScan δ :=
  { s with
    rows := if f.flags &&& FILE_SCAN_CHECKED ≠ FILE_SCAN_CHECKED ∧ check = .passed then
        addFileFlags s.rows f.id FILE_SCAN_CHECKED
      else s.rows
    seenFiles := f.id :: s.seenFiles }

/-- `mark_file_seen`, `mark_inode_seen` and `queue_file_for_scan` of a file that will be hashed. -/
def enqueue (s : InodeScan δ) (fileid : ℤ) (inode : InodeKey) (path : String) : InodeScan δ :=
  { s with
    seenInodes := inode :: s.seenInodes
    seenFiles := fileid :: s.seenFiles
    queued := s.queued ++ [(fileid, path)] }

def scanFile (s : InodeScan δ) (path : String) (check : RowCheck) (resume : Bool) :
    InodeScan δ :=
  match tree.entry path with
  | some (.regular inode) =>
    if inode ∈ s.seenInodes then s
    else
      let f := describeFile s.view inode
      let s := { s with snapshot := some s.view }
      let st := tree.inode inode
      let fileRenamed := isFileRenamed tree f.filename path
      let unchanged := decide (f.mtime = st.mtime ∧ f.size = st.size)
      if unchanged && f.digestValid && !fileRenamed &&
          (decide (f.flags &&& FILE_SCAN_CHECKED = FILE_SCAN_CHECKED) || decide (check ≠ .rehash)) then
        s.keepRow f check
      else if decide (f.id ≠ 0) && unchanged && !f.digestValid && !fileRenamed && resume then
        s.enqueue f.id inode path
      else
        let stored := storeFileRow s.rows f inode path st.size st.mtime fileRenamed
        { s with rows := stored.1 }.enqueue stored.2 inode path
  | _ => s

/-- The worker opens the file by the path it was handed. -/
def hashFile (s : InodeScan δ) (fileid : ℤ) (extra : ℕ) : InodeScan δ :=
  match s.queued.find? fun item => decide (item.1 = fileid) with
  | none => s
  | some item => { s with
      queued := s.queued.erase item
      rows := match tree.entry item.2 with
        | some (.regular inode) => updateScannedFile s.rows fileid (tree.inode inode).digest
            (FILE_SCAN_CHECKED ||| extra)
        | _ => s.rows }

def step (s : InodeScan δ) : InodeEvent → InodeScan δ
  | .commit => { s with committed := s.rows }
  | .readFlush => { s with snapshot := none, committed := s.rows }
  | .visit path check resume => s.scanFile tree path check resume
  | .hashed fileid extra => s.hashFile tree fileid extra

def run (s : InodeScan δ) (events : List InodeEvent) : InodeScan δ := events.foldl (step tree) s

end InodeScan

/-- `dbfile_prune_unscanned_files`; scans that were not interrupted leave no checkpoints. -/
def pruneUnscanned (rows : List (InodeRow δ)) : List (InodeRow δ) :=
  rows.filter fun r => r.digest.isSome

/-- `dbfile_prune_missing_files`. -/
def pruneMissing (seenFiles : List ℤ) (rows : List (InodeRow δ)) : List (InodeRow δ) :=
  rows.filter fun r => decide (r.id ∈ seenFiles) || !tree.missing r.filename

def visits (events : List InodeEvent) : List String :=
  events.filterMap fun e => match e with
    | .visit path _ _ => some path
    | _ => none

/-- A complete scan of the tree, which the walk meets in the order `walk`, and the prune after it
turn the rows `rows` into `rows'`. -/
def Scanned (walk : List String) (rows rows' : List (InodeRow δ)) : Prop :=
  ∃ events, visits events = walk ∧
    ((InodeScan.init (pruneUnscanned rows)).run tree events).queued = [] ∧
    rows' = pruneMissing tree ((InodeScan.init (pruneUnscanned rows)).run tree events).seenFiles
      ((InodeScan.init (pruneUnscanned rows)).run tree events).rows

end

inductive ScanHistory {δ : Type*} : List (DiskTree δ) → List (InodeRow δ) → Prop
  | nil : ScanHistory [] []
  | scan {trees : List (DiskTree δ)} {rows rows' : List (InodeRow δ)} (tree : DiskTree δ)
      (walk : List String) (h : ScanHistory trees rows) (hs : Scanned tree walk rows rows') :
      ScanHistory (tree :: trees) rows'

end Oans
