import Oans.BlockGrid
import Oans.ExtentDigests
import Oans.FileEnd
import Oans.StoredRows

/-!
# The rows a finished scan has stored

Turn by turn the extent rows are those of the records the loop comes to the end of, and the block
rows those of the blocks it passes. A from-scratch scan that ends at the file size has made the rows
of the whole file, and what it has made it has stored.
-/

namespace Oans

open Savepoint Slice

namespace Hashing

variable {δ : Type*} {job : Hashing δ} {content : ℕ → UInt8} {clean : FiemapExtent → Prop}

theorem RowsOf.append {off m stop : ℕ} {rows rows' : List (ExtentCsum δ)}
    (h : job.RowsOf content clean off m rows) (h' : job.RowsOf content clean m stop rows')
    (hle : off ≤ m) (hle' : m ≤ stop) (hin : stop ≤ job.filesize) :
    job.RowsOf content clean off stop (rows ++ rows') where
  rowOf row hrow := by
    rcases List.mem_append.mp hrow with hrow | hrow
    · obtain ⟨e, he, hdata, hwhere, hof⟩ := h.rowOf row hrow
      refine ⟨e, he, hdata, hwhere.imp_right fun hend => ?_, hof⟩
      obtain rfl : m = stop := by omega
      exact hend
    · exact h'.rowOf row hrow
  exact hnew := by
    rw [← closedIn_append job hle hle']
    exact List.rel_append (h.exact hnew) (h'.exact hnew)

theorem closedIn_file (job : Hashing δ) : job.closedIn 0 job.filesize = job.dataExtents := by
  refine List.filter_eq_self.mpr fun e he => ?_
  have := lt_closesAt he
  simp only [decide_eq_true_eq]
  exact ⟨by omega, Nat.min_le_right _ _⟩

/-- Where every record is vouched for, the rows are determined. -/
theorem rows_eq_of_rowOf {es : List FiemapExtent} {rows : List (ExtentCsum δ)}
    (h : List.Forall₂ (job.RowOf content fun _ => True) es rows) :
    rows = es.map (job.extentRow content) := by
  induction h with
  | nil => rfl
  | @cons e row es rows hrow _ ih =>
    rw [List.map_cons, ← ih]
    congr 1
    rcases row with ⟨loff, poff, len, digest⟩
    obtain ⟨rfl, rfl, rfl, hdigest⟩ := hrow
    obtain rfl := hdigest trivial
    rfl

end Hashing

namespace ScanEnv

variable {δ ω : Type*} {env : ScanEnv δ ω} {content : ℕ → UInt8} {clean : FiemapExtent → Prop}
  {s t : LoopState δ ω} {rows : Rows δ}

/-- A run from `s` in which no turn meets a byte of the gap before a record that is vouched for. -/
def RunLeavesGaps (env : ScanEnv δ ω) (content : ℕ → UInt8) (clean : FiemapExtent → Prop)
    (s : LoopState δ ω) : Prop :=
  ∀ u v rows emit eof, env.Makes content s u rows → u.ctxt.off < env.filesize →
    env.Turn content eof u v emit → v.ctxt.off ≤ env.filesize →
    ¬ env.fiemap.HoleBlock env.blocksize u.ctxt.off →
    env.LeavesGaps clean u.ctxt.off v.ctxt.off

theorem runLeavesGaps_of_new (hnew : env.options.oldHoleDigests = false) :
    env.RunLeavesGaps content clean s := by
  intro u v rows emit eof _ _ _ _ _ hold
  rw [hnew] at hold
  cases hold

section Extents

variable (hextents : env.options.onlyWholeFiles = false)
  (hgaps : env.RunLeavesGaps content clean s)
  (hdigest : env.DigestAt content clean s.ctxt.off s.ctxt.extentCsum)

include hextents hgaps hdigest

theorem Makes.extents (h : env.Makes content s t rows) (hin : t.ctxt.off ≤ env.filesize) :
    env.DigestAt content clean t.ctxt.off t.ctxt.extentCsum ∧
      env.RowsOf content clean s.ctxt.off t.ctxt.off rows.extents := by
  induction h with
  | refl => exact ⟨hdigest, .nil (Hashing.closedIn_eq_nil fun _ _ h => h)⟩
  | @turn t u rows emit head hlt hturn ih =>
    obtain ⟨hdigest', hrows⟩ := ih hlt.le
    obtain ⟨hdigest'', hemit⟩ := hturn.extents hextents hin
      (hgaps t u rows emit false head hlt hturn hin) hdigest'
    exact ⟨hdigest'', hrows.append hemit head.off_mono hturn.off_mono hin⟩

theorem Finishes.extents (h : env.Finishes content s t rows) (hin : t.ctxt.off ≤ env.filesize) :
    env.RowsOf content clean s.ctxt.off t.ctxt.off rows.extents := by
  cases h with
  | done head hge => exact (head.extents hextents hgaps hdigest hin).2
  | last head hlt hturn hreach hpass =>
    obtain ⟨hdigest', hrows⟩ := head.extents hextents hgaps hdigest hlt.le
    obtain ⟨-, hemit⟩ := hturn.extents hextents hin
      (hgaps _ _ _ _ true head hlt hturn hin) hdigest'
    exact hrows.append hemit head.off_mono hturn.off_mono hin

end Extents

section Blocks

variable (hblock : env.options.doBlockHash = true)
  (hsound : env.Sound content s.ctxt s.buffer)

include hblock hsound

theorem Makes.blocks (h : env.Makes content s t rows) (hin : t.ctxt.off ≤ env.filesize) :
    rows.blocks =
      env.blocksIn content (env.blockCount s.ctxt.off) (env.blockCount t.ctxt.off) := by
  induction h with
  | refl => exact (Hashing.blocksIn_self _).symm
  | @turn t u rows emit head hlt hturn ih =>
    have hemit := hturn.blocks hblock (head.sound hsound) hlt hin (fun heof => by cases heof)
    rw [← Hashing.blocksIn_append (Hashing.blockCount_mono head.off_mono)
      (Hashing.blockCount_mono hturn.off_mono), ← ih hlt.le, ← hemit]
    rfl

theorem Finishes.blocks (h : env.Finishes content s t rows)
    (hend : t.ctxt.off = env.filesize) :
    rows.blocks =
      env.blocksIn content (env.blockCount s.ctxt.off) (env.blockCount env.filesize) := by
  cases h with
  | done head hge =>
    rw [head.blocks hblock hsound hend.le, hend]
  | @last t u rows emit head hlt hturn hreach hpass =>
    have hemit := hturn.blocks hblock (head.sound hsound) hlt hend.le fun _ => hend
    rw [← hend, ← Hashing.blocksIn_append (Hashing.blockCount_mono head.off_mono)
      (Hashing.blockCount_mono hturn.off_mono), ← head.blocks hblock hsound hlt.le, ← hemit]
    rfl

end Blocks

end ScanEnv

namespace FileScan

variable {δ : Type*} (scan : FileScan δ) (content : ℕ → UInt8) (w w' : ScanWriter (FileHashes δ))
  (fuel : ℕ)

variable {scan content w w' fuel} in
theorem stored_of_fresh (hreads : scan.env.ReadsFrom content) (hidle : w.Idle)
    (hfresh : w.view = FileHashes.empty)
    (hrun : scan.csumWholeFile fuel none w = some (.stored w')) :
    (∃ r rows, scan.env.Finishes content (scan.env.freshState w) r rows ∧
        r.ctxt.off = scan.filesize ∧ w'.view.extents = rows.extents ∧
        (scan.inlined = false → w'.view.blocks = rows.blocks) ∧
        (scan.inlined = true → w'.view.blocks = []) ∧
        w'.view.scanned = some (scan.scannedFile r.ctxt.fileCsum)) ∨
      ScanWriter.Fails scan.io ∧ w'.Harmed := by
  have hrec : w.Records [] ∅ Hashes.empty := by
    refine ⟨hidle, ?_, ?_, ?_, fun _ => ?_⟩ <;> rw [hfresh] <;> rfl
  exact @stored_of_start _ scan content w [] w' ∅ fuel none hreads
    (scan.env.freshState_sound content w) hrec
    ⟨List.nodup_nil, fun _ h => absurd h List.not_mem_nil⟩ hrun

/-- A from-scratch scan that finishes has stored one extent row for each record without skip flags
that starts before the end of the file, and no other. -/
theorem extent_rows_exact (hreads : scan.env.ReadsFrom content)
    (hextents : scan.options.onlyWholeFiles = false)
    (hnew : scan.options.oldHoleDigests = false) (hidle : w.Idle)
    (hfresh : w.view = FileHashes.empty)
    (hrun : scan.csumWholeFile fuel none w = some (.stored w'))
    (hwrites : ScanWriter.Fails scan.io → ¬ w'.Harmed) :
    w'.view.extents = scan.dataExtents.map (scan.extentRow content) := by
  rcases stored_of_fresh hreads hidle hfresh hrun with
    ⟨r, rows, hfinishes, hoff, hext, -⟩ | ⟨hfails, hharm⟩
  · have hdigest : scan.env.DigestAt content (fun _ => True)
        (scan.env.freshState w).ctxt.off (scan.env.freshState w).ctxt.extentCsum :=
      .of_none_begun fun _ _ _ _ => Nat.zero_le _
    have hrows := hfinishes.extents hextents (ScanEnv.runLeavesGaps_of_new hnew) hdigest hoff.le
    have hall := hrows.exact hnew
    rw [hoff] at hall
    rw [hext]
    refine Hashing.rows_eq_of_rowOf ?_
    rw [← Hashing.closedIn_file]
    exact hall
  · exact absurd hharm (hwrites hfails)

end FileScan

/-- A hole of one block, and a record that runs past the end of the file. -/
def tailFile : FileToScan where
  filesize := 4100
  mtime := 0
  fiemap := ⟨[⟨4096, 8192, 8192, FIEMAP_EXTENT_LAST⟩], by simp, by simp⟩

def tailContent (p : ℕ) : UInt8 := UInt8.ofNat (p - 4090)

/-- A first scan of it with block hashing on; digests are the bytes themselves. -/
def tailScan : FileScan (List UInt8) where
  options := ⟨fourKiB, true, false, false, false⟩
  file := tailFile
  xxh := id
  pacing := ⟨true, 2, 2 ^ 30, 0⟩
  pread := fullReads tailContent
  interrupted _ := false
  io := ⟨fun _ => .ok, fun _ => false⟩
  rdonlySubvol := false

theorem tailScan_readsFrom : tailScan.env.ReadsFrom tailContent := by
  intro pos want data h
  obtain rfl : slice tailContent pos (pos + want) = data := by
    simpa [FileScan.env, tailScan, fullReads] using h
  simp

theorem tailScan_stores : ∃ w', tailScan.csumWholeFile 3 none (.opened .empty) =
    some (.stored w') := ⟨_, rfl⟩

theorem not_fails_tailScan : ¬ ScanWriter.Fails tailScan.io := fun ⟨_, h⟩ => h rfl

theorem extent_rows_exact_tailScan : ∃ w', tailScan.csumWholeFile 3 none (.opened .empty) =
    some (.stored w') ∧ w'.view.extents = [⟨4096, 8192, 8192, [6, 7, 8, 9]⟩] := by
  obtain ⟨w', hrun⟩ := tailScan_stores
  exact ⟨w', hrun, FileScan.extent_rows_exact tailScan tailContent _ w' 3 tailScan_readsFrom rfl rfl
    (ScanWriter.opened_idle _) rfl hrun fun hfails => absurd hfails not_fails_tailScan⟩

namespace FileScan

variable {δ : Type*} (scan : FileScan δ) (content : ℕ → UInt8) (w w' : ScanWriter (FileHashes δ))
  (fuel : ℕ)

/-- A from-scratch scan of a file that is not inlined, with block hashing on, has stored one row for
each block of the grid that is to have one, and no other. -/
theorem block_rows_exact (hreads : scan.env.ReadsFrom content)
    (hblock : scan.options.doBlockHash = true) (hinlined : scan.inlined = false)
    (hidle : w.Idle) (hfresh : w.view = FileHashes.empty)
    (hrun : scan.csumWholeFile fuel none w = some (.stored w'))
    (hwrites : ScanWriter.Fails scan.io → ¬ w'.Harmed) :
    (w'.view.blocks.map BlockCsum.loff).Nodup ∧
      ∀ row, row ∈ w'.view.blocks ↔ ∃ k, k * scan.blocksize < scan.filesize ∧
        scan.HasBlockRow content k ∧ row = scan.blockRow content k := by
  rcases stored_of_fresh hreads hidle hfresh hrun with
    ⟨r, rows, hfinishes, hoff, -, hblk, -⟩ | ⟨hfails, hharm⟩
  · have hrows := hfinishes.blocks hblock (scan.env.freshState_sound content w) hoff
    rw [hblk hinlined, hrows]
    refine ⟨Hashing.blocksIn_nodup _ _, fun row => ?_⟩
    rw [Hashing.mem_blocksIn]
    constructor
    · rintro ⟨k, -, hlt, hrow, rfl⟩
      exact ⟨k, Hashing.lt_blockCount.mp hlt, hrow, rfl⟩
    · rintro ⟨k, hlt, hrow, rfl⟩
      have hzero : scan.env.blockCount (scan.env.freshState w).ctxt.off = 0 := by
        refine Nat.eq_zero_of_not_pos fun h => ?_
        exact absurd (Hashing.lt_blockCount.mp h) (Nat.not_lt_zero _)
      rw [hzero]
      exact ⟨k, Nat.zero_le k, Hashing.lt_blockCount.mpr hlt, hrow, rfl⟩
  · exact absurd hharm (hwrites hfails)

end FileScan

theorem block_rows_exact_tailScan : ∃ w', tailScan.csumWholeFile 3 none (.opened .empty) =
    some (.stored w') ∧ (w'.view.blocks.map BlockCsum.loff).Nodup ∧
      ∀ row, row ∈ w'.view.blocks ↔ ∃ k, k * 4096 < 4100 ∧
        tailScan.HasBlockRow tailContent k ∧ row = tailScan.blockRow tailContent k := by
  obtain ⟨w', hrun⟩ := tailScan_stores
  exact ⟨w', hrun, FileScan.block_rows_exact tailScan tailContent _ w' 3 tailScan_readsFrom rfl rfl
    (ScanWriter.opened_idle _) rfl hrun fun hfails => absurd hfails not_fails_tailScan⟩

end Oans
