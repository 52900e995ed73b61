import Mathlib.Data.List.ReduceOption
import Oans.InodeScan
import Oans.ScanResume
import Oans.ScanWriter

/-!
# What is stored while a file is hashed

The rows of a file go to the hashfile in write units: block rows whenever a batch is full, all
staged rows with a checkpoint, and what is left with the file's digest. The units share the batched
writer, so each may fail alone or with the whole batch.
-/

namespace Oans

open Savepoint

structure ScannedFile (δ : Type*) where
  digest : δ
  flags : ℕ
  nrExtents : ℕ
  deriving DecidableEq, Repr

structure FileHashes (δ : Type*) where
  blocks : List (BlockCsum δ)
  extents : List (ExtentCsum δ)
  checkpoint : Option ScanCheckpoint
  scanned : Option (ScannedFile δ)
  deriving DecidableEq, Repr

variable {δ : Type*}

namespace FileHashes

def empty : FileHashes δ := ⟨[], [], none, none⟩

/-- `INSERT INTO blocks`, under `UNIQUE(fileid, loff)`. -/
def insertBlock (row : BlockCsum δ) (f : FileHashes δ) : Option (FileHashes δ) :=
  if row.loff ∈ f.blocks.map BlockCsum.loff then none
  else some { f with blocks := f.blocks ++ [row] }

/-- `INSERT INTO extents`, under `UNIQUE(fileid, loff, len)`. -/
def insertExtent (row : ExtentCsum δ) (f : FileHashes δ) : Option (FileHashes δ) :=
  if (row.loff, row.len) ∈ f.extents.map fun e => (e.loff, e.len) then none
  else some { f with extents := f.extents ++ [row] }

def storeCheckpoint (cp : ScanCheckpoint) (f : FileHashes δ) : Option (FileHashes δ) :=
  some { f with checkpoint := some cp }

def removeCheckpoint (f : FileHashes δ) : Option (FileHashes δ) :=
  some { f with checkpoint := none }

def updateScannedFile (scanned : ScannedFile δ) (f : FileHashes δ) : Option (FileHashes δ) :=
  some { f with scanned := some scanned }

theorem insertBlocks_eq {rows : List (BlockCsum δ)} {f g : FileHashes δ}
    (h : (rows.map insertBlock).foldlM (fun f insert => insert f) f = some g) :
    g = { f with blocks := f.blocks ++ rows } := by
  induction rows generalizing f with
  | nil =>
    obtain rfl := Option.some.inj h
    rw [List.append_nil]
  | cons row rows ih =>
    rw [List.map_cons, List.foldlM_cons] at h
    obtain ⟨f', hrow, hrest⟩ := Option.bind_eq_some_iff.mp h
    unfold insertBlock at hrow
    split_ifs at hrow
    obtain rfl := Option.some.inj hrow
    rw [ih hrest, List.append_assoc, List.singleton_append]

theorem insertExtents_eq {rows : List (ExtentCsum δ)} {f g : FileHashes δ}
    (h : (rows.map insertExtent).foldlM (fun f insert => insert f) f = some g) :
    g = { f with extents := f.extents ++ rows } := by
  induction rows generalizing f with
  | nil =>
    obtain rfl := Option.some.inj h
    rw [List.append_nil]
  | cons row rows ih =>
    rw [List.map_cons, List.foldlM_cons] at h
    obtain ⟨f', hrow, hrest⟩ := Option.bind_eq_some_iff.mp h
    unfold insertExtent at hrow
    split_ifs at hrow
    obtain rfl := Option.some.inj hrow
    rw [ih hrest, List.append_assoc, List.singleton_append]

theorem insertBlocks_ne_none {rows : List (BlockCsum δ)} {f : FileHashes δ}
    (h : ((f.blocks ++ rows).map BlockCsum.loff).Nodup) :
    (rows.map insertBlock).foldlM (fun f insert => insert f) f ≠ none := by
  induction rows generalizing f with
  | nil => exact Option.some_ne_none f
  | cons row rows ih =>
    have hnew : row.loff ∉ f.blocks.map BlockCsum.loff := by
      rw [List.map_append, List.map_cons] at h
      exact fun hmem => List.disjoint_of_nodup_append h hmem List.mem_cons_self
    rw [List.map_cons, List.foldlM_cons, insertBlock, if_neg hnew]
    exact ih (by simpa using h)

end FileHashes

namespace ScanWriter

variable (io : WriterIO)

def storeBlockBatch (hs : Hashes δ) (w : ScanWriter (FileHashes δ)) :
    ℕ × Hashes δ × ScanWriter (FileHashes δ) :=
  if hs.blocks.isEmpty then (0, hs, w)
  else
    let (rc, w) := w.execAll io (hs.blocks.map FileHashes.insertBlock)
    if rc ≠ 0 then (rc, hs, w)
    else
      (0, { hs with blocks := [], blocksFlushed := hs.blocksFlushed + hs.blocks.length }, w)

/-- `store_extent_batch()`; a staged extent of length 0 is passed over. -/
def storeExtentBatch (hs : Hashes δ) (w : ScanWriter (FileHashes δ)) :
    ℕ × Hashes δ × ScanWriter (FileHashes δ) :=
  if hs.extents.isEmpty then (0, hs, w)
  else
    let (rc, w) := w.execAll io (hs.extents.reduceOption.map FileHashes.insertExtent)
    if rc ≠ 0 then (rc, hs, w) else (0, { hs with extents := [] }, w)

/-- Rows that were staged in `hs` and are not in `hs'`, the counts the arrays are left with. -/
def fewerStaged (hs hs' : Hashes δ) : Bool :=
  decide (hs'.blocks.length < hs.blocks.length ∨
    hs'.extents.reduceOption.length < hs.extents.reduceOption.length)

def flushBlockHashes (hs : Hashes δ) (w : ScanWriter (FileHashes δ)) :
    ℤ × Hashes δ × ScanWriter (FileHashes δ) :=
  if hs.blocks.isEmpty then (0, hs, w)
  else
    let (ret, w) := w.writeBegin io
    if ret ≠ 0 then (ret, hs, w.report .blockBatch ret false)
    else
      let (rc, hs', w) := w.storeBlockBatch io hs
      let (ret, w) := if rc ≠ 0 then ((rc : ℤ), w.writeAbort io) else w.writeEnd io
      (ret, hs', w.report .blockBatch ret (fewerStaged hs hs'))

def checkpointWrites (hs : Hashes δ) (cp : ScanCheckpoint) (w : ScanWriter (FileHashes δ)) :
    ℕ × Hashes δ × ScanWriter (FileHashes δ) :=
  let (rc, hs, w) := w.storeExtentBatch io hs
  if rc ≠ 0 then (rc, hs, w)
  else
    let (rc, hs, w) := w.storeBlockBatch io hs
    if rc ≠ 0 then (rc, hs, w)
    else
      let (rc, w) := w.run io (Conn.exec (FileHashes.storeCheckpoint cp))
      (rc, hs, w)

/-- The part of `write_checkpoint()` that writes, committed at once. -/
def storeCheckpoint (hs : Hashes δ) (cp : ScanCheckpoint) (w : ScanWriter (FileHashes δ)) :
    ℤ × Hashes δ × ScanWriter (FileHashes δ) :=
  let (ret, w) := w.writeBegin io
  if ret ≠ 0 then (ret, hs, w.report .checkpoint ret false)
  else
    let (rc, hs', w) := w.checkpointWrites io hs cp
    let (ret, w) := if rc ≠ 0 then ((rc : ℤ), w.writeAbort io) else w.writeFlush io
    (ret, hs', w.report .checkpoint ret (fewerStaged hs hs'))

/-- The writes of the last unit: what is left of the rows, the file's row, and no checkpoint any
more. Blocks of an inlined file are not stored. -/
def resultWrites (inlined hadCheckpoint : Bool) (hs : Hashes δ) (scanned : ScannedFile δ)
    (w : ScanWriter (FileHashes δ)) : ℕ × ScanWriter (FileHashes δ) :=
  let (rc, hs, w) := if inlined then (0, hs, w) else w.storeBlockBatch io hs
  let (rc, _, w) := if rc ≠ 0 then (rc, hs, w) else w.storeExtentBatch io hs
  if rc ≠ 0 then (rc, w)
  else
    w.execAll io (FileHashes.updateScannedFile scanned ::
      if hadCheckpoint then [FileHashes.removeCheckpoint] else [])

end ScanWriter

structure FileScan (δ : Type*) extends Hashing δ where
  pacing : Pacing
  pread : ℕ → ℕ → Option (List UInt8)
  interrupted : ℕ → Bool
  io : WriterIO
  rdonlySubvol : Bool

inductive ScanEnd (σ : Type*)
  | stored (w : σ)
  | dropped (w : σ)
  | assertFailed

/-- `is_inlined()`; a file of size 0 is never listed. -/
def Hashing.inlined (job : Hashing δ) : Bool :=
  (job.fiemap.getExtent (job.filesize - 1) 0).1.any FiemapExtent.inline

def Hashing.fileDigest (job : Hashing δ) (fed : List Fed) : δ := job.xxh (fed.flatMap Fed.raw)

namespace FileScan

variable (scan : FileScan δ)

def env : ScanEnv δ (ScanWriter (FileHashes δ)) where
  toHashing := scan.toHashing
  pacing := scan.pacing
  pread := scan.pread
  interrupted := scan.interrupted
  hashfile :=
    ⟨ScanWriter.flushBlockHashes scan.io, ScanWriter.storeCheckpoint scan.io, ScanWriter.batchLost⟩

def scannedFile (fed : List Fed) : ScannedFile δ where
  digest := scan.fileDigest fed
  flags := FILE_SCAN_CHECKED ||| (if scan.inlined then fileInlined else 0) |||
    (if scan.rdonlySubvol then fileRoSubvol else 0)
  nrExtents := scan.fiemap.fmExtents.length

/-- `csum_whole_file()` behind its loop. -/
def storeResults (s : LoopState δ (ScanWriter (FileHashes δ))) :
    ScanEnd (ScanWriter (FileHashes δ)) :=
  if s.ctxt.off ≠ scan.filesize then .dropped s.world
  else
    let (ret, w) := s.world.writeBegin scan.io
    if ret ≠ 0 then .dropped w
    else if scan.inlined = true ∧ s.hashes.blocksFlushed ≠ 0 then .assertFailed
    else
      let (rc, w) := w.resultWrites scan.io scan.inlined (decide (s.lastCheckpoint ≠ 0)) s.hashes
        (scan.scannedFile s.ctxt.fileCsum)
      if rc ≠ 0 then .dropped (w.writeAbort scan.io)
      else
        let (ret, w) := w.writeEnd scan.io
        if ret ≠ 0 then .dropped w else .stored w

def csumWholeFile (fuel : ℕ) (resume : Option ScanCheckpoint) (w : ScanWriter (FileHashes δ)) :
    Option (ScanEnd (ScanWriter (FileHashes δ))) :=
  (scan.env.csumLoop fuel (scan.env.startState resume w)).map fun
    | .next s => .dropped s.world
    | .leave s => scan.storeResults s
    | .abandon s => .dropped s.world
    | .assertFailed => .assertFailed

end FileScan

namespace ScanWriter

variable {io : WriterIO} {w : ScanWriter (FileHashes δ)} {base content : FileHashes δ}

def Harmed (w : ScanWriter (FileHashes δ)) : Prop := ∃ r ∈ w.reports, r.Harmful

/-- What has been made so far is either stored or staged, and the file counts as not scanned. As
long as no blocks have been flushed there are those that `stood` there at the start. -/
structure Records (w : ScanWriter (FileHashes δ)) (stood : List (BlockCsum δ)) (rows : Rows δ)
    (hs : Hashes δ) : Prop where
  idle : w.Idle
  blocks : w.view.blocks ++ hs.blocks = rows.blocks
  extents : w.view.extents ++ hs.extents.reduceOption = rows.extents
  unscanned : w.view.scanned = none
  unflushed : hs.blocksFlushed = 0 → w.view.blocks = stood

structure SameRows (hs hs' : Hashes δ) : Prop where
  blocks : hs'.blocks = hs.blocks
  extents : hs'.extents.reduceOption = hs.extents.reduceOption
  flushed : hs'.blocksFlushed = hs.blocksFlushed

theorem SameRows.refl (hs : Hashes δ) : SameRows hs hs := ⟨rfl, rfl, rfl⟩

theorem Idle.report {unit : HashUnit} {rc : ℤ} {handedOver : Bool} (h : w.Idle) :
    (w.report unit rc handedOver).Idle := ⟨h.kept, h.unit_closed, h.opened, h.closed⟩

/-- After a unit that left everything as it was. -/
theorem Records.kept {stood : List (BlockCsum δ)} {rows : Rows δ} {hs hs' : Hashes δ}
    {w' : ScanWriter (FileHashes δ)} (h : w.Records stood rows hs) (hidle : w'.Idle)
    (hview : w'.view = w.view) (hsame : SameRows hs hs') : w'.Records stood rows hs' where
  idle := hidle
  blocks := by rw [hview, hsame.blocks, h.blocks]
  extents := by rw [hview, hsame.extents, h.extents]
  unscanned := by rw [hview, h.unscanned]
  unflushed hzero := by
    rw [hview]
    exact h.unflushed (hsame.flushed ▸ hzero)

/-- After a unit that stored the staged block rows, and the extent rows `more`. -/
theorem Records.stored {stood : List (BlockCsum δ)} {rows : Rows δ} {hs hs' : Hashes δ}
    {w' : ScanWriter (FileHashes δ)} {more : List (ExtentCsum δ)} {cp : Option ScanCheckpoint}
    (h : w.Records stood rows hs) (hidle : w'.Idle)
    (hview : w'.view = ⟨w.view.blocks ++ hs.blocks, w.view.extents ++ more, cp, w.view.scanned⟩)
    (hblocks : hs'.blocks = []) (hmore : more ++ hs'.extents.reduceOption = hs.extents.reduceOption)
    (hflushed : hs'.blocksFlushed = hs.blocksFlushed + hs.blocks.length) :
    w'.Records stood rows hs' where
  idle := hidle
  blocks := by rw [hview, hblocks, List.append_nil, h.blocks]
  extents := by rw [hview, List.append_assoc, hmore, h.extents]
  unscanned := by rw [hview, h.unscanned]
  unflushed hzero := by
    have hnil : hs.blocks = [] := List.length_eq_zero_iff.mp (by omega)
    rw [hview, hnil, List.append_nil]
    exact h.unflushed (by omega)

section Quiet

variable (hquiet : ¬ Fails io)

include hquiet

/-- Where every statement is answered with success, one that a constraint forbids leaves the unit
as it was. -/
theorem run_exec_of_quiet (h : w.InUnit base content)
    (f : FileHashes δ → Option (FileHashes δ)) :
    ∃ s, (w.run io (Conn.exec f)).2.InUnit base s := by
  have hrc : (io.answers w.tick).rc = 0 := by
    by_contra hne
    exact hquiet ⟨_, hne⟩
  rcases w with ⟨⟨durable, superseded, trans⟩, transOpen, unitOpen, batchLost, asserted, k, reports⟩
  rcases h with ⟨rfl, rfl, rfl, rfl⟩
  dsimp only at hrc
  cases hf : f content with
  | none =>
    exact ⟨content, by simp [run, Conn.exec, Conn.view, hrc, hf, InUnit_iff]⟩
  | some s =>
    exact ⟨s, by simp [run, Conn.exec, Conn.view, hrc, hf, InUnit_iff]⟩

theorem execAll_of_quiet (h : w.InUnit base content)
    (fs : List (FileHashes δ → Option (FileHashes δ))) :
    ∃ s, (w.execAll io fs).2.InUnit base s := by
  induction fs generalizing w content with
  | nil => exact ⟨content, h⟩
  | cons f fs ih =>
    obtain ⟨s, hunit⟩ := run_exec_of_quiet hquiet h f
    rw [execAll]
    dsimp only
    split_ifs
    · exact ⟨s, hunit⟩
    · exact ih hunit

theorem writeAbort_of_quiet (h : w.InUnit base content) :
    (w.writeAbort io).Idle ∧ (w.writeAbort io).view = base := by
  have hrc : ∀ n, (io.answers n).rc = 0 := fun n => by
    by_contra hne
    exact hquiet ⟨n, hne⟩
  rcases w with ⟨⟨durable, superseded, trans⟩, transOpen, unitOpen, batchLost, asserted, k, reports⟩
  rcases h with ⟨rfl, rfl, rfl, rfl⟩
  simp [writeAbort, run, Conn.rollbackTo, Conn.release, hrc, Conn.autocommit, Idle_iff,
    ScanWriter.view, Conn.view]

end Quiet

variable (io) in
theorem storeBlockBatch_spec (h : w.InUnit base content) (hs : Hashes δ) :
    w.Keeps (w.storeBlockBatch io hs).2.2 ∧
      ((w.storeBlockBatch io hs).1 = 0 ∧ (w.storeBlockBatch io hs).2.1.blocks = [] ∧
          (w.storeBlockBatch io hs).2.1.extents = hs.extents ∧
          (w.storeBlockBatch io hs).2.1.blocksFlushed = hs.blocksFlushed + hs.blocks.length ∧
          (w.storeBlockBatch io hs).2.2.InUnit base
            { content with blocks := content.blocks ++ hs.blocks } ∨
        (w.storeBlockBatch io hs).1 ≠ 0 ∧ (w.storeBlockBatch io hs).2.1 = hs ∧
          (Fails io ∨ ¬ ((content.blocks ++ hs.blocks).map BlockCsum.loff).Nodup) ∧
          (w.storeBlockBatch io hs).2.2.Broken base) := by
  unfold storeBlockBatch
  by_cases hempty : hs.blocks.isEmpty = true
  · have hnil : hs.blocks = [] := List.isEmpty_iff.mp hempty
    rw [if_pos hempty]
    exact ⟨.refl w, Or.inl ⟨rfl, hnil, rfl, by simp [hnil], by simpa [hnil] using h⟩⟩
  · rw [if_neg hempty]
    have hspec := @execAll_spec _ io _ _ _ h (hs.blocks.map FileHashes.insertBlock)
    generalize w.execAll io (hs.blocks.map FileHashes.insertBlock) = ran at hspec ⊢
    obtain ⟨rc, w'⟩ := ran
    obtain ⟨hkeeps, ⟨s, rfl, hins, hunit⟩ | ⟨hrc, hwhy, hbroken⟩⟩ := hspec
    · rw [FileHashes.insertBlocks_eq hins] at hunit
      exact ⟨hkeeps, Or.inl ⟨rfl, rfl, rfl, rfl, hunit⟩⟩
    · dsimp only at hrc ⊢
      rw [if_pos hrc]
      exact ⟨hkeeps, Or.inr ⟨hrc, rfl, hwhy.imp_right fun hnone hnodup =>
        FileHashes.insertBlocks_ne_none hnodup hnone, hbroken⟩⟩

variable (io) in
theorem storeExtentBatch_spec (h : w.InUnit base content) (hs : Hashes δ) :
    w.Keeps (w.storeExtentBatch io hs).2.2 ∧
      ((w.storeExtentBatch io hs).1 = 0 ∧ (w.storeExtentBatch io hs).2.1.extents = [] ∧
          (w.storeExtentBatch io hs).2.1.blocks = hs.blocks ∧
          (w.storeExtentBatch io hs).2.1.blocksFlushed = hs.blocksFlushed ∧
          (w.storeExtentBatch io hs).2.2.InUnit base
            { content with extents := content.extents ++ hs.extents.reduceOption } ∨
        (w.storeExtentBatch io hs).1 ≠ 0 ∧ (w.storeExtentBatch io hs).2.1 = hs ∧
          (Fails io ∨ ∃ s, (w.storeExtentBatch io hs).2.2.InUnit base s) ∧
          (w.storeExtentBatch io hs).2.2.Broken base) := by
  unfold storeExtentBatch
  by_cases hempty : hs.extents.isEmpty = true
  · have hnil : hs.extents = [] := List.isEmpty_iff.mp hempty
    rw [if_pos hempty]
    exact ⟨.refl w, Or.inl ⟨rfl, hnil, rfl, rfl, by simpa [hnil] using h⟩⟩
  · rw [if_neg hempty]
    have hspec := @execAll_spec _ io _ _ _ h (hs.extents.reduceOption.map FileHashes.insertExtent)
    have hstill : Fails io ∨ ∃ s, (w.execAll io
        (hs.extents.reduceOption.map FileHashes.insertExtent)).2.InUnit base s := by
      by_cases hquiet : Fails io
      · exact Or.inl hquiet
      · exact Or.inr (execAll_of_quiet hquiet h _)
    generalize w.execAll io (hs.extents.reduceOption.map FileHashes.insertExtent) = ran
      at hspec hstill ⊢
    obtain ⟨rc, w'⟩ := ran
    obtain ⟨hkeeps, ⟨s, rfl, hins, hunit⟩ | ⟨hrc, -, hbroken⟩⟩ := hspec
    · rw [FileHashes.insertExtents_eq hins] at hunit
      exact ⟨hkeeps, Or.inl ⟨rfl, rfl, rfl, rfl, hunit⟩⟩
    · dsimp only at hrc ⊢
      rw [if_pos hrc]
      exact ⟨hkeeps, Or.inr ⟨hrc, rfl, hstill, hbroken⟩⟩

variable (io) in
theorem checkpointWrites_spec (h : w.InUnit base content) (hs : Hashes δ) (cp : ScanCheckpoint) :
    w.Keeps (w.checkpointWrites io hs cp).2.2 ∧
      ((w.checkpointWrites io hs cp).1 = 0 ∧ (w.checkpointWrites io hs cp).2.1.blocks = [] ∧
          (w.checkpointWrites io hs cp).2.1.extents = [] ∧
          (w.checkpointWrites io hs cp).2.1.blocksFlushed = hs.blocksFlushed + hs.blocks.length ∧
          (w.checkpointWrites io hs cp).2.2.InUnit base
            { content with
              blocks := content.blocks ++ hs.blocks
              extents := content.extents ++ hs.extents.reduceOption
              checkpoint := some cp } ∨
        (w.checkpointWrites io hs cp).1 ≠ 0 ∧
          (fewerStaged hs (w.checkpointWrites io hs cp).2.1 = false →
            SameRows hs (w.checkpointWrites io hs cp).2.1) ∧
          (Fails io ∨ ¬ ((content.blocks ++ hs.blocks).map BlockCsum.loff).Nodup ∨
            SameRows hs (w.checkpointWrites io hs cp).2.1 ∧
              ∃ s, (w.checkpointWrites io hs cp).2.2.InUnit base s) ∧
          (w.checkpointWrites io hs cp).2.2.Broken base) := by
  unfold checkpointWrites
  have hext := storeExtentBatch_spec io h hs
  generalize w.storeExtentBatch io hs = ran at hext ⊢
  obtain ⟨rc, hs₁, w₁⟩ := ran
  obtain ⟨hkeeps, ⟨rfl, hnil, hsame, hcount, hunit⟩ | ⟨hrc, rfl, hstill, hbroken⟩⟩ := hext
  · have hblk := storeBlockBatch_spec io hunit hs₁
    dsimp only at hsame hnil hcount ⊢
    rw [if_neg (not_not_intro rfl)]
    generalize w₁.storeBlockBatch io hs₁ = ran at hblk ⊢
    obtain ⟨rc, hs₂, w₂⟩ := ran
    obtain ⟨hkeeps', ⟨rfl, hnil', hsame', hcount', hunit'⟩ | ⟨hrc, rfl, hwhy, hbroken⟩⟩ := hblk
    · have hrun := run_exec_spec io hunit' (FileHashes.storeCheckpoint cp)
      dsimp only at hnil' hsame' hcount' ⊢
      rw [hcount, hsame] at hcount'
      rw [if_neg (not_not_intro rfl)]
      generalize w₂.run io (Conn.exec (FileHashes.storeCheckpoint cp)) = ran at hrun ⊢
      obtain ⟨rc, w₃⟩ := ran
      obtain ⟨hkeeps'', ⟨f, rfl, hcp, hunit''⟩ | ⟨hrc, hwhy, hbroken⟩⟩ := hrun
      · obtain rfl := Option.some.inj hcp
        rw [hsame] at hunit''
        exact ⟨(hkeeps.trans hkeeps').trans hkeeps'',
          Or.inl ⟨rfl, hnil', hsame'.trans hnil, hcount', hunit''⟩⟩
      · refine ⟨(hkeeps.trans hkeeps').trans hkeeps'', Or.inr ⟨hrc, fun hmany => ?_, ?_, hbroken⟩⟩
        rotate_left
        · exact Or.inl (hwhy.resolve_right (Option.some_ne_none _))
        simp only [fewerStaged, hnil', hsame', hnil, List.length_nil, List.reduceOption_nil,
          decide_eq_false_iff_not, not_or, Nat.not_lt, Nat.le_zero, List.length_eq_zero_iff] at hmany
        exact ⟨hnil'.trans hmany.1.symm, by rw [hsame', hnil, hmany.2]; rfl, by
          dsimp only
          rw [hcount', hmany.1, List.length_nil, Nat.add_zero]⟩
    · dsimp only at hrc hnil hsame ⊢
      rw [if_pos hrc]
      refine ⟨hkeeps.trans hkeeps', Or.inr ⟨hrc, fun hmany => ?_, ?_, hbroken⟩⟩
      rotate_left
      · exact hwhy.imp_right fun hdup => Or.inl (hsame ▸ hdup)
      simp only [fewerStaged, hnil, List.length_nil, List.reduceOption_nil,
        decide_eq_false_iff_not, not_or, Nat.not_lt, Nat.le_zero, List.length_eq_zero_iff] at hmany
      exact ⟨hsame, by rw [hnil, hmany.2]; rfl, hcount⟩
  · dsimp only at hrc ⊢
    rw [if_pos hrc]
    exact ⟨hkeeps, Or.inr ⟨hrc, fun _ => .refl _,
      hstill.imp_right fun hunit => Or.inr ⟨.refl _, hunit⟩, hbroken⟩⟩

def flushed (w : ScanWriter (FileHashes δ)) (hs : Hashes δ) : FileHashes δ :=
  { w.view with blocks := w.view.blocks ++ hs.blocks }

def checkpointed (w : ScanWriter (FileHashes δ)) (hs : Hashes δ) (cp : ScanCheckpoint) :
    FileHashes δ :=
  ⟨w.view.blocks ++ hs.blocks, w.view.extents ++ hs.extents.reduceOption, some cp, w.view.scanned⟩

variable (io) in
/-- A flush of block rows stores them, or it fails and is reported as harmful unless the batch is
lost. -/
theorem flushBlockHashes_lands (h : w.Idle) (hs : Hashes δ) :
    (∀ g ∈ (w.flushBlockHashes io hs).2.2.conn.everDurable,
        g ∈ w.conn.everDurable ∨ g = w.flushed hs) ∧
      ((w.flushBlockHashes io hs).1 = 0 ∧ (w.flushBlockHashes io hs).2.2.Idle ∧
          (w.flushBlockHashes io hs).2.2.view = w.flushed hs ∧
          (w.flushBlockHashes io hs).2.1.blocks = [] ∧
          (w.flushBlockHashes io hs).2.1.extents = hs.extents ∧
          (w.flushBlockHashes io hs).2.1.blocksFlushed = hs.blocksFlushed + hs.blocks.length ∨
        (w.flushBlockHashes io hs).1 ≠ 0 ∧
          (Fails io ∨ ¬ ((w.view.blocks ++ hs.blocks).map BlockCsum.loff).Nodup) ∧
          ((w.flushBlockHashes io hs).2.2.batchLost = true ∨
            (w.flushBlockHashes io hs).2.2.Harmed)) := by
  unfold flushBlockHashes
  by_cases hempty : hs.blocks.isEmpty = true
  · have hnil : hs.blocks = [] := List.isEmpty_iff.mp hempty
    rw [if_pos hempty]
    exact ⟨fun g hg => Or.inl hg, Or.inl ⟨rfl, h, by simp [flushed, hnil], hnil, rfl, by simp [hnil]⟩⟩
  rw [if_neg hempty]
  obtain ⟨hkeeps, hbegin⟩ := @writeBegin_spec _ io _ h
  generalize w.writeBegin io = ran at hkeeps hbegin ⊢
  obtain ⟨ret, w₁⟩ := ran
  rcases hbegin with ⟨rfl, hunit⟩ | ⟨hret, hfails, -⟩
  · have hblk := storeBlockBatch_spec io hunit hs
    dsimp only
    rw [if_neg (not_not_intro rfl)]
    generalize w₁.storeBlockBatch io hs = ran at hblk ⊢
    obtain ⟨rc, hs₂, w₂⟩ := ran
    obtain ⟨hkeeps', ⟨rfl, hnil, hsame, hcount, hunit'⟩ | ⟨hrc, rfl, hwhy, hbroken⟩⟩ := hblk
    · have hend := @writeEnd_spec _ io _ _ _ hunit'
      dsimp only at hnil hsame hcount hend ⊢
      rw [if_neg (not_not_intro rfl)]
      generalize w₂.writeEnd io = ran at hend ⊢
      obtain ⟨ret, w₃⟩ := ran
      refine ⟨fun g hg => ?_, ?_⟩
      · have hkept := (hkeeps.trans hkeeps').2.2
        rcases hend.everDurable with hdurable | ⟨-, hdurable⟩
        · exact Or.inl (hkept ▸ hdurable ▸ hg)
        · exact (List.mem_cons.mp (hdurable ▸ hg)).symm.imp_left fun hg => hkept ▸ hg
      · rcases hend.kept_or_lost with ⟨rfl, hidle, hview⟩ | ⟨hret, hfails, hlost⟩
        · exact Or.inl ⟨rfl, hidle.report, hview, hnil, hsame, hcount⟩
        · exact Or.inr ⟨hret, Or.inl hfails, Or.inl hlost⟩
    · have habort := (@writeAbort_spec _ io _ _ hbroken).1
      dsimp only at hrc hbroken habort ⊢
      have hret : (rc : ℤ) ≠ 0 := by exact_mod_cast hrc
      rw [if_pos hrc]
      dsimp only
      refine ⟨fun g hg => Or.inl (((hkeeps.trans hkeeps').trans habort).2.2 ▸ hg),
        Or.inr ⟨hret, hwhy, ?_⟩⟩
      cases hlost : (w₂.writeAbort io).batchLost with
      | true => exact Or.inl hlost
      | false => exact Or.inr ⟨_, List.mem_cons_self, hret, hlost, Or.inl rfl⟩
  · dsimp only at hret hkeeps ⊢
    rw [if_pos hret]
    refine ⟨fun g hg => Or.inl (hkeeps.2.2 ▸ hg), Or.inr ⟨hret, Or.inl hfails, ?_⟩⟩
    cases hlost : w₁.batchLost with
    | true => exact Or.inl hlost
    | false => exact Or.inr ⟨_, List.mem_cons_self, hret, hlost, Or.inl rfl⟩

/-- A flush records the rows that were staged, or dooms the scan. -/
theorem flushBlockHashes_spec {stood : List (BlockCsum δ)} {rows : Rows δ} {hs : Hashes δ}
    (h : w.Records stood rows hs) :
    (w.flushBlockHashes io hs).1 = 0 ∧
        (w.flushBlockHashes io hs).2.2.Records stood rows (w.flushBlockHashes io hs).2.1 ∧
        (w.flushBlockHashes io hs).2.1.extents = hs.extents ∨
      (w.flushBlockHashes io hs).1 ≠ 0 ∧
        (Fails io ∨ ¬ (rows.blocks.map BlockCsum.loff).Nodup) ∧
        ((w.flushBlockHashes io hs).2.2.batchLost = true ∨
          (w.flushBlockHashes io hs).2.2.Harmed) := by
  obtain ⟨-, ⟨hret, hidle, hview, hnil, hsame, hcount⟩ | ⟨hret, hwhy, hdoom⟩⟩ :=
    flushBlockHashes_lands io h.idle hs
  · have hall : (w.flushBlockHashes io hs).2.2.view = ⟨w.view.blocks ++ hs.blocks,
        w.view.extents ++ [], w.view.checkpoint, w.view.scanned⟩ := by
      rw [hview, flushed, List.append_nil]
    exact Or.inl ⟨hret, h.stored hidle hall hnil (by rw [hsame, List.nil_append]) hcount, hsame⟩
  · exact Or.inr ⟨hret, h.blocks ▸ hwhy, hdoom⟩

variable (io) in
/-- A checkpoint stores all staged rows, or it fails and leaves them staged, or the failure is
reported as harmful or loses the batch. -/
theorem storeCheckpoint_lands (h : w.Idle) (hs : Hashes δ) (cp : ScanCheckpoint) :
    (∀ g ∈ (w.storeCheckpoint io hs cp).2.2.conn.everDurable,
        g ∈ w.conn.everDurable ∨ g = w.checkpointed hs cp) ∧
      ((w.storeCheckpoint io hs cp).2.2.Idle ∧
          (w.storeCheckpoint io hs cp).2.2.view = w.checkpointed hs cp ∧
          (w.storeCheckpoint io hs cp).2.1.blocks = [] ∧
          (w.storeCheckpoint io hs cp).2.1.extents = [] ∧
          (w.storeCheckpoint io hs cp).2.1.blocksFlushed = hs.blocksFlushed + hs.blocks.length ∨
        (w.storeCheckpoint io hs cp).2.2.Idle ∧
          (w.storeCheckpoint io hs cp).2.2.view = w.view ∧
          SameRows hs (w.storeCheckpoint io hs cp).2.1 ∨
        (Fails io ∨ ¬ ((w.view.blocks ++ hs.blocks).map BlockCsum.loff).Nodup) ∧
          ((w.storeCheckpoint io hs cp).2.2.batchLost = true ∨
            (w.storeCheckpoint io hs cp).2.2.Harmed)) := by
  unfold storeCheckpoint
  obtain ⟨hkeeps, hbegin⟩ := @writeBegin_spec _ io _ h
  generalize w.writeBegin io = ran at hkeeps hbegin ⊢
  obtain ⟨ret, w₁⟩ := ran
  rcases hbegin with ⟨rfl, hunit⟩ | ⟨hret, hfails, hopened⟩
  · have hwrites := checkpointWrites_spec io hunit hs cp
    dsimp only
    rw [if_neg (not_not_intro rfl)]
    generalize w₁.checkpointWrites io hs cp = ran at hwrites ⊢
    obtain ⟨rc, hs₂, w₂⟩ := ran
    obtain ⟨hkeeps', ⟨rfl, hnil, hnil', hcount, hunit'⟩ | ⟨hrc, hkept, hwhy, hbroken⟩⟩ := hwrites
    · have hend := @writeFlush_spec _ io _ _ _ hunit'
      dsimp only at hnil hnil' hcount hend ⊢
      rw [if_neg (not_not_intro rfl)]
      generalize w₂.writeFlush io = ran at hend ⊢
      obtain ⟨ret, w₃⟩ := ran
      refine ⟨fun g hg => ?_, ?_⟩
      · have hkept := (hkeeps.trans hkeeps').2.2
        rcases hend.everDurable with hdurable | ⟨-, hdurable⟩
        · exact Or.inl (hkept ▸ hdurable ▸ hg)
        · exact (List.mem_cons.mp (hdurable ▸ hg)).symm.imp_left fun hg => hkept ▸ hg
      · rcases hend.kept_or_lost with ⟨rfl, hidle, hview⟩ | ⟨-, hfails, hlost⟩
        · exact Or.inl ⟨hidle.report, hview, hnil, hnil', hcount⟩
        · exact Or.inr (Or.inr ⟨Or.inl hfails, Or.inl hlost⟩)
    · obtain ⟨hkeeps'', habort⟩ := @writeAbort_spec _ io _ _ hbroken
      have hret : (rc : ℤ) ≠ 0 := by exact_mod_cast hrc
      dsimp only at hrc hkept hwhy hbroken ⊢
      rw [if_pos hrc]
      dsimp only
      refine ⟨fun g hg => Or.inl (((hkeeps.trans hkeeps').trans hkeeps'').2.2 ▸ hg), Or.inr ?_⟩
      rcases or_assoc.mpr hwhy with hwhy | ⟨hsame, s, hunit'⟩
      · rcases habort with ⟨hidle, hview⟩ | hlost
        · cases hfewer : fewerStaged hs hs₂ with
          | true =>
            exact Or.inr ⟨hwhy, Or.inr
              ⟨_, List.mem_cons_self, hret, hidle.kept, Or.inr (Or.inl rfl)⟩⟩
          | false => exact Or.inl ⟨hidle.report, hview, hkept hfewer⟩
        · exact Or.inr ⟨hwhy, Or.inl hlost⟩
      · by_cases hquiet : Fails io
        · rcases habort with ⟨hidle, hview⟩ | hlost
          · exact Or.inl ⟨hidle.report, hview, hsame⟩
          · exact Or.inr ⟨Or.inl hquiet, Or.inl hlost⟩
        · obtain ⟨hidle, hview⟩ := writeAbort_of_quiet hquiet hunit'
          exact Or.inl ⟨hidle.report, hview, hsame⟩
  · dsimp only at hret hkeeps hopened ⊢
    rw [if_pos hret]
    refine ⟨fun g hg => Or.inl (hkeeps.2.2 ▸ hg), Or.inr ?_⟩
    rcases hopened with ⟨hidle, hview⟩ | ⟨hopen, hgone⟩
    · exact Or.inl ⟨hidle.report, hview, .refl _⟩
    · -- the transaction went with the savepoint that failed, and the writer does not know
      refine Or.inr ⟨Or.inl hfails, ?_⟩
      cases hlost : w₁.batchLost with
      | true => exact Or.inl hlost
      | false =>
        refine Or.inr ⟨_, List.mem_cons_self, hret, hlost, Or.inr (Or.inr ?_)⟩
        simp [hopen, Conn.autocommit, hgone]

/-- A checkpoint leaves all rows recorded, stored or staged, or dooms the scan. -/
theorem storeCheckpoint_spec {stood : List (BlockCsum δ)} {rows : Rows δ} {hs : Hashes δ}
    (h : w.Records stood rows hs) (cp : ScanCheckpoint) :
    (w.storeCheckpoint io hs cp).2.2.Records stood rows (w.storeCheckpoint io hs cp).2.1 ∨
      (Fails io ∨ ¬ (rows.blocks.map BlockCsum.loff).Nodup) ∧
        ((w.storeCheckpoint io hs cp).2.2.batchLost = true ∨
          (w.storeCheckpoint io hs cp).2.2.Harmed) := by
  obtain ⟨-, ⟨hidle, hview, hnil, hnil', hcount⟩ | ⟨hidle, hview, hsame⟩ | ⟨hwhy, hdoom⟩⟩ :=
    storeCheckpoint_lands io h.idle hs cp
  · refine Or.inl (h.stored hidle hview hnil ?_ hcount)
    rw [hnil', List.reduceOption_nil, List.append_nil]
  · exact Or.inl (h.kept hidle hview hsame)
  · exact Or.inr ⟨h.blocks ▸ hwhy, hdoom⟩

/-! ### What stays, whatever the state of the writer -/

structure Grows (w w' : ScanWriter (FileHashes δ)) : Prop where
  reports : ∀ r ∈ w.reports, r ∈ w'.reports
  lost : w.batchLost = true → w'.batchLost = true

theorem Grows.refl (w : ScanWriter (FileHashes δ)) : w.Grows w := ⟨fun _ h => h, id⟩

theorem Grows.trans {u v w : ScanWriter (FileHashes δ)} (h : u.Grows v) (h' : v.Grows w) :
    u.Grows w := ⟨fun r hr => h'.reports r (h.reports r hr), fun hl => h'.lost (h.lost hl)⟩

theorem report_grows (w : ScanWriter (FileHashes δ)) (unit : HashUnit) (rc : ℤ)
    (handedOver : Bool) : w.Grows (w.report unit rc handedOver) :=
  ⟨fun _ h => List.mem_cons_of_mem _ h, id⟩

variable (io) (w)

theorem run_grows (op : Answer → Conn (FileHashes δ) → ℕ × Conn (FileHashes δ)) :
    w.Grows (w.run io op).2 := ⟨fun _ h => h, id⟩

theorem execAll_grows (fs : List (FileHashes δ → Option (FileHashes δ))) :
    w.Grows (w.execAll io fs).2 := by
  induction fs generalizing w with
  | nil => exact .refl w
  | cons f fs ih =>
    rw [execAll]
    dsimp only
    split_ifs
    · exact run_grows io w (Conn.exec f)
    · exact (run_grows io w (Conn.exec f)).trans (ih _)

theorem unitRelease_grows : w.Grows (w.unitRelease io).2 := by
  unfold unitRelease
  split_ifs
  · exact .refl w
  · dsimp only
    split_ifs
    · exact ⟨fun _ h => h, fun _ => rfl⟩
    · exact ⟨fun _ h => h, id⟩

theorem writeFlush_grows : w.Grows (w.writeFlush io).2 := by
  have hrelease := unitRelease_grows io w
  unfold writeFlush
  generalize w.unitRelease io = ran at hrelease ⊢
  obtain ⟨rc, w₁⟩ := ran
  dsimp only at hrelease ⊢
  split_ifs
  · exact hrelease
  · exact hrelease.trans ⟨fun _ h => h, fun _ => rfl⟩
  · exact hrelease.trans ⟨fun _ h => h, id⟩

theorem writeEnd_grows : w.Grows (w.writeEnd io).2 := by
  have hrelease := unitRelease_grows io w
  unfold writeEnd
  generalize w.unitRelease io = ran at hrelease ⊢
  obtain ⟨rc, w₁⟩ := ran
  dsimp only at hrelease ⊢
  split_ifs
  · exact hrelease
  · exact hrelease.trans (writeFlush_grows io w₁)
  · exact hrelease

theorem writeAbort_grows : w.Grows (w.writeAbort io) := by
  unfold writeAbort
  split_ifs
  · exact .refl w
  · dsimp only
    split_ifs
    · exact ⟨fun _ h => h, fun _ => rfl⟩
    · exact ⟨fun _ h => h, fun _ => rfl⟩
    · exact ⟨fun _ h => h, id⟩

theorem writeBegin_grows : w.Grows (w.writeBegin io).2 := by
  unfold writeBegin
  split_ifs
  · exact .refl w
  · exact ⟨fun _ h => h, id⟩
  · dsimp only
    split_ifs <;> exact ⟨fun _ h => h, id⟩
  · dsimp only [run]
    split_ifs <;> exact ⟨fun _ h => h, id⟩

theorem storeBlockBatch_grows (hs : Hashes δ) : w.Grows (w.storeBlockBatch io hs).2.2 := by
  unfold storeBlockBatch
  split_ifs
  · exact .refl w
  · dsimp only
    split_ifs <;> exact execAll_grows io w _

theorem storeExtentBatch_grows (hs : Hashes δ) : w.Grows (w.storeExtentBatch io hs).2.2 := by
  unfold storeExtentBatch
  split_ifs
  · exact .refl w
  · dsimp only
    split_ifs <;> exact execAll_grows io w _

theorem resultWrites_grows (inlined hadCheckpoint : Bool) (hs : Hashes δ)
    (scanned : ScannedFile δ) :
    w.Grows (w.resultWrites io inlined hadCheckpoint hs scanned).2 := by
  have hblocks : w.Grows (if inlined then (0, hs, w) else w.storeBlockBatch io hs).2.2 := by
    split_ifs
    · exact .refl w
    · exact storeBlockBatch_grows io w hs
  unfold resultWrites
  generalize (if inlined = true then ((0 : ℕ), hs, w) else w.storeBlockBatch io hs) = ran
    at hblocks ⊢
  obtain ⟨rc, hs₁, w₁⟩ := ran
  dsimp only at hblocks ⊢
  by_cases hrc : rc ≠ 0
  · rw [if_pos hrc, if_pos hrc]
    exact hblocks
  · rw [if_neg hrc]
    split_ifs
    · exact hblocks.trans (storeExtentBatch_grows io w₁ hs₁)
    · exact (hblocks.trans (storeExtentBatch_grows io w₁ hs₁)).trans (execAll_grows io _ _)
    · exact (hblocks.trans (storeExtentBatch_grows io w₁ hs₁)).trans (execAll_grows io _ _)

theorem flushBlockHashes_grows (hs : Hashes δ) : w.Grows (w.flushBlockHashes io hs).2.2 := by
  have hbegin := writeBegin_grows io w
  unfold flushBlockHashes
  split_ifs
  · exact .refl w
  · dsimp only
    split_ifs
    · exact hbegin.trans (report_grows _ _ _ _)
    · exact ((hbegin.trans (storeBlockBatch_grows io _ hs)).trans (writeAbort_grows io _)).trans
        (report_grows _ _ _ _)
    · exact ((hbegin.trans (storeBlockBatch_grows io _ hs)).trans (writeEnd_grows io _)).trans
        (report_grows _ _ _ _)

theorem checkpointWrites_grows (hs : Hashes δ) (cp : ScanCheckpoint) :
    w.Grows (w.checkpointWrites io hs cp).2.2 := by
  have hext := storeExtentBatch_grows io w hs
  unfold checkpointWrites
  dsimp only
  split_ifs
  · exact hext
  · exact hext.trans (storeBlockBatch_grows io _ _)
  · exact (hext.trans (storeBlockBatch_grows io _ _)).trans
      (run_grows io _ (Conn.exec (FileHashes.storeCheckpoint cp)))

theorem storeCheckpoint_grows (hs : Hashes δ) (cp : ScanCheckpoint) :
    w.Grows (w.storeCheckpoint io hs cp).2.2 := by
  have hbegin := writeBegin_grows io w
  unfold storeCheckpoint
  dsimp only
  split_ifs
  · exact hbegin.trans (report_grows _ _ _ _)
  · exact ((hbegin.trans (checkpointWrites_grows io _ hs cp)).trans (writeAbort_grows io _)).trans
      (report_grows _ _ _ _)
  · exact ((hbegin.trans (checkpointWrites_grows io _ hs cp)).trans (writeFlush_grows io _)).trans
      (report_grows _ _ _ _)

end ScanWriter

end Oans
