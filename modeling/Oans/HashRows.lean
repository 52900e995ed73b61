import Oans.FillBuffer

/-!
# Block rows and extent rows

`process_blocks()` stages a digest for each whole block of the buffer and `process_extents()` one
for each record that ends inside it. Both run on the bytes at the scan's offset; a block row may
push the staged batch out to the hashfile first.
-/

namespace Oans

open Slice

/-- `is_block_zeroed()`: the first `int` is 0 and every byte equals the one after it. -/
def isBlockZeroed (block : List UInt8) : Bool :=
  (block.take 4).all (· == 0) && block.dropLast == block.tail

namespace ScanEnv

variable {δ ω : Type*} (env : ScanEnv δ ω)

/-- `add_block_hash()`: a full batch is drained before the row is staged. -/
def addBlockHash (hs : Hashes δ) (w : ω) (row : BlockCsum δ) : ℤ × Hashes δ × ω :=
  let (ret, hs, w) :=
    if env.pacing.blockBatchMax ≤ hs.blocks.length then env.hashfile.flushBlockHashes hs w
    else (0, hs, w)
  if ret ≠ 0 then (ret, hs, w) else (0, { hs with blocks := hs.blocks ++ [row] }, w)

def processBlock (buf : List UInt8) (fileOff : ℕ) (hs : Hashes δ) (w : ω) : ℤ × Hashes δ × ω :=
  env.addBlockHash hs w ⟨fileOff, env.xxh buf⟩

def processBlocksLoop : ℕ → ℕ → List UInt8 → ℕ → Hashes δ → ω → ℤ × ℕ × Hashes δ × ω
  | 0, _, _, cursor, hs, w => (0, cursor, hs, w)
  | n + 1, currFileOff, buf, cursor, hs, w =>
    let block := buf.take env.blocksize
    let (ignored, cursor) := env.fiemap.isBlockIgnored env.blocksize currFileOff cursor
    if ¬ ignored ∧ ¬ (env.options.skipZeroes ∧ isBlockZeroed block) then
      let (ret, hs, w) := env.processBlock block currFileOff hs w
      if ret ≠ 0 then (ret, cursor, hs, w)
      else processBlocksLoop n (currFileOff + env.blocksize) (buf.drop env.blocksize) cursor hs w
    else processBlocksLoop n (currFileOff + env.blocksize) (buf.drop env.blocksize) cursor hs w

/-- `process_blocks()`: the bytes processed, or the error of a batch that could not be drained. -/
def processBlocks (ctxt : ScanCtxt) (buffer : Buffer) (hs : Hashes δ) (w : ω) :
    ℤ × ScanCtxt × Hashes δ × ω :=
  if env.options.doBlockHash = false ∨ buffer.faked = true then
    (buffer.data.length, ctxt, hs, w)
  else
    let nbBlocks := buffer.data.length / env.blocksize
    let (ret, cursor, hs, w) :=
      env.processBlocksLoop nbBlocks ctxt.off buffer.data ctxt.extentCursor hs w
    (if ret ≠ 0 then ret else (nbBlocks * env.blocksize : ℕ),
      { ctxt with extentCursor := cursor }, hs, w)

/-- `store_extent()`; a record with skip flags is staged with length 0. -/
def storeExtent (ctxt : ScanCtxt) (hs : Hashes δ) (e : FiemapExtent) : ScanCtxt × Hashes δ :=
  if e.skipped then (ctxt, { hs with extents := hs.extents ++ [none] })
  else
    ({ ctxt with extentCsum := none },
      { hs with extents := hs.extents ++ [some
          ⟨e.feLogical, e.fePhysical, e.feLength, env.xxh (ctxt.extentCsum.getD [])⟩] })

/-- The loop of `process_extents()` from `fileOff` to `stop`, with the buffer's bytes from
`fileOff` on. -/
def processExtentsLoop (stop : ℕ) :
    ℕ → ℕ → List UInt8 → ScanCtxt → Hashes δ → ScanCtxt × Hashes δ
  | 0, _, _, ctxt, hs => (ctxt, hs)
  | fuel + 1, fileOff, buf, ctxt, hs =>
    if fileOff < stop then
      match env.fiemap.getExtent fileOff ctxt.extentCursor with
      | (none, cursor) => ({ ctxt with extentCursor := cursor, extentCsum := none }, hs)
      | (some e, cursor) =>
        let ctxt := { ctxt with extentCursor := cursor }
        if fileOff < e.feLogical ∧ env.options.oldHoleDigests = false then
          -- the hole before a record is no part of it
          let gap := min (e.feLogical - fileOff) (stop - fileOff)
          processExtentsLoop stop fuel (fileOff + gap) (buf.drop gap) ctxt hs
        else
          let toAdd := if stop < e.feEnd then stop - fileOff else e.feEnd - fileOff
          let ctxt :=
            if e.skipped then ctxt
            else { ctxt with extentCsum := some (ctxt.extentCsum.getD [] ++ buf.take toAdd) }
          -- the part of the record past EOF is never read
          let dummy := e.feEnd - env.filesize
          let (ctxt, hs) :=
            if fileOff + toAdd + dummy = e.feEnd then env.storeExtent ctxt hs e else (ctxt, hs)
          processExtentsLoop stop fuel (fileOff + toAdd) (buf.drop toAdd) ctxt hs
    else (ctxt, hs)

def processExtents (ctxt : ScanCtxt) (buffer : Buffer) (hs : Hashes δ) (bytes : ℕ) :
    ScanCtxt × Hashes δ :=
  env.processExtentsLoop (ctxt.off + bytes) bytes ctxt.off buffer.data ctxt hs

/-- Stage rows one by one, up to the first that fails. -/
def addBlockHashes : List (BlockCsum δ) → Hashes δ → ω → ℤ × Hashes δ × ω
  | [], hs, w => (0, hs, w)
  | row :: rows, hs, w =>
    let (ret, hs, w) := env.addBlockHash hs w row
    if ret ≠ 0 then (ret, hs, w) else addBlockHashes rows hs w

end ScanEnv

namespace Hashing

variable {δ : Type*} (job : Hashing δ)

def KeepsBlock (off : ℕ) (block : List UInt8) : Prop :=
  ¬ job.fiemap.AreaIgnored off (off + job.blocksize) ∧
    ¬ (job.options.skipZeroes = true ∧ isBlockZeroed block = true)

instance (off : ℕ) (block : List UInt8) : Decidable (job.KeepsBlock off block) :=
  inferInstanceAs (Decidable (_ ∧ _))

def blockRows : ℕ → ℕ → List UInt8 → List (BlockCsum δ)
  | 0, _, _ => []
  | n + 1, off, buf =>
    (if job.KeepsBlock off (buf.take job.blocksize)
      then [⟨off, job.xxh (buf.take job.blocksize)⟩] else []) ++
      blockRows n (off + job.blocksize) (buf.drop job.blocksize)

def extentRows (stop : ℕ) :
    ℕ → ℕ → List UInt8 → Option (List UInt8) →
      Option (List UInt8) × List (Option (ExtentCsum δ))
  | 0, _, _, csum => (csum, [])
  | fuel + 1, fileOff, buf, csum =>
    if fileOff < stop then
      match job.fiemap.nextExtent fileOff with
      | none => (none, [])
      | some e =>
        if fileOff < e.feLogical ∧ job.options.oldHoleDigests = false then
          let gap := min (e.feLogical - fileOff) (stop - fileOff)
          extentRows stop fuel (fileOff + gap) (buf.drop gap) csum
        else
          let toAdd := if stop < e.feEnd then stop - fileOff else e.feEnd - fileOff
          let csum := if e.skipped then csum else some (csum.getD [] ++ buf.take toAdd)
          if fileOff + toAdd + (e.feEnd - job.filesize) = e.feEnd then
            let row := if e.skipped then none
              else some ⟨e.feLogical, e.fePhysical, e.feLength, job.xxh (csum.getD [])⟩
            let rest := extentRows stop fuel (fileOff + toAdd) (buf.drop toAdd)
              (if e.skipped then csum else none)
            (rest.1, row :: rest.2)
          else extentRows stop fuel (fileOff + toAdd) (buf.drop toAdd) csum
    else (csum, [])

/-- The bytes of a filled buffer that a turn consumes: whole blocks with block hashing, unless
the buffer is faked. -/
def processed (buffer : Buffer) : ℕ :=
  if job.options.doBlockHash = false ∨ buffer.faked = true then buffer.data.length
  else buffer.data.length / job.blocksize * job.blocksize

def bufferRows (off : ℕ) (buffer : Buffer) : List (BlockCsum δ) :=
  if job.options.doBlockHash = false ∨ buffer.faked = true then []
  else job.blockRows (buffer.data.length / job.blocksize) off buffer.data

/-- The rows a turn stages for a filled buffer; the last turn adds the last partial block. -/
def turnRows (eof : Bool) (off : ℕ) (buffer : Buffer) : List (BlockCsum δ) :=
  job.bufferRows off buffer ++
    if eof = true ∧ job.processed buffer < buffer.data.length then
      [⟨off + job.processed buffer, job.xxh (buffer.data.drop (job.processed buffer))⟩]
    else []

theorem processed_le (job : Hashing δ) (buffer : Buffer) : job.processed buffer ≤ buffer.data.length := by
  unfold processed
  by_cases h : job.options.doBlockHash = false ∨ buffer.faked = true
  · rw [if_pos h]
  · rw [if_neg h]
    exact Nat.div_mul_le_self _ _

end Hashing

namespace ScanEnv

variable {δ ω : Type*} (env : ScanEnv δ ω)

theorem processBlocksLoop_eq (n off : ℕ) (buf : List UInt8) (cursor : ℕ) (hs : Hashes δ) (w : ω) :
    ∃ cursor', env.processBlocksLoop n off buf cursor hs w =
      ((env.addBlockHashes (env.blockRows n off buf) hs w).1, cursor',
        (env.addBlockHashes (env.blockRows n off buf) hs w).2) := by
  induction n generalizing off buf cursor hs w with
  | zero => exact ⟨cursor, rfl⟩
  | succ n ih =>
    rw [processBlocksLoop, Hashing.blockRows]
    have hfst := env.fiemap.isBlockIgnored_fst env.blocksize off cursor
    rcases hign : env.fiemap.isBlockIgnored env.blocksize off cursor with ⟨ignored, cur⟩
    rw [hign] at hfst
    subst hfst
    by_cases hkeep : env.KeepsBlock off (buf.take env.blocksize)
    · rw [if_pos hkeep]
      have hcond : ¬ decide (env.fiemap.AreaIgnored off (off + env.blocksize)) = true ∧
          ¬ (env.options.skipZeroes = true ∧ isBlockZeroed (buf.take env.blocksize) = true) := by
        simpa [Hashing.KeepsBlock] using hkeep
      simp only [List.singleton_append, addBlockHashes, processBlock]
      rw [if_pos hcond]
      by_cases hret : (env.addBlockHash hs w ⟨off, env.xxh (buf.take env.blocksize)⟩).1 = 0
      · simpa [hret] using ih (off + env.blocksize) (buf.drop env.blocksize) cur _ _
      · exact ⟨cur, by simp [hret]⟩
    · rw [if_neg hkeep]
      have hcond : ¬ (¬ decide (env.fiemap.AreaIgnored off (off + env.blocksize)) = true ∧
          ¬ (env.options.skipZeroes = true ∧ isBlockZeroed (buf.take env.blocksize) = true)) := by
        simpa [Hashing.KeepsBlock] using hkeep
      simp only [hcond, if_false, List.nil_append]
      exact ih (off + env.blocksize) (buf.drop env.blocksize) cur hs w

/-- `process_blocks()` stages the buffer's rows; it returns the bytes processed, or what a failed
drain returned. -/
theorem processBlocks_eq (ctxt : ScanCtxt) (buffer : Buffer) (hs : Hashes δ) (w : ω) :
    ∃ cursor, env.processBlocks ctxt buffer hs w =
      (if (env.addBlockHashes (env.bufferRows ctxt.off buffer) hs w).1 ≠ 0
        then (env.addBlockHashes (env.bufferRows ctxt.off buffer) hs w).1
        else (env.processed buffer : ℤ),
        { ctxt with extentCursor := cursor },
        (env.addBlockHashes (env.bufferRows ctxt.off buffer) hs w).2) := by
  unfold processBlocks Hashing.processed Hashing.bufferRows
  by_cases h : env.options.doBlockHash = false ∨ buffer.faked = true
  · exact ⟨ctxt.extentCursor, by simp [h, addBlockHashes]⟩
  · obtain ⟨cursor, hloop⟩ := env.processBlocksLoop_eq
      (buffer.data.length / env.blocksize) ctxt.off buffer.data ctxt.extentCursor hs w
    refine ⟨cursor, ?_⟩
    simp only [h, if_false, hloop]

theorem processExtentsLoop_eq (stop fuel fileOff : ℕ) (buf : List UInt8) (ctxt : ScanCtxt)
    (hs : Hashes δ) :
    ∃ cursor, env.processExtentsLoop stop fuel fileOff buf ctxt hs =
      ({ ctxt with
          extentCursor := cursor
          extentCsum := (env.extentRows stop fuel fileOff buf ctxt.extentCsum).1 },
        { hs with
          extents := hs.extents ++
            (env.extentRows stop fuel fileOff buf ctxt.extentCsum).2 }) := by
  induction fuel generalizing fileOff buf ctxt hs with
  | zero => exact ⟨ctxt.extentCursor, by simp [processExtentsLoop, Hashing.extentRows]⟩
  | succ fuel ih =>
    rw [processExtentsLoop, Hashing.extentRows]
    by_cases hlt : fileOff < stop
    · simp only [hlt, if_true]
      have hget := env.fiemap.getExtent_fst fileOff ctxt.extentCursor
      rcases hfound : env.fiemap.getExtent fileOff ctxt.extentCursor with ⟨found, cur⟩
      rw [hfound] at hget
      rw [← hget]
      cases found with
      | none => exact ⟨cur, by simp⟩
      | some e =>
        by_cases hgap : fileOff < e.feLogical ∧ env.options.oldHoleDigests = false
        · simp only [hgap, and_self, if_true]
          exact ih _ _ { ctxt with extentCursor := cur } hs
        · simp only [hgap, if_false]
          generalize (if stop < e.feEnd then stop - fileOff else e.feEnd - fileOff) = toAdd
          -- the record ends here or goes on; skipped records leave the digest alone
          by_cases hends : fileOff + toAdd + (e.feEnd - env.filesize) = e.feEnd
          · rw [if_pos hends, if_pos hends]
            cases hskip : e.skipped with
            | true =>
              obtain ⟨cursor, heq⟩ := ih (fileOff + toAdd) (buf.drop toAdd)
                { ctxt with extentCursor := cur } { hs with extents := hs.extents ++ [none] }
              exact ⟨cursor, by simp [storeExtent, hskip, heq]⟩
            | false =>
              obtain ⟨cursor, heq⟩ := ih (fileOff + toAdd) (buf.drop toAdd)
                { ctxt with extentCursor := cur, extentCsum := none }
                { hs with extents := hs.extents ++ [some ⟨e.feLogical, e.fePhysical, e.feLength,
                  env.xxh (ctxt.extentCsum.getD [] ++ buf.take toAdd)⟩] }
              exact ⟨cursor, by simp [storeExtent, hskip, heq]⟩
          · rw [if_neg hends, if_neg hends]
            cases hskip : e.skipped with
            | true =>
              simpa only [hskip, if_true] using ih _ _ { ctxt with extentCursor := cur } hs
            | false =>
              simpa only [hskip, Bool.false_eq_true, if_false] using
                ih _ _ { ctxt with extentCursor := cur, extentCsum := some _ } hs
    · simp only [hlt, if_false]
      exact ⟨ctxt.extentCursor, by simp⟩

end ScanEnv

end Oans
