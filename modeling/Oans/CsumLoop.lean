import Oans.HashRows

/-!
# The hash loop

The loop of `csum_whole_file()`: skip a run of hole blocks, or fill the buffer and hash what it
holds, then look at the interrupt flag and the checkpoint interval. One turn is `csumPass`; the
loop is its iteration while `off` is below the file size.
-/

namespace Oans

open Slice

structure LoopState (δ ω : Type*) where
  ctxt : ScanCtxt
  buffer : Buffer
  hashes : Hashes δ
  world : ω
  lastCheckpoint : ℕ
  checkpoints : ℕ
  checkpointsEnabled : Bool
  /-- turns of the loop that reached the interrupt check -/
  passes : ℕ
  /-- what this call added to the progress counters -/
  scannedBytes : ℕ

/-- How a turn ends: another turn, the end of the loop, a return from `csum_whole_file()`, or a
failed assertion. -/
inductive Flow (σ : Type*)
  | next (s : σ)
  | leave (s : σ)
  | abandon (s : σ)
  | assertFailed

namespace ScanEnv

variable {δ ω : Type*} (env : ScanEnv δ ω)

/-- What a checkpoint of this state says; `none` for an extent digest without an extent. -/
def checkpointOf (ctxt : ScanCtxt) (cursor : ℕ) : Option ScanCheckpoint × ℕ :=
  match ctxt.extentCsum with
  | none =>
    (some ⟨ctxt.off, env.filesize, env.file.mtime, ctxt.fileCsum, none,
      env.options.oldHoleDigests⟩, cursor)
  | some extCsum =>
    match env.fiemap.getExtent ctxt.off cursor with
    | (none, cursor) => (none, cursor)
    | (some e, cursor) =>
      (some ⟨ctxt.off, env.filesize, env.file.mtime, ctxt.fileCsum,
        some (e.feLogical, e.feLength, extCsum), env.options.oldHoleDigests⟩, cursor)

/-- `write_checkpoint()`; -22 is `-EINVAL`. -/
def writeCheckpoint (s : LoopState δ ω) : ℤ × LoopState δ ω :=
  match env.checkpointOf s.ctxt s.ctxt.extentCursor with
  | (none, cursor) => (-22, { s with ctxt := { s.ctxt with extentCursor := cursor } })
  | (some cp, cursor) =>
    let (ret, hs, w) := env.hashfile.storeCheckpoint s.hashes cp s.world
    (ret, { s with ctxt := { s.ctxt with extentCursor := cursor }, hashes := hs, world := w })

/-- The end of a turn that is not the last: the interrupt check and the checkpoint interval. -/
def endPass (s : LoopState δ ω) : Flow (LoopState δ ω) :=
  let s := { s with passes := s.passes + 1 }
  if env.interrupted s.passes = true ∨ env.hashfile.batchLost s.world = true then
    if s.checkpointsEnabled = true ∧ s.lastCheckpoint < s.ctxt.off ∧
        env.hashfile.batchLost s.world = false then
      .abandon (env.writeCheckpoint s).2
    else .abandon s
  else if s.checkpointsEnabled = false ∨
      s.ctxt.off - s.lastCheckpoint < env.pacing.checkpointInterval then .next s
  else
    let (ret, s) := env.writeCheckpoint s
    if ret ≠ 0 then .next { s with checkpointsEnabled := false }
    else
      let s := { s with lastCheckpoint := s.ctxt.off, checkpoints := s.checkpoints + 1 }
      if env.pacing.checkpointStopAfter ≠ 0 ∧ s.checkpoints = env.pacing.checkpointStopAfter then
        .abandon s
      else .next s

/-- Feed the first `bytes` bytes of the buffer to the file checksum and to the extents, and move
on by as much. -/
def ackBytes (s : LoopState δ ω) (bytes : ℕ) : LoopState δ ω :=
  let ctxt := { s.ctxt with fileCsum := s.ctxt.fileCsum ++ [.bytes (s.buffer.data.take bytes)] }
  let (ctxt, hs) :=
    if env.options.onlyWholeFiles then (ctxt, s.hashes)
    else env.processExtents ctxt s.buffer s.hashes bytes
  { s with
    ctxt := { ctxt with off := ctxt.off + bytes }
    hashes := hs
    buffer := { s.buffer with data := s.buffer.data.drop bytes } }

def hashBuffer (eof : Bool) (s : LoopState δ ω) : Flow (LoopState δ ω) :=
  let (ret, ctxt, hs, w) := env.processBlocks s.ctxt s.buffer s.hashes s.world
  let s := { s with ctxt := ctxt, hashes := hs, world := w }
  if ret < 0 then .abandon s
  else
    let bytes := ret.toNat
    let s := { s with scannedBytes := s.scannedBytes + bytes }
    if eof = true then
      if bytes < s.buffer.data.length then
        -- the last partial block
        let (ret, hs, w) :=
          env.processBlock (s.buffer.data.drop bytes) (s.ctxt.off + bytes) s.hashes s.world
        let s := { s with hashes := hs, world := w }
        if ret ≠ 0 then .abandon s
        else .leave (env.ackBytes s s.buffer.data.length)
      else .leave (env.ackBytes s bytes)
    else env.endPass (env.ackBytes s bytes)

def csumPass (s : LoopState δ ω) : Flow (LoopState δ ω) :=
  let (holeLength, cursor) :=
    env.fiemap.holeRunLength env.blocksize env.filesize s.ctxt.off s.ctxt.extentCursor
  let ctxt := { s.ctxt with extentCursor := cursor }
  if holeLength ≠ 0 then
    .next { s with
      ctxt := { ctxt with
        fileCsum := ctxt.fileCsum ++ [.hole ctxt.off holeLength]
        off := ctxt.off + holeLength }
      scannedBytes := s.scannedBytes + holeLength }
  else
    match env.fillBuffer ctxt s.buffer with
    | .readError => .abandon { s with ctxt := ctxt }
    | .assertFailed => .assertFailed
    | .filled eof ctxt buffer => env.hashBuffer eof { s with ctxt := ctxt, buffer := buffer }

/-- The loop, with a bound on its turns; `none` when they run out. -/
def csumLoop : ℕ → LoopState δ ω → Option (Flow (LoopState δ ω))
  | 0, _ => none
  | fuel + 1, s =>
    if s.ctxt.off < env.filesize then
      match env.csumPass s with
      | .next s => csumLoop fuel s
      | flow => some flow
    else some (.leave s)

def freshState (w : ω) : LoopState δ ω where
  ctxt := ⟨0, 0, 0, [], none⟩
  buffer := ⟨[], false⟩
  hashes := .empty
  world := w
  lastCheckpoint := 0
  checkpoints := 0
  checkpointsEnabled := env.pacing.hashfile
  passes := 0
  scannedBytes := 0

end ScanEnv

end Oans
