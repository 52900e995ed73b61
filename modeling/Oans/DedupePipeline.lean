import Oans.IntervalCut

/-!
# The streaming dedupe pipeline

The producer loads one window of generations after the other into a batch, pushes the batch's
groups to the worker pool and seals the batch; sealed batches are reaped from the front of a
queue, and each reap may advance the stored watermark. Workers and the interrupting signal act at
any moment. What the code does under `producer_mutex` is split into smaller steps here, which only
adds interleavings, and a waiting producer may wake at any time.
-/

namespace Oans

open IntervalCut

def DEDUPE_MAX_INFLIGHT : ℕ := 2

/-- What the pipeline looks at in a `dupe_extents`. -/
structure DupeGroup where
  deLen : ℕ
  deNumDupes : ℕ
  deriving DecidableEq, Repr

def DupeGroup.work (g : DupeGroup) : ℕ := g.deLen * (g.deNumDupes - 1) % 2 ^ 64

/-- The groups of a results tree that `push_results` turns into work items. -/
def sufficient (res : List DupeGroup) : List DupeGroup := res.filter fun g => 2 ≤ g.deNumDupes

inductive ItemState
  | queued
  /-- a worker has looked at the signal and goes on -/
  | running
  /-- a worker has seen the signal and leaves the group for the next run -/
  | skipping
  | ran
  | skipped
  deriving DecidableEq, Repr

def ItemState.unfinished : ItemState → Bool
  | ran | skipped => false
  | _ => true

structure WorkItem where
  dext : DupeGroup
  state : ItemState
  deriving DecidableEq, Repr

structure DedupeBatch where
  /-- `(seq_lo, seq_hi]`; the code keeps `seq_hi` in the batch and the rest in the producer -/
  window : Window ℕ
  resFiles : List DupeGroup
  resExtents : List DupeGroup
  /-- every item pushed so far -/
  items : List WorkItem
  outstanding : ℤ
  fullyPushed : Bool
  cutShort : Bool
  /-- one of the batch's loads came back with an error -/
  loadError : Bool
  deriving DecidableEq, Repr

/-- `dedupe_begin_batch()`. -/
def DedupeBatch.opened (w : Window ℕ) : DedupeBatch := ⟨w, [], [], [], 0, false, false, false⟩

inductive WorkerStep (interrupted : Bool) : DedupeBatch → DedupeBatch → Prop
  | take (b : DedupeBatch) (before after : List WorkItem) (g : DupeGroup)
      (h : b.items = before ++ ⟨g, .queued⟩ :: after) :
      WorkerStep interrupted b { b with
        items := before ++ ⟨g, if interrupted then .skipping else .running⟩ :: after }
  | finish (b : DedupeBatch) (before after : List WorkItem) (g : DupeGroup)
      (h : b.items = before ++ ⟨g, .running⟩ :: after) :
      WorkerStep interrupted b { b with
        items := before ++ ⟨g, .ran⟩ :: after
        outstanding := b.outstanding - 1 }
  | skip (b : DedupeBatch) (before after : List WorkItem) (g : DupeGroup)
      (h : b.items = before ++ ⟨g, .skipping⟩ :: after) :
      WorkerStep interrupted b { b with
        items := before ++ ⟨g, .skipped⟩ :: after
        outstanding := b.outstanding - 1
        cutShort := true }

/-- One dedupe phase: the windows of `stream_duplicates` and the options it reads. -/
structure DedupePhase where
  firstSeq : ℕ
  max : ℕ
  windows : List (Window ℕ)
  cut : IsCut firstSeq windows max
  onlyWholeFiles : Bool
  doBlockHash : Bool

/-- Which results tree the producer is filling or pushing. -/
inductive Tree
  | files
  | extents
  deriving DecidableEq, Repr

/-- Where the producer goes on once `reap_ready_locked` returns. -/
inductive Reaping
  | awaitSlot (w : Window ℕ)
  | drain (w : Window ℕ)
  | sealed
  | phaseEnd
  deriving DecidableEq, Repr

inductive Stage
  | loop
  | reap (k : Reaping)
  /-- inside `free_batch` for the batch at this position -/
  | free (b : ℕ) (k : Reaping)
  | wait (k : Reaping)
  | beginBatch (w : Window ℕ)
  | load (t : Tree)
  | loadBlocks
  | sort (t : Tree)
  | push (t : Tree) (rest : List DupeGroup)
  /-- the item of `g` is counted in `outstanding` but not in the pool yet -/
  | reserved (t : Tree) (g : DupeGroup) (rest : List DupeGroup)
  | sealBatch
  | ended
  | aborted
  deriving DecidableEq, Repr

structure PipelineState where
  stage : Stage
  /-- the windows the producer's loop has not come to -/
  left : List (Window ℕ)
  begun : ℕ
  /-- the batches, by the order they were begun in -/
  batch : ℕ → DedupeBatch
  openBatch : Option ℕ
  /-- `inflight_batches`; `inflight_count` is its length -/
  inflight : List ℕ
  /-- the batches `free_batch` is done with, in that order -/
  reaped : List ℕ
  watermarkFrozen : Bool
  loadFailedAny : Bool
  loadFailedAt : ℕ
  dedupeSeq : ℕ
  /-- the watermark in the hashfile -/
  stored : ℕ
  interrupted : Bool

namespace DedupePhase

/-- `dedupe_phase_begin()`. -/
def init (ph : DedupePhase) : PipelineState where
  stage := .loop
  left := ph.windows
  begun := 0
  batch _ := .opened ⟨0, 0⟩
  openBatch := none
  inflight := []
  reaped := []
  watermarkFrozen := false
  loadFailedAny := false
  loadFailedAt := 0
  dedupeSeq := ph.firstSeq
  stored := ph.firstSeq
  interrupted := false

end DedupePhase

namespace PipelineState

def current (s : PipelineState) : ℕ := s.begun - 1

def setBatch (s : PipelineState) (i : ℕ) (b : DedupeBatch) : PipelineState :=
  { s with batch := Function.update s.batch i b }

def FrontReady (s : PipelineState) : Prop :=
  ∃ b rest, s.inflight = b :: rest ∧ (s.batch b).outstanding = 0 ∧ (s.batch b).fullyPushed = true

/-- `dedupe_advance_seq()`; `synced` tells whether `dbfile_sync_config` wrote the value. -/
def advanceSeq (s : PipelineState) (seqHi : ℕ) (synced : Bool) : PipelineState :=
  let seqHi := if s.loadFailedAny = true ∧ s.loadFailedAt < seqHi then s.loadFailedAt else seqHi
  if seqHi ≤ s.dedupeSeq then s
  else { s with dedupeSeq := seqHi, stored := if synced then seqHi else s.stored }

def freeBatch (s : PipelineState) (b : ℕ) (synced : Bool) : PipelineState :=
  let s := { s with
    watermarkFrozen := s.watermarkFrozen || (s.batch b).cutShort
    reaped := s.reaped ++ [b] }
  if s.watermarkFrozen then s else s.advanceSeq (s.batch b).window.hi synced

def loadFailed (s : PipelineState) (seqLo : ℕ) : PipelineState :=
  { s with
    loadFailedAt := if s.loadFailedAny = false ∨ seqLo < s.loadFailedAt then seqLo
      else s.loadFailedAt
    loadFailedAny := true }

def loaded (s : PipelineState) (b : DedupeBatch) (ok : Bool) (next : Stage) : PipelineState :=
  let s := { s.setBatch s.current { b with loadError := b.loadError || !ok } with stage := next }
  if ok then s else s.loadFailed b.window.lo

end PipelineState

open PipelineState

/-- A step of the producer that changes nothing but where it is. -/
inductive Control (ph : DedupePhase) (s : PipelineState) : Stage → Stage → Prop
  | loopDone (h : s.left = []) : Control ph s .loop (.reap .phaseEnd)
  | loopInterrupted (h : s.interrupted = true) : Control ph s .loop (.reap .phaseEnd)
  | reapSlot (w : Window ℕ) (hfront : ¬s.FrontReady)
      (hslot : s.inflight.length < DEDUPE_MAX_INFLIGHT) :
      Control ph s (.reap (.awaitSlot w))
        (if ph.doBlockHash then .reap (.drain w) else .beginBatch w)
  | reapNoSlot (w : Window ℕ) (hfront : ¬s.FrontReady)
      (hslot : DEDUPE_MAX_INFLIGHT ≤ s.inflight.length) :
      Control ph s (.reap (.awaitSlot w)) (.wait (.awaitSlot w))
  | reapDrained (w : Window ℕ) (h : s.inflight = []) :
      Control ph s (.reap (.drain w)) (.beginBatch w)
  | reapNotDrained (w : Window ℕ) (hfront : ¬s.FrontReady) (h : s.inflight ≠ []) :
      Control ph s (.reap (.drain w)) (.wait (.drain w))
  | reapSealed (hfront : ¬s.FrontReady) : Control ph s (.reap .sealed) .loop
  | reapEnded (h : s.inflight = []) : Control ph s (.reap .phaseEnd) .ended
  | reapNotEnded (hfront : ¬s.FrontReady) (h : s.inflight ≠ []) :
      Control ph s (.reap .phaseEnd) (.wait .phaseEnd)
  | wake (k : Reaping) : Control ph s (.wait k) (.reap k)
  | freeAsserts (b : ℕ) (k : Reaping) (h : s.openBatch ≠ none) : Control ph s (.free b k) .aborted
  | sortFiles (order : List DupeGroup)
      (hperm : order.Perm (sufficient (s.batch s.current).resFiles))
      (hsorted : order.Pairwise fun a b => b.work ≤ a.work) :
      Control ph s (.sort .files) (.push .files order)
  | sortExtents (order : List DupeGroup)
      (hperm : order.Perm (sufficient (s.batch s.current).resExtents))
      (hsorted : order.Pairwise fun a b => b.work ≤ a.work) :
      Control ph s (.sort .extents) (.push .extents order)
  | pushAsserts (t : Tree) (g : DupeGroup) (rest : List DupeGroup) (h : 2 ^ 50 < g.work) :
      Control ph s (.push t (g :: rest)) .aborted
  | pushedFiles : Control ph s (.push .files [])
      (if ph.onlyWholeFiles then .sealBatch else .load .extents)
  | pushedExtents : Control ph s (.push .extents []) .sealBatch

inductive PipelineStep (ph : DedupePhase) (s : PipelineState) : PipelineState → Prop
  | signal : PipelineStep ph s { s with interrupted := true }
  | worker (i : ℕ) (b : DedupeBatch) (hi : i < s.begun)
      (h : WorkerStep s.interrupted (s.batch i) b) : PipelineStep ph s (s.setBatch i b)
  | control (next : Stage) (h : Control ph s s.stage next) :
      PipelineStep ph s { s with stage := next }
  | nextWindow (w : Window ℕ) (ws : List (Window ℕ)) (h : s.stage = .loop) (hleft : s.left = w :: ws)
      (hi : s.interrupted = false) :
      PipelineStep ph s { s with stage := .reap (.awaitSlot w), left := ws }
  | reapFront (k : Reaping) (b : ℕ) (rest : List ℕ) (h : s.stage = .reap k)
      (hfront : s.inflight = b :: rest) (hdone : (s.batch b).outstanding = 0)
      (hpushed : (s.batch b).fullyPushed = true) :
      PipelineStep ph s { s with stage := .free b k, inflight := rest }
  | free (b : ℕ) (k : Reaping) (synced : Bool) (h : s.stage = .free b k) (hopen : s.openBatch = none) :
      PipelineStep ph s { s.freeBatch b synced with stage := .reap k }
  | beginBatch (w : Window ℕ) (h : s.stage = .beginBatch w) :
      PipelineStep ph s { s.setBatch s.begun (.opened w) with
        stage := .load .files
        begun := s.begun + 1
        openBatch := some s.begun }
  | loadFiles (found : List DupeGroup) (ok : Bool) (h : s.stage = .load .files) :
      PipelineStep ph s
        (s.loaded { s.batch s.current with resFiles := found } ok (.sort .files))
  | loadExtents (found : List DupeGroup) (ok : Bool) (h : s.stage = .load .extents) :
      PipelineStep ph s
        (s.loaded { s.batch s.current with resExtents := found } ok
          (if ph.doBlockHash then .loadBlocks else .sort .extents))
  | loadBlocks (found : List DupeGroup) (ok : Bool) (h : s.stage = .loadBlocks) :
      -- the search within extents adds to the tree, but only when the blocks were loaded
      PipelineStep ph s
        (s.loaded { s.batch s.current with
          resExtents := if ok then found else (s.batch s.current).resExtents } ok (.sort .extents))
  | reserve (t : Tree) (g : DupeGroup) (rest : List DupeGroup) (h : s.stage = .push t (g :: rest))
      (hwork : g.work ≤ 2 ^ 50) :
      PipelineStep ph s { s.setBatch s.current
        { s.batch s.current with outstanding := (s.batch s.current).outstanding + 1 } with
        stage := .reserved t g rest }
  | poolPush (t : Tree) (g : DupeGroup) (rest : List DupeGroup) (h : s.stage = .reserved t g rest) :
      PipelineStep ph s { s.setBatch s.current
        { s.batch s.current with items := (s.batch s.current).items ++ [⟨g, .queued⟩] } with
        stage := .push t rest }
  | sealBatch (h : s.stage = .sealBatch) :
      PipelineStep ph s { s.setBatch s.current { s.batch s.current with fullyPushed := true } with
        stage := .reap .sealed
        openBatch := none
        inflight := s.inflight ++ [s.current] }

namespace DedupePhase

def Reachable (ph : DedupePhase) (s : PipelineState) : Prop :=
  Relation.ReflTransGen (PipelineStep ph) ph.init s

end DedupePhase

end Oans
