import Oans.DedupePipeline
import Oans.RefHeap

/-!
# The filerecs of one dedupe phase

What the producer of the pipeline and its workers do to the filerecs: the loaders create them, the
trees of a batch point at them, `push_results` takes a reference for every member, reaping a batch
gives its references back and the sweep frees what nobody holds. The global list and the tree
`filerec_by_fileid` hold the same records, here the registry of the heap; the pins of a record are
the blocks in its `block_tree`. The loaders look a row's file up in the snapshot the row came
from, so the row is there.
-/

namespace Oans

abbrev FilerecHeap := RefHeap.Heap ℤ

namespace FilerecHeap

def filerecFind (h : FilerecHeap) (fileid : ℤ) : Option ℕ := h.find fileid

/-- `filerec_new`; `insert_filerec` asserts that the file id is new. -/
def filerecNew (h : FilerecHeap) (fileid : ℤ) : Option FilerecHeap := h.alloc fileid

def filerecGet (h : FilerecHeap) (file : ℕ) : Option FilerecHeap := h.get file

def filerecPut (h : FilerecHeap) (file : ℕ) : Option FilerecHeap := h.put file

def filerecFreeUnreferenced (h : FilerecHeap) : Option FilerecHeap := h.sweep

/-- The part of `insert_hashed_block` that concerns the file. -/
def insertBlockIntoFilerec (h : FilerecHeap) (file : ℕ) : Option FilerecHeap := h.pin file

def removeHashedBlock (h : FilerecHeap) (file : ℕ) : Option FilerecHeap := h.unpin file

def findOrNew (h : FilerecHeap) (fileid : ℤ) : Option (FilerecHeap × ℕ) :=
  match h.filerecFind fileid with
  | some file => some (h, file)
  | none => (h.filerecNew fileid).map fun h' => (h', h.next)

end FilerecHeap

/-- Whether `push_results` has made a work item of a group, and whether a worker is done with it. -/
inductive GroupState
  | idle
  | inPool
  | done
  deriving DecidableEq, Repr

structure RecGroup where
  files : List ℕ
  state : GroupState
  deriving DecidableEq, Repr

/-- What inserting a member can do to a tree: the group it goes to is left open, and a group keeps
one member for a file and offset. -/
inductive InsertResult (file : ℕ) : List RecGroup → List RecGroup → Prop
  | new (res : List RecGroup) : InsertResult file res (res ++ [⟨[file], .idle⟩])
  | append (before after : List RecGroup) (g : RecGroup) :
      InsertResult file (before ++ g :: after)
        (before ++ { g with files := g.files ++ [file] } :: after)
  | known (res : List RecGroup) : InsertResult file res res

structure RecBatch where
  resFiles : List RecGroup
  resExtents : List RecGroup
  held : List ℕ
  outstanding : ℤ
  fullyPushed : Bool
  deriving DecidableEq, Repr

namespace RecBatch

/-- `dedupe_begin_batch`. -/
def begin : RecBatch := ⟨[], [], [], 0, false⟩

def tree (b : RecBatch) : Tree → List RecGroup
  | .files => b.resFiles
  | .extents => b.resExtents

def setTree (b : RecBatch) (t : Tree) (res : List RecGroup) : RecBatch :=
  match t with
  | .files => { b with resFiles := res }
  | .extents => { b with resExtents := res }

def reachable (b : RecBatch) : List ℕ :=
  b.resFiles.flatMap RecGroup.files ++ b.resExtents.flatMap RecGroup.files

def ready (b : RecBatch) : Bool := decide (b.outstanding = 0) && b.fullyPushed

end RecBatch

/-- What a worker does to the batch of the group it holds: it drops members from the group, or is
done with it. -/
inductive RecWorkerStep : RecBatch → RecBatch → Prop
  | clean (b : RecBatch) (t : Tree) (before after : List RecGroup) (g : RecGroup) (files : List ℕ)
      (htree : b.tree t = before ++ g :: after) (hpool : g.state = .inPool)
      (hsub : files.Sublist g.files) :
      RecWorkerStep b (b.setTree t (before ++ { g with files := files } :: after))
  | finish (b : RecBatch) (t : Tree) (before after : List RecGroup) (g : RecGroup)
      (htree : b.tree t = before ++ g :: after) (hpool : g.state = .inPool) :
      RecWorkerStep b { b.setTree t (before ++ { g with state := .done } :: after) with
        outstanding := b.outstanding - 1 }

structure LoadOptions where
  onlyWholeFiles : Bool
  doBlockHash : Bool
  deriving DecidableEq, Repr

inductive AfterReap
  | awaitSlot
  | drain
  | sealed
  | phaseEnd
  deriving DecidableEq, Repr

inductive RecStage
  | loop
  | reap (k : AfterReap)
  /-- in `free_batch`, with these references still to be dropped -/
  | putting (rest : List ℕ) (k : AfterReap)
  | beginBatch
  | loading (t : Tree)
  | loadingBlocks
  /-- in `find_additional_dedupe`, with these records of the global list still to come -/
  | search (rest : List ℕ)
  /-- in `free_hash_tree` -/
  | freeBlocks
  /-- in `push_results`, before its walk over the tree -/
  | holding (t : Tree)
  /-- in `push_results`, pushing -/
  | pushing (t : Tree)
  | freeUnreferenced
  | sealBatch
  | ended
  /-- an assertion fired, or a record that is not allocated was used -/
  | crashed
  deriving DecidableEq, Repr

structure RecState where
  heap : FilerecHeap
  stage : RecStage
  openBatch : Option RecBatch
  /-- `inflight_batches` -/
  inflight : List RecBatch
  /-- the file of every block in the hash tree -/
  hashTree : List ℕ
  /-- search workers that are not done -/
  searching : ℕ

namespace RecState

def init : RecState := ⟨.empty, .loop, none, [], [], 0⟩

def andThen (s : RecState) (r : Option FilerecHeap) (next : FilerecHeap → RecState) : RecState :=
  match r with
  | none => { s with stage := .crashed }
  | some h => next h

@[simp] theorem andThen_some (s : RecState) (h : FilerecHeap) (next : FilerecHeap → RecState) :
    s.andThen (some h) next = next h := rfl

def allPushed (s : RecState) (t : Tree) : Prop :=
  ∀ b, s.openBatch = some b → ∀ g ∈ b.tree t, g.state = .idle → g.files.length < 2

def FrontReady (s : RecState) : Prop := ∃ b rest, s.inflight = b :: rest ∧ b.ready = true

end RecState

open RecState

/-- One step of the producer, of a worker or of a search worker. A load ends at any row, with an
error or without. -/
inductive RecStep (opts : LoadOptions) (s : RecState) : RecState → Prop
  | nextWindow (h : s.stage = .loop) : RecStep opts s { s with stage := .reap .awaitSlot }
  | lastWindow (h : s.stage = .loop) : RecStep opts s { s with stage := .reap .phaseEnd }
  | reapFront (k : AfterReap) (b : RecBatch) (rest : List RecBatch) (h : s.stage = .reap k)
      (hfront : s.inflight = b :: rest) (hready : b.ready = true) :
      -- the assertions of `free_batch`; then the trees go, then the references
      RecStep opts s (if s.searching ≠ 0 ∨ s.openBatch.isSome then { s with stage := .crashed }
        else { s with stage := .putting b.held k, inflight := rest })
  | put (file : ℕ) (rest : List ℕ) (k : AfterReap) (h : s.stage = .putting (file :: rest) k) :
      RecStep opts s (s.andThen (s.heap.filerecPut file) fun heap =>
        { s with heap := heap, stage := .putting rest k })
  | putDone (k : AfterReap) (h : s.stage = .putting [] k) : RecStep opts s { s with stage := .reap k }
  | slotFree (h : s.stage = .reap .awaitSlot) (hfront : ¬s.FrontReady)
      (hslot : s.inflight.length < DEDUPE_MAX_INFLIGHT) :
      RecStep opts s
        { s with stage := if opts.doBlockHash then .reap .drain else .beginBatch }
  | drained (h : s.stage = .reap .drain) (hnone : s.inflight = []) :
      RecStep opts s { s with stage := .beginBatch }
  | reapedSealed (h : s.stage = .reap .sealed) (hfront : ¬s.FrontReady) :
      RecStep opts s { s with stage := .loop }
  | phaseEnded (h : s.stage = .reap .phaseEnd) (hnone : s.inflight = []) :
      RecStep opts s { s with stage := .ended }
  | beginBatch (h : s.stage = .beginBatch) :
      RecStep opts s { s with stage := .loading .files, openBatch := some .begin }
  | loadRow (t : Tree) (b : RecBatch) (fileid : ℤ) (heap : FilerecHeap) (file : ℕ)
      (res : List RecGroup) (h : s.stage = .loading t) (hopen : s.openBatch = some b)
      (hfind : s.heap.findOrNew fileid = some (heap, file))
      (hins : InsertResult file (b.tree t) res) :
      RecStep opts s { s with heap := heap, openBatch := some (b.setTree t res) }
  | rowAsserts (fileid : ℤ) (h : (∃ t, s.stage = .loading t) ∨ s.stage = .loadingBlocks)
      (hfind : s.heap.findOrNew fileid = none) : RecStep opts s { s with stage := .crashed }
  | loadedFiles (h : s.stage = .loading .files) :
      RecStep opts s { s with stage := .holding .files }
  | loadedExtents (h : s.stage = .loading .extents) :
      RecStep opts s { s with stage := if opts.doBlockHash then .loadingBlocks else .holding .extents }
  | blockRow (fileid : ℤ) (heap : FilerecHeap) (file : ℕ) (h : s.stage = .loadingBlocks)
      (hfind : s.heap.findOrNew fileid = some (heap, file)) :
      RecStep opts s (s.andThen (heap.insertBlockIntoFilerec file) fun heap' =>
        { s with heap := heap', hashTree := file :: s.hashTree })
  | blockRowFailed (fileid : ℤ) (heap : FilerecHeap) (file : ℕ) (h : s.stage = .loadingBlocks)
      (hfind : s.heap.findOrNew fileid = some (heap, file)) :
      -- no memory for the block
      RecStep opts s { s with heap := heap, stage := .freeBlocks }
  | blocksFailed (h : s.stage = .loadingBlocks) : RecStep opts s { s with stage := .freeBlocks }
  | blocksLoaded (h : s.stage = .loadingBlocks) :
      RecStep opts s { s with stage := .search s.heap.registry }
  | searchFile (file : ℕ) (rest : List ℕ) (h : s.stage = .search (file :: rest)) :
      RecStep opts s (match s.heap.cells file with
        | none => { s with stage := .crashed }
        | some c => { s with
            stage := .search rest
            searching := if c.pins = 0 then s.searching else s.searching + 1 })
  | searchSkipEmpty (file : ℕ) (rest : List ℕ) (h : s.stage = .search (file :: rest)) :
      RecStep opts s { s with stage := .search rest }
  | searchNoMemory (rest : List ℕ) (h : s.stage = .search rest) :
      RecStep opts s { s with stage := .search [] }
  | searchMatch (b : RecBatch) (file : ℕ) (rest : List ℕ) (res : List RecGroup)
      (h : s.stage = .search rest) (hrunning : 0 < s.searching) (hopen : s.openBatch = some b)
      (hblock : file ∈ s.hashTree) (hins : InsertResult file b.resExtents res) :
      RecStep opts s { s with openBatch := some { b with resExtents := res } }
  | searchDone (rest : List ℕ) (h : s.stage = .search rest) (hrunning : 0 < s.searching) :
      RecStep opts s { s with searching := s.searching - 1 }
  | searchIdle (h : s.stage = .search []) (hidle : s.searching = 0) :
      RecStep opts s { s with stage := .freeBlocks }
  | freeBlock (file : ℕ) (rest : List ℕ) (h : s.stage = .freeBlocks)
      (htree : s.hashTree = file :: rest) :
      RecStep opts s (s.andThen (s.heap.removeHashedBlock file) fun heap =>
        { s with heap := heap, hashTree := rest })
  | blocksFreed (h : s.stage = .freeBlocks) (htree : s.hashTree = []) :
      RecStep opts s { s with stage := .holding .extents }
  | hold (t : Tree) (b : RecBatch) (h : s.stage = .holding t) (hopen : s.openBatch = some b) :
      -- a reference for every member of every group, also of groups with one member
      RecStep opts s
        (s.andThen (((b.tree t).flatMap RecGroup.files).foldlM FilerecHeap.filerecGet s.heap)
          fun heap => { s with
            heap := heap
            stage := .pushing t
            openBatch := some { b with held := b.held ++ (b.tree t).flatMap RecGroup.files } })
  | push (t : Tree) (b : RecBatch) (before after : List RecGroup) (g : RecGroup)
      (h : s.stage = .pushing t) (hopen : s.openBatch = some b)
      (htree : b.tree t = before ++ g :: after) (hidle : g.state = .idle)
      (hmembers : 2 ≤ g.files.length) :
      RecStep opts s { s with
        openBatch := some { b.setTree t (before ++ { g with state := .inPool } :: after) with
          outstanding := b.outstanding + 1 } }
  | pushedFiles (h : s.stage = .pushing .files) (hall : s.allPushed .files) :
      RecStep opts s
        { s with stage := if opts.onlyWholeFiles then .sealBatch else .loading .extents }
  | pushedExtents (h : s.stage = .pushing .extents) (hall : s.allPushed .extents) :
      RecStep opts s
        { s with stage := if opts.doBlockHash then .freeUnreferenced else .sealBatch }
  | sweep (h : s.stage = .freeUnreferenced) :
      RecStep opts s (s.andThen s.heap.filerecFreeUnreferenced fun heap =>
        { s with heap := heap, stage := .sealBatch })
  | sealBatch (b : RecBatch) (h : s.stage = .sealBatch) (hopen : s.openBatch = some b) :
      RecStep opts s { s with
        stage := .reap .sealed
        openBatch := none
        inflight := s.inflight ++ [{ b with fullyPushed := true }] }
  | workerOpen (b b' : RecBatch) (hopen : s.openBatch = some b) (h : RecWorkerStep b b') :
      RecStep opts s { s with openBatch := some b' }
  | workerSealed (b b' : RecBatch) (before after : List RecBatch)
      (hinflight : s.inflight = before ++ b :: after) (h : RecWorkerStep b b') :
      RecStep opts s { s with inflight := before ++ b' :: after }

def RecReachable (opts : LoadOptions) (s : RecState) : Prop :=
  Relation.ReflTransGen (RecStep opts) .init s

end Oans
