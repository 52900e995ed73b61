import Mathlib.Tactic

/-!
# The walk's threads and queues

The main thread seeds the directory queue and the file queue, starts the walkers, gives up its
token of the pending counter and then consumes the file queue. A walker takes a directory, queues
what it lists and counts it done. Whoever counts the last one done pushes the sentinels. Each step
below is one access to a queue, to the counter or to a flag, so every interleaving of the threads
is a sequence of steps; the queues are FIFO and memory does not run out.
-/

namespace Oans

inductive Entry (D F : Type*)
  | skip
  | file (f : F)
  | dir (d : D)
  deriving DecidableEq, Repr

namespace Entry

variable {D F : Type*}

@[simp] def dir? : Entry D F → Option D
  | .dir d => some d
  | _ => none

end Entry

/-- The tree to be walked: the roots given, the checkpointed files found again, and the entries of
a directory as `readdir`, `walk_takes` and `check_file` leave them (none for one that cannot be
opened). -/
structure WalkConfig (D F : Type*) where
  ioThreads : ℕ
  roots : List (Entry D F)
  checkpointed : List F
  listing : D → List (Entry D F)

namespace WalkConfig

variable {D F : Type*} (cfg : WalkConfig D F)

def walkNthreads : ℕ := if cfg.ioThreads ≠ 0 then cfg.ioThreads else 1

theorem walkNthreads_pos : 0 < cfg.walkNthreads := by
  unfold walkNthreads
  split <;> omega

def seeds : List (Entry D F) := cfg.roots ++ cfg.checkpointed.map .file

def Acyclic : Prop := WellFounded fun d' d => Entry.dir d' ∈ cfg.listing d

structure IsTree : Prop where
  roots_nodup : (cfg.seeds.filterMap Entry.dir?).Nodup
  listing_nodup : ∀ d, ((cfg.listing d).filterMap Entry.dir?).Nodup
  root_not_listed : ∀ d d', d ∈ cfg.seeds.filterMap Entry.dir? →
    d ∉ (cfg.listing d').filterMap Entry.dir?
  parent_unique : ∀ d p p', d ∈ (cfg.listing p).filterMap Entry.dir? →
    d ∈ (cfg.listing p').filterMap Entry.dir? → p = p'

end WalkConfig

inductive Pc (D F : Type*)
  /-- `walk_thread` before `g_async_queue_pop`. -/
  | popping
  /-- A directory taken, the flags not yet read. -/
  | popped (d : D)
  /-- Entries of the directory, or roots, still to be queued. -/
  | listing (es : List (Entry D F))
  /-- In `fileq_push`. -/
  | accepted (f : F) (es : List (Entry D F))
  /-- In `dirq_push`, the counter already raised. -/
  | raised (d : D) (es : List (Entry D F))
  /-- The main thread creating the walkers. -/
  | starting
  /-- Before the decrement of `dirq_finished`. -/
  | finishing
  /-- In `dirq_stop_walkers`, with this many sentinels left for the directory queue. -/
  | stopping (k : ℕ)
  /-- A walker that took a sentinel. -/
  | exited
  /-- The consumer before `walk_fileq_pop`. -/
  | consuming
  /-- The consumer with a file in hand. -/
  | taken (f : F)
  | joining
  | joined
  deriving DecidableEq, Repr

def Pc.isExited {D F : Type*} : Pc D F → Bool
  | .exited => true
  | _ => false

/-- `none` is the main thread. -/
abbrev Thread (n : ℕ) := Option (Fin n)

/-- The queues hold `none` for `WALK_STOP`. -/
structure Walk (D F : Type*) (n : ℕ) where
  pc : Thread n → Pc D F
  walkDirq : List (Option D)
  walkFileq : List (Option F)
  walkDirPending : ℤ
  started : ℕ
  interrupted : Bool
  walkAbort : Bool
  batchLost : Bool

inductive WalkEvent (D F : Type*)
  | accept (f : F)
  | pushFile (x : Option F)
  | pushDir (x : Option D)
  | popDir (x : Option D)
  | takeFile (x : Option F)
  | process (d : D)
  /-- The decrement that brings the counter to zero. -/
  | zero
  | silent
  deriving DecidableEq, Repr

namespace Walk

variable {D F : Type*} {n : ℕ}

def walkAborted (s : Walk D F n) : Bool := s.walkAbort || s.batchLost

def goto (s : Walk D F n) (t : Thread n) (p : Pc D F) : Walk D F n :=
  { s with pc := Function.update s.pc t p }

def awake (s : Walk D F n) : Thread n → Bool
  | none => true
  | some i => decide (i.val < s.started)

/-- After `process_dir` a walker counts the directory done; after seeding the main thread starts
the walkers. -/
def afterListing : Thread n → Pc D F
  | none => .starting
  | some _ => .finishing

def afterFinished : Thread n → Pc D F
  | none => .consuming
  | some _ => .popping

def threadStep (cfg : WalkConfig D F) (s : Walk D F n) (t : Thread n) :
    Option (WalkEvent D F × Walk D F n) :=
  if s.awake t = false then none else
  match s.pc t with
  | .popping =>
    match s.walkDirq with
    | [] => none
    | none :: q => some (.popDir none, { s with walkDirq := q }.goto t .exited)
    | some d :: q => some (.popDir (some d), { s with walkDirq := q }.goto t (.popped d))
  | .popped d =>
    if !s.interrupted && !s.walkAborted then
      some (.process d, s.goto t (.listing (cfg.listing d)))
    else some (.silent, s.goto t .finishing)
  | .listing [] => some (.silent, s.goto t (afterListing t))
  | .listing (.skip :: es) => some (.silent, s.goto t (.listing es))
  | .listing (.file f :: es) => some (.accept f, s.goto t (.accepted f es))
  | .listing (.dir d :: es) =>
    some (.silent, { s with walkDirPending := s.walkDirPending + 1 }.goto t (.raised d es))
  | .accepted f es =>
    some (.pushFile (some f), { s with walkFileq := s.walkFileq ++ [some f] }.goto t (.listing es))
  | .raised d es =>
    some (.pushDir (some d), { s with walkDirq := s.walkDirq ++ [some d] }.goto t (.listing es))
  | .starting =>
    if s.started < n then some (.silent, { s with started := s.started + 1 })
    else some (.silent, s.goto t .finishing)
  | .finishing =>
    if s.walkDirPending - 1 = 0 then
      some (.zero, { s with walkDirPending := s.walkDirPending - 1 }.goto t (.stopping n))
    else
      some (.silent, { s with walkDirPending := s.walkDirPending - 1 }.goto t (afterFinished t))
  | .stopping (k + 1) =>
    some (.pushDir none, { s with walkDirq := s.walkDirq ++ [none] }.goto t (.stopping k))
  | .stopping 0 =>
    some (.pushFile none, { s with walkFileq := s.walkFileq ++ [none] }.goto t (afterFinished t))
  | .consuming =>
    match s.walkFileq with
    | [] => none
    | none :: q => some (.takeFile none, { s with walkFileq := q }.goto t .joining)
    | some f :: q => some (.takeFile (some f), { s with walkFileq := q }.goto t (.taken f))
  | .taken _ => some (.silent, s.goto t .consuming)
  | .joining =>
    if ∀ i, (s.pc (some i)).isExited = true then some (.silent, s.goto t .joined) else none
  | .exited => none
  | .joined => none

def init (cfg : WalkConfig D F) : Walk D F n where
  pc
    | none => .listing cfg.seeds
    | some _ => .popping
  walkDirq := []
  walkFileq := []
  walkDirPending := 1
  started := 0
  interrupted := false
  walkAbort := false
  batchLost := false

end Walk

/-- A run, with what its steps did to the queues and the counter. A signal and a lost batch come at
any time; the consumer gives the filesystem up over a file it holds. -/
inductive WalkRun {D F : Type*} (cfg : WalkConfig D F) :
    List (WalkEvent D F) → Walk D F cfg.walkNthreads → Prop
  | init : WalkRun cfg [] (.init cfg)
  | thread {es s e s'} (t : Thread cfg.walkNthreads) (hrun : WalkRun cfg es s)
      (hstep : s.threadStep cfg t = some (e, s')) : WalkRun cfg (es ++ [e]) s'
  | interrupt {es s} (hrun : WalkRun cfg es s) (hfirst : s.interrupted = false) :
      WalkRun cfg (es ++ [.silent]) { s with interrupted := true }
  | loseBatch {es s} (hrun : WalkRun cfg es s) (hfirst : s.batchLost = false) :
      WalkRun cfg (es ++ [.silent]) { s with batchLost := true }
  | refuse {es s} (f : F) (hrun : WalkRun cfg es s) (hfile : s.pc none = .taken f)
      (hfirst : s.walkAbort = false) : WalkRun cfg (es ++ [.silent]) { s with walkAbort := true }

namespace WalkEvent

variable {D F : Type*}

@[simp] def accepted? : WalkEvent D F → Option F
  | .accept f => some f
  | _ => none

@[simp] def pushedFile? : WalkEvent D F → Option (Option F)
  | .pushFile x => some x
  | _ => none

@[simp] def pushedDir? : WalkEvent D F → Option (Option D)
  | .pushDir x => some x
  | _ => none

@[simp] def poppedDir? : WalkEvent D F → Option (Option D)
  | .popDir x => some x
  | _ => none

@[simp] def takenFile? : WalkEvent D F → Option (Option F)
  | .takeFile x => some x
  | _ => none

@[simp] def processed? : WalkEvent D F → Option D
  | .process d => some d
  | _ => none

@[simp] def isZero : WalkEvent D F → Bool
  | .zero => true
  | _ => false

end WalkEvent

end Oans
