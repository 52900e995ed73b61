import Oans.StoredRows

/-!
# Scans that carry on from each other

A scan that is interrupted leaves a checkpoint, and the next one starts where it was taken.
`ScannedTo` says how far scans of a file under the same options can have come, and with which rows,
whatever their reads return and wherever they are interrupted.
-/

namespace Oans

open Savepoint Slice

structure Progress where
  off : ℕ
  fileCsum : List Fed
  extentCsum : Option (List UInt8)
  deriving DecidableEq, Repr

def Progress.zero : Progress := ⟨0, [], none⟩

def ScanCheckpoint.progress (cp : ScanCheckpoint) : Progress :=
  ⟨cp.loff, cp.fileState, cp.extState.map fun ext => ext.2.2⟩

namespace LoopState

variable {δ ω : Type*}

def progress (s : LoopState δ ω) : Progress := ⟨s.ctxt.off, s.ctxt.fileCsum, s.ctxt.extentCsum⟩

def Unread (s : LoopState δ ω) : Prop := s.buffer.data = [] ∧ s.ctxt.readCap = 0

end LoopState

namespace Hashing

variable {δ : Type*} (job : Hashing δ)

/-- The checkpoint of a scan that has come to `p`; `none` for an extent digest without an extent. -/
def checkpointAt (p : Progress) : Option ScanCheckpoint :=
  match p.extentCsum with
  | none => some ⟨p.off, job.filesize, job.file.mtime, p.fileCsum, none, job.options.oldHoleDigests⟩
  | some csum => (job.fiemap.nextExtent p.off).map fun e =>
      ⟨p.off, job.filesize, job.file.mtime, p.fileCsum, some (e.feLogical, e.feLength, csum),
        job.options.oldHoleDigests⟩

variable {job}

theorem progress_of_checkpointAt {p : Progress} {cp : ScanCheckpoint}
    (h : job.checkpointAt p = some cp) : cp.progress = p := by
  rcases p with ⟨off, fileCsum, _ | csum⟩
  · obtain rfl := Option.some.inj h
    rfl
  · obtain ⟨e, -, rfl⟩ := Option.map_eq_some_iff.mp h
    rfl

theorem v1_of_checkpointAt {p : Progress} {cp : ScanCheckpoint}
    (h : job.checkpointAt p = some cp) : cp.v1 = job.options.oldHoleDigests := by
  rcases p with ⟨off, fileCsum, _ | csum⟩
  · obtain rfl := Option.some.inj h
    rfl
  · obtain ⟨e, -, rfl⟩ := Option.map_eq_some_iff.mp h
    rfl

/-- How far scans of the file, each carrying on where the one before was interrupted, have come:
at a head of the loop, with these rows. -/
inductive ScannedTo (job : Hashing δ) (content : ℕ → UInt8) : Progress → Rows δ → Prop
  | start : ScannedTo job content .zero ∅
  | session {scan : FileScan δ} {s t : LoopState δ (ScanWriter (FileHashes δ))}
      {base rows : Rows δ} (hjob : scan.toHashing = job) (hreads : scan.env.ReadsFrom content)
      (hbase : ScannedTo job content s.progress base) (hunread : s.Unread)
      (hmakes : scan.env.Makes content s t rows) :
      ScannedTo job content t.progress (base ++ rows)

end Hashing

namespace ScanEnv

variable {δ ω : Type*} {env : ScanEnv δ ω} {content : ℕ → UInt8} {s : LoopState δ ω}

theorem checkpointOf_fst (env : ScanEnv δ ω) (ctxt : ScanCtxt) (cursor : ℕ) :
    (env.checkpointOf ctxt cursor).1 =
      env.checkpointAt ⟨ctxt.off, ctxt.fileCsum, ctxt.extentCsum⟩ := by
  have hget := env.fiemap.getExtent_fst ctxt.off cursor
  unfold checkpointOf Hashing.checkpointAt
  cases ctxt.extentCsum with
  | none => rfl
  | some csum =>
    dsimp only
    rw [← hget]
    rcases env.fiemap.getExtent ctxt.off cursor with ⟨_ | e, cursor'⟩ <;> rfl

theorem startState_progress (env : ScanEnv δ ω) (resume : Option ScanCheckpoint) (w : ω) :
    (env.startState resume w).Unread ∧
      ((env.startState resume w).progress = .zero ∨ ∃ cp, resume = some cp ∧
        env.resumeUsable cp = true ∧ env.adoptResume cp = true ∧
        (env.startState resume w).progress = cp.progress) := by
  refine ⟨env.startState_unread resume w, ?_⟩
  unfold startState
  split
  · exact Or.inl rfl
  · rename_i cp
    split_ifs with hadopt
    · obtain ⟨husable, hadopt⟩ := Bool.and_eq_true_iff.mp hadopt
      exact Or.inr ⟨cp, rfl, husable, hadopt, rfl⟩
    · exact Or.inl rfl

theorem sound_of_unread (h : s.Unread)
    (hgrid : env.options.doBlockHash = true → s.ctxt.off < env.filesize →
      env.blocksize ∣ s.ctxt.off) : env.Sound content s.ctxt s.buffer where
  data := by simp [h.1]
  cap hlt := by
    rw [h.2] at hlt
    exact absurd hlt (Nat.not_lt_zero _)
  below hne := absurd h.1 hne
  inside hlt := by simpa [h.1] using hlt
  grid := hgrid
  partial_block _ := by simp [h.1, env.blocksize_pos]
  consumed _ := h.1

end ScanEnv

namespace Hashing

variable {δ : Type*} {job : Hashing δ} {content : ℕ → UInt8} {p : Progress} {rows : Rows δ}

theorem ScannedTo.grid (h : job.ScannedTo content p rows) :
    job.options.doBlockHash = true → p.off < job.filesize → job.blocksize ∣ p.off := by
  induction h with
  | start => exact fun _ _ => Nat.dvd_zero _
  | session hjob hreads hbase hunread hmakes ih =>
    subst hjob
    exact (hmakes.sound (ScanEnv.sound_of_unread hunread ih)).grid

/-- A scan that carries on there starts in a sound state. -/
theorem ScannedTo.sound {ω : Type*} (env : ScanEnv δ ω) {s : LoopState δ ω}
    (h : env.ScannedTo content s.progress rows) (hunread : s.Unread) :
    env.Sound content s.ctxt s.buffer :=
  ScanEnv.sound_of_unread hunread h.grid

/-- Induction over the turns of all scans. -/
theorem ScannedTo.invariant {P : Progress → Rows δ → Prop} (h : job.ScannedTo content p rows)
    (hzero : P .zero ∅)
    (hturn : ∀ (scan : FileScan δ) (s t : LoopState δ (ScanWriter (FileHashes δ)))
      (rows emit : Rows δ), scan.toHashing = job → scan.env.Sound content s.ctxt s.buffer →
      s.ctxt.off < job.filesize → scan.env.Turn content false s t emit →
      P s.progress rows → P t.progress (rows ++ emit)) : P p rows := by
  induction h with
  | start => exact hzero
  | @session scan s t base rows hjob hreads hbase hunread hmakes ih =>
    subst hjob
    have hsound := ScannedTo.sound scan.env hbase hunread
    induction hmakes with
    | refl => rwa [Rows.append_empty]
    | @turn t u rows emit head hlt hpass ih' =>
      rw [← Rows.append_assoc]
      exact hturn scan t u _ emit rfl (head.sound hsound) hlt hpass ih'

theorem ScannedTo.blocksBelow (h : job.ScannedTo content p rows) :
    ScanEnv.BlocksBelow p.off rows.blocks := by
  refine @ScannedTo.invariant _ _ _ _ _
    (fun p rows => ScanEnv.BlocksBelow p.off rows.blocks) h ?_ ?_
  · exact ⟨List.nodup_nil, fun _ h => absurd h List.not_mem_nil⟩
  · intro scan s t rows emit _ _ _ hpass hbelow
    exact ScanEnv.BlocksBelow.turn hbelow hpass

end Hashing

end Oans
