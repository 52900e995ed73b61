import Oans.HashRuns

/-!
# Where a scan starts

A scan starts at offset 0, or where a checkpoint an interrupted run left behind says, if the file
is as it was then and the extent map still backs what the checkpoint has hashed.
-/

namespace Oans

def Fiemap.holeReadBefore (fm : Fiemap) (b i : ℕ) : Bool :=
  match fm.fmExtents[i]? with
  | none => false
  | some e =>
    let prev := if 0 < i then fm.fmExtents[i - 1]? else none
    let prevEnd := prev.elim 0 FiemapExtent.feEnd
    decide (prevEnd < e.feLogical) && (prev.elim false FiemapExtent.skipped ||
      decide (prevEnd % b ≠ 0) || decide (e.feLogical % b ≠ 0))

namespace Hashing

variable {δ : Type*} (job : Hashing δ)

/-- The part of `resume_scan()` that looks at the checkpoint. -/
def resumeUsable (cp : ScanCheckpoint) : Bool :=
  decide (cp.size = job.filesize ∧ cp.mtime = job.file.mtime ∧ 0 < cp.loff ∧ cp.loff < job.filesize)

/-- An older binary may have hashed a hole before the offset into a record that follows it. -/
def holeHashed (off : ℕ) : Bool :=
  ((List.range job.fiemap.fmExtents.length).takeWhile fun i =>
    (job.fiemap.fmExtents[i]?).any fun x => decide (x.feLogical < off)).any fun i =>
      ((job.fiemap.fmExtents[i]?).any fun x => !x.skipped) &&
        job.fiemap.holeReadBefore job.blocksize i

def adoptResume (cp : ScanCheckpoint) : Bool :=
  if cp.v1 ∧ job.holeHashed cp.loff then false
  else
    match cp.extState, (job.fiemap.getExtent cp.loff 0).1 with
    | some _, none => false
    | some (extLoff, extLen, _), some e =>
      decide (e.feLogical = extLoff ∧ e.feLength = extLen ∧ e.feLogical < cp.loff)
    | none, none => true
    | none, some e =>
      job.options.onlyWholeFiles || decide (cp.loff ≤ e.feLogical) || e.skipped

end Hashing

namespace ScanEnv

variable {δ ω : Type*} (env : ScanEnv δ ω)

/-- The state the loop starts from, with the checkpoint found for the file and the hashfile as
`resume_scan()` and `adopt_resume()` leave it. -/
def startState (resume : Option ScanCheckpoint) (w : ω) : LoopState δ ω :=
  match resume with
  | none => env.freshState w
  | some cp =>
    if env.resumeUsable cp && env.adoptResume cp then
      { env.freshState w with
        ctxt := ⟨cp.loff, 0, (env.fiemap.getExtent cp.loff 0).2, cp.fileState,
          cp.extState.map fun ext => ext.2.2⟩
        lastCheckpoint := cp.loff }
    else env.freshState w

variable {env}

/-- Whatever it starts from, the loop starts with nothing read. -/
theorem startState_unread (env : ScanEnv δ ω) (resume : Option ScanCheckpoint) (w : ω) :
    (env.startState resume w).buffer.data = [] ∧ (env.startState resume w).ctxt.readCap = 0 := by
  unfold startState
  split
  · exact ⟨rfl, rfl⟩
  · split_ifs <;> exact ⟨rfl, rfl⟩

end ScanEnv

end Oans
