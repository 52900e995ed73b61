import Mathlib.Data.BitVec
import Oans.ScanResume
import Oans.Threads

/-!
# The byte progress

A file's bytes are put on the bill when it is queued, and again in part when its resume is declined.
The slot of the worker that hashes it is credited by the loop, and squared with the size of the file
when the worker is done with it. Counters are modulo 2^64.
-/

namespace Oans

structure PscanThread where
  totalScannedFiles : BitVec 64
  totalScannedBytes : BitVec 64
  fileScannedBytes : BitVec 64
  fileTotalBytes : BitVec 64
  deriving DecidableEq, Repr

structure PscanGlobal where
  totalFilesCount : BitVec 64
  totalBytesCount : BitVec 64
  deriving DecidableEq, Repr

def PscanGlobal.setProgress (pscan : PscanGlobal) (addedFiles addedBytes : BitVec 64) :
    PscanGlobal where
  totalFilesCount := pscan.totalFilesCount + addedFiles
  totalBytesCount := pscan.totalBytesCount + addedBytes

namespace PscanThread

def setFile (slot : PscanThread) (totalBytes : BitVec 64) : PscanThread :=
  { slot with fileTotalBytes := totalBytes, fileScannedBytes := 0 }

def finishFile (slot : PscanThread) : PscanThread :=
  let scanned := slot.fileScannedBytes
  let total := slot.fileTotalBytes
  let slot := if scanned < total then
      { slot with totalScannedBytes := slot.totalScannedBytes + (total - scanned) }
    else slot
  let slot := if total < scanned then
      { slot with totalScannedBytes := slot.totalScannedBytes - (scanned - total) }
    else slot
  { slot with totalScannedFiles := slot.totalScannedFiles + 1 }

/-- What the file is credited with once it is finished. -/
def settled (slot : PscanThread) : BitVec 64 :=
  slot.totalScannedBytes + (slot.fileTotalBytes - slot.fileScannedBytes)

theorem finishFile_bytes (slot : PscanThread) :
    slot.finishFile.totalScannedBytes = slot.settled := by
  simp only [finishFile, settled, BitVec.lt_def]
  rcases lt_trichotomy slot.fileScannedBytes.toNat slot.fileTotalBytes.toNat with hlt | heq | hgt
  · simp [hlt, hlt.not_gt]
  · simp [BitVec.eq_of_toNat_eq heq]
  · simp only [hgt, hgt.not_gt, if_true, if_false]
    ring

end PscanThread

structure WorkerProgress where
  slot : PscanThread
  pscan : PscanGlobal
  deriving DecidableEq, Repr

inductive CsumExit
  | setupFailed
  | openFailed
  | mapFailed
  | layoutCopied
  /-- read error, interrupt, lost batch, checkpoint stop or a failed insertion -/
  | abandoned
  | sizeChanged
  | notStored
  | stored
  deriving DecidableEq, Repr

/-- A queued file, with what the call for it meets: the answers of what it calls, and the hashfile
as the loop finds it. -/
structure CsumCall (δ ω : Type*) where
  scan : ScanEnv δ ω
  fileid : ℤ
  /-- what `resume_scan()` took up -/
  resume : Option ScanCheckpoint
  prepareBuffer : ℤ
  hasWriter : Bool
  hasChecksum : Bool
  opened : Bool
  mapped : Bool
  donorsOn : Bool
  layoutKey : Option δ
  layoutDonorFind : δ → ℤ
  layoutMatches : ℤ → ℤ
  writeBegin : ℤ
  copyScannedFile : ℤ → ℤ
  writeEnd : ℤ
  allocateHashes : Bool
  world : ω
  stored : Bool
  size_lt : scan.filesize < 2 ^ 64
  resume_usable : ∀ cp ∈ resume, scan.resumeUsable cp = true

namespace CsumCall

variable {δ ω : Type*} (c : CsumCall δ ω)

def filesize : BitVec 64 := .ofNat 64 c.scan.filesize

def resumeOff : BitVec 64 := c.resume.elim 0 fun cp => .ofNat 64 cp.loff

/-- `queue_file_for_scan()`: only the bytes still to be read are this run's work. -/
def queueFileForScan (pscan : PscanGlobal) : PscanGlobal :=
  pscan.setProgress 1 (c.filesize - c.resumeOff)

/-- `decline_resume()`: the skipped bytes are back on the bill. -/
def declineResume (p : WorkerProgress) : WorkerProgress where
  slot := { p.slot with fileScannedBytes := 0 }
  pscan := p.pscan.setProgress 0 c.resumeOff

/-- `layout_copy_wanted()` and `fiemap_layout_key()`. -/
def layoutKeyWanted : Option δ :=
  if c.donorsOn && decide (READ_BUF_LEN ≤ c.scan.filesize) then c.layoutKey else none

def copiesLayout (key : δ) : Bool :=
  let donor := c.layoutDonorFind key
  decide (donor ≠ 0 ∧ donor ≠ c.fileid) && decide (0 < c.layoutMatches donor) &&
    decide (c.writeBegin = 0) && decide (c.copyScannedFile donor = 0) && decide (c.writeEnd = 0)

def tryLayoutCopy (key : δ) (p : WorkerProgress) : Option WorkerProgress :=
  if c.copiesLayout key then
    some { p with slot := { p.slot with fileScannedBytes := c.filesize } }
  else none

/-- The loop credits the file and the slot alike. -/
def credit (p : WorkerProgress) (bytes : ℕ) : WorkerProgress :=
  { p with slot := { p.slot with
      fileScannedBytes := p.slot.fileScannedBytes + .ofNat 64 bytes
      totalScannedBytes := p.slot.totalScannedBytes + .ofNat 64 bytes } }

/-- `csum_whole_file()` from the loop on. -/
def hashFile (fuel : ℕ) (p : WorkerProgress) : Option (WorkerProgress × CsumExit) :=
  match c.scan.csumLoop fuel (c.scan.startState c.resume c.world) with
  | some (.leave s) => some (credit p s.scannedBytes,
      if s.ctxt.off ≠ c.scan.filesize then .sizeChanged
      else if c.stored then .stored else .notStored)
  | some (.abandon s) => some (credit p s.scannedBytes, .abandoned)
  | _ => none

/-- `csum_whole_file()` with the extent map in hand. -/
def scanMapped (fuel : ℕ) (p : WorkerProgress) : Option (WorkerProgress × CsumExit) :=
  let p := match c.resume with
    | none => p
    | some cp => if c.scan.adoptResume cp then p else c.declineResume p
  let copied := if c.resume.isNone then c.layoutKeyWanted.bind fun key => c.tryLayoutCopy key p
    else none
  match copied with
  | some p => some (p, .layoutCopied)
  | none => if c.allocateHashes then c.hashFile fuel p else some (p, .setupFailed)

/-- `csum_whole_file()` before `pscan_finish_file()` cleans up. -/
def scanFile (fuel : ℕ) (p : WorkerProgress) : Option (WorkerProgress × CsumExit) :=
  if c.prepareBuffer ≠ 0 ∨ c.hasWriter = false ∨ c.hasChecksum = false then some (p, .setupFailed)
  else if c.opened = false then some (p, .openFailed)
  else if c.mapped = false then some (p, .mapFailed)
  else c.scanMapped fuel p

/-- `csum_whole_file()`, nothing where the loop does not end or an assertion fails. -/
def csumWholeFile (fuel : ℕ) (p : WorkerProgress) : Option (WorkerProgress × CsumExit) :=
  let slot := { p.slot.setFile c.filesize with fileScannedBytes := c.resumeOff }
  (c.scanFile fuel { p with slot := slot }).map fun r =>
    ({ r.1 with slot := r.1.slot.finishFile }, r.2)

end CsumCall

namespace CsumCall

variable {δ ω : Type*} (c : CsumCall δ ω)

def mapsFile : Bool :=
  decide (c.prepareBuffer = 0) && c.hasWriter && c.hasChecksum && c.opened && c.mapped

/-- What an accepted resume leaves out. -/
def acceptedOff : BitVec 64 :=
  c.resume.elim 0 fun cp => if c.mapsFile && !c.scan.adoptResume cp then 0 else .ofNat 64 cp.loff

def contribution : BitVec 64 := c.filesize - c.acceptedOff

def leftByLayoutCopy : Bool :=
  c.mapsFile && c.resume.isNone && c.layoutKeyWanted.any fun key => c.copiesLayout key

variable {c}

/-- From the loop on the slot is credited with what is left of the file, whatever was read. -/
theorem hashFile_spec {fuel : ℕ} {p p' : WorkerProgress} {exit : CsumExit}
    (h : c.hashFile fuel p = some (p', exit)) :
    p'.slot.settled = p.slot.settled ∧ p'.pscan = p.pscan := by
  have hcredit : ∀ n, (credit p n).slot.settled = p.slot.settled ∧
      (credit p n).pscan = p.pscan := by
    refine fun n => ⟨?_, rfl⟩
    simp only [credit, PscanThread.settled]
    ring
  unfold hashFile at h
  split at h
  · rw [Option.some.injEq, Prod.mk.injEq] at h
    exact h.1 ▸ hcredit _
  · rw [Option.some.injEq, Prod.mk.injEq] at h
    exact h.1 ▸ hcredit _
  · cases h

theorem filesize_ne_zero {key : δ} (hkey : c.layoutKeyWanted = some key) : c.filesize ≠ 0 := by
  unfold layoutKeyWanted at hkey
  split_ifs at hkey with hwanted
  rw [Bool.and_eq_true, decide_eq_true_eq] at hwanted
  have hlt := c.size_lt
  intro hzero
  have htoNat := congrArg BitVec.toNat hzero
  rw [filesize, BitVec.toNat_ofNat, Nat.mod_eq_of_lt hlt] at htoNat
  have hread : 0 < READ_BUF_LEN := by decide
  simp only [BitVec.ofNat_eq_ofNat, BitVec.toNat_zero] at htoNat
  omega

theorem contribution_ne_zero (h : c.leftByLayoutCopy = true) : c.contribution ≠ 0 := by
  simp only [leftByLayoutCopy, Bool.and_eq_true, Option.isNone_iff_eq_none] at h
  obtain ⟨⟨-, hresume⟩, hany⟩ := h
  obtain ⟨key, hkey, -⟩ := (Option.any_eq_true ..).mp hany
  have hoff : c.acceptedOff = 0 := by simp [acceptedOff, hresume]
  rw [contribution, hoff, sub_zero]
  exact filesize_ne_zero hkey

def begun (c : CsumCall δ ω) (p : WorkerProgress) : WorkerProgress :=
  { p with slot := { p.slot.setFile c.filesize with fileScannedBytes := c.resumeOff } }

/-- A resumed file has no donor: its skipped bytes are back on the bill if they were declined. -/
theorem scanMapped_of_resume {fuel : ℕ} {p p' : WorkerProgress} {exit : CsumExit}
    {cp : ScanCheckpoint} (hresume : c.resume = some cp)
    (h : c.scanMapped fuel (c.begun p) = some (p', exit)) :
    p'.slot.settled = p.slot.totalScannedBytes +
        (c.filesize - if c.scan.adoptResume cp then .ofNat 64 cp.loff else 0) ∧
      p'.pscan.totalBytesCount = p.pscan.totalBytesCount +
        (if c.scan.adoptResume cp then 0 else .ofNat 64 cp.loff) := by
  have hoff : c.resumeOff = .ofNat 64 cp.loff := by rw [resumeOff, hresume]; rfl
  obtain ⟨p₁, hp₁⟩ : ∃ p₁, p₁ = if c.scan.adoptResume cp then c.begun p
      else c.declineResume (c.begun p) := ⟨_, rfl⟩
  have hspec : p'.slot.settled = p₁.slot.settled ∧ p'.pscan = p₁.pscan := by
    simp only [scanMapped, hresume, ← hp₁, Option.isNone_some, Bool.false_eq_true, if_false] at h
    split_ifs at h with halloc
    · exact hashFile_spec h
    · rw [Option.some.injEq, Prod.mk.injEq] at h
      exact h.1 ▸ ⟨rfl, rfl⟩
  rw [hspec.1, hspec.2, hp₁]
  split_ifs with hadopt
  · rw [← hoff]
    exact ⟨rfl, (add_zero _).symm⟩
  · rw [← hoff]
    exact ⟨rfl, rfl⟩

theorem scanMapped_of_none {fuel : ℕ} {p p' : WorkerProgress} {exit : CsumExit}
    (hresume : c.resume = none) (h : c.scanMapped fuel (c.begun p) = some (p', exit)) :
    p'.slot.settled = p.slot.totalScannedBytes +
        (if c.layoutKeyWanted.any (fun key => c.copiesLayout key) then 0 else c.filesize) ∧
      p'.pscan = p.pscan := by
  have hoff : c.resumeOff = 0 := by rw [resumeOff, hresume]; rfl
  have hbegun : (c.begun p).slot.settled = p.slot.totalScannedBytes + c.filesize := by
    change p.slot.totalScannedBytes + (c.filesize - c.resumeOff) = _
    rw [hoff, sub_zero]
  have hmiss : (if c.allocateHashes then c.hashFile fuel (c.begun p)
      else some (c.begun p, .setupFailed)) = some (p', exit) →
      p'.slot.settled = p.slot.totalScannedBytes + c.filesize ∧ p'.pscan = p.pscan := by
    intro h
    split_ifs at h with halloc
    · exact ⟨(hashFile_spec h).1.trans hbegun, (hashFile_spec h).2⟩
    · rw [Option.some.injEq, Prod.mk.injEq] at h
      exact ⟨h.1 ▸ hbegun, h.1 ▸ rfl⟩
  simp only [scanMapped, hresume, Option.isNone_none, if_true] at h
  cases hkey : c.layoutKeyWanted with
  | none =>
    simp only [hkey, Option.bind_none] at h
    simpa using hmiss h
  | some key =>
    simp only [hkey, Option.bind_some, tryLayoutCopy] at h
    by_cases hcopy : c.copiesLayout key = true
    · rw [if_pos hcopy] at h
      simp only [Option.some.injEq, Prod.mk.injEq] at h
      obtain ⟨rfl, -⟩ := h
      simp only [Option.any_some, hcopy, if_true]
      refine ⟨?_, rfl⟩
      change p.slot.totalScannedBytes + (c.filesize - c.filesize) = _
      rw [sub_self]
    · rw [if_neg hcopy] at h
      simpa [hcopy] using hmiss h

/-- What a call adds to its slot and to the bill. -/
theorem csumWholeFile_spec {fuel : ℕ} {p p' : WorkerProgress} {exit : CsumExit}
    (h : c.csumWholeFile fuel p = some (p', exit)) :
    p'.slot.totalScannedBytes = p.slot.totalScannedBytes +
        (if c.leftByLayoutCopy then 0 else c.contribution) ∧
      p'.pscan.totalBytesCount = p.pscan.totalBytesCount + (c.resumeOff - c.acceptedOff) := by
  obtain ⟨r, hscan, hr⟩ := Option.map_eq_some_iff.mp h
  rw [Prod.mk.injEq] at hr
  obtain ⟨rfl, rfl⟩ := hr
  change c.scanFile fuel (c.begun p) = some r at hscan
  have hsettled := r.1.slot.finishFile_bytes
  rw [hsettled]
  -- a call that maps nothing finishes the file as it began it
  have hunmapped : c.mapsFile = false → r.1 = c.begun p →
      r.1.slot.settled = p.slot.totalScannedBytes +
          (if c.leftByLayoutCopy then 0 else c.contribution) ∧
        r.1.pscan.totalBytesCount = p.pscan.totalBytesCount + (c.resumeOff - c.acceptedOff) := by
    intro hmaps hr
    have hoff : c.acceptedOff = c.resumeOff := by simp [acceptedOff, resumeOff, hmaps]
    have hleft : c.leftByLayoutCopy = false := by simp [leftByLayoutCopy, hmaps]
    rw [hr, hleft, hoff, contribution, hoff]
    exact ⟨rfl, by rw [sub_self, add_zero]; rfl⟩
  unfold scanFile at hscan
  split_ifs at hscan with hsetup hopened hmapped
  · refine hunmapped ?_ (Option.some.inj hscan ▸ rfl)
    rcases hsetup with hbuf | hwriter | hcsum
    · simp [mapsFile, hbuf]
    · simp [mapsFile, hwriter]
    · simp [mapsFile, hcsum]
  · exact hunmapped (by simp [mapsFile, hopened]) (Option.some.inj hscan ▸ rfl)
  · exact hunmapped (by simp [mapsFile, hmapped]) (Option.some.inj hscan ▸ rfl)
  · push Not at hsetup
    rw [Bool.not_eq_false] at hopened hmapped
    have hmaps : c.mapsFile = true := by simp [mapsFile, hsetup, hopened, hmapped]
    cases hresume : c.resume with
    | none =>
      obtain ⟨hslot, hpscan⟩ := scanMapped_of_none hresume hscan
      have hoff : c.acceptedOff = 0 := by simp [acceptedOff, hresume]
      have hzero : c.resumeOff = 0 := by simp [resumeOff, hresume]
      rw [hslot, hpscan, contribution, hoff, hzero, sub_zero, sub_self,
        add_zero]
      simp [leftByLayoutCopy, hmaps, hresume]
    | some cp =>
      obtain ⟨hslot, hpscan⟩ := scanMapped_of_resume hresume hscan
      have hleft : c.leftByLayoutCopy = false := by simp [leftByLayoutCopy, hresume]
      rw [hslot, hpscan, hleft, contribution]
      cases hadopt : c.scan.adoptResume cp <;>
        simp [acceptedOff, resumeOff, hresume, hmaps, hadopt]

end CsumCall

/-- The hashing of a run: one slot for each worker, the files that are queued and those that
`csum_whole_file()` has left. A file dropped after an interrupt stays in the queue here. -/
structure HashingRun (ι δ ω : Type*) where
  pscan : PscanGlobal
  slots : ι → PscanThread
  queued : List (CsumCall δ ω)
  left : List (CsumCall δ ω)

namespace HashingRun

variable {ι δ ω : Type*} [DecidableEq ι]

def start : HashingRun ι δ ω := ⟨⟨0, 0⟩, fun _ => ⟨0, 0, 0, 0⟩, [], []⟩

/-- A call only adds to the totals and is alone at its slot, so it counts as one step. -/
inductive Step (s : HashingRun ι δ ω) : HashingRun ι δ ω → Prop
  | queue (c : CsumCall δ ω) :
      Step s { s with pscan := c.queueFileForScan s.pscan, queued := s.queued ++ [c] }
  | hash {w : ι} {c : CsumCall δ ω} {before after : List (CsumCall δ ω)} {fuel : ℕ}
      {p : WorkerProgress} {exit : CsumExit} (hqueued : s.queued = before ++ c :: after)
      (hcall : c.csumWholeFile fuel ⟨s.slots w, s.pscan⟩ = some (p, exit)) :
      Step s ⟨p.pscan, Function.update s.slots w p.slot, before ++ after, s.left ++ [c]⟩

inductive Reachable : HashingRun ι δ ω → Prop
  | start : Reachable start
  | step {s s' : HashingRun ι δ ω} (h : Reachable s) (hstep : Step s s') : Reachable s'

def scanned [Fintype ι] (s : HashingRun ι δ ω) : BitVec 64 := ∑ w, (s.slots w).totalScannedBytes

/-- What the files that have left the workers come to. -/
def expected (s : HashingRun ι δ ω) : BitVec 64 := (s.left.map CsumCall.contribution).sum

variable [Fintype ι] {s s' : HashingRun ι δ ω}

/-- The bytes of files that were left by a layout copy are missing, and no others. -/
structure Inv (s : HashingRun ι δ ω) : Prop where
  scanned : s.scanned =
    (s.left.map fun c => if c.leftByLayoutCopy then 0 else c.contribution).sum
  billed : s.pscan.totalBytesCount =
    s.expected + (s.queued.map fun c => c.filesize - c.resumeOff).sum

omit [DecidableEq ι] in
theorem Inv.start : (start : HashingRun ι δ ω).Inv where
  scanned := by simp [HashingRun.scanned, HashingRun.start]
  billed := by simp [expected, HashingRun.start]

theorem Inv.step (h : s.Inv) (hstep : Step s s') : s'.Inv := by
  cases hstep with
  | queue c =>
    refine ⟨h.scanned, ?_⟩
    simp only [CsumCall.queueFileForScan, PscanGlobal.setProgress, h.billed, expected,
      List.map_append, List.map_singleton, List.sum_append, List.sum_singleton]
    ring
  | @hash w c before after fuel p exit hqueued hcall =>
    obtain ⟨hslot, hbill⟩ := CsumCall.csumWholeFile_spec hcall
    constructor
    · have hsum := Threads.sum_update PscanThread.totalScannedBytes s.slots w p.slot
      have hold := h.scanned
      simp only [HashingRun.scanned, hslot] at hsum hold ⊢
      rw [List.map_append, List.sum_append, List.map_singleton, List.sum_singleton, ← hold]
      refine add_right_cancel (hsum.trans ?_)
      ring
    · simp only [hbill, h.billed, hqueued, expected, List.map_append, List.map_cons, List.map_nil,
        List.sum_append, List.sum_cons, List.sum_nil, CsumCall.contribution]
      ring

theorem Reachable.inv (h : Reachable s) : s.Inv := by
  induction h with
  | start => exact .start
  | step _ hstep ih => exact ih.step hstep

end HashingRun

/-- The slot of the worker and the bill agree on a file unless it was left by a layout copy, which
credits the file and not the slot; in a run without one the totals agree whatever has left the
workers, and what is still on the bill is queued. -/
theorem byte_progress_balances_iff {ι δ ω : Type*} [Fintype ι] [DecidableEq ι] :
    (∀ (c : CsumCall δ ω) (fuel : ℕ) (p p' : WorkerProgress) (exit : CsumExit),
      c.csumWholeFile fuel ⟨p.slot, c.queueFileForScan p.pscan⟩ = some (p', exit) →
      p'.pscan.totalBytesCount - p.pscan.totalBytesCount = c.filesize - c.acceptedOff ∧
      (p'.slot.totalScannedBytes - p.slot.totalScannedBytes =
        p'.pscan.totalBytesCount - p.pscan.totalBytesCount ↔ c.leftByLayoutCopy = false)) ∧
    ∀ s : HashingRun ι δ ω, HashingRun.Reachable s →
      (∀ c ∈ s.left, c.leftByLayoutCopy = false) →
      s.scanned = s.expected ∧ s.pscan.totalBytesCount =
        s.expected + (s.queued.map fun c => c.filesize - c.resumeOff).sum := by
  constructor
  · intro c fuel p p' exit h
    obtain ⟨hslot, hbill⟩ := CsumCall.csumWholeFile_spec h
    simp only [CsumCall.queueFileForScan, PscanGlobal.setProgress] at hbill
    have hdiff : p'.pscan.totalBytesCount - p.pscan.totalBytesCount = c.contribution := by
      rw [hbill, CsumCall.contribution]
      ring
    refine ⟨hdiff, ?_⟩
    rw [hdiff, hslot, add_sub_cancel_left]
    cases hleft : c.leftByLayoutCopy with
    | false => simp
    | true =>
      simp only [if_true, Bool.true_eq_false, iff_false]
      exact fun heq => CsumCall.contribution_ne_zero hleft heq.symm
  · intro s hs hleft
    have hinv := hs.inv
    refine ⟨hinv.scanned.trans ?_, hinv.billed⟩
    refine congrArg List.sum (List.map_congr_left fun c hc => ?_)
    rw [hleft c hc, if_neg Bool.false_ne_true]

/-- A file of one extent, as a snapshot shares it with its origin. -/
def snapshotFile : FileToScan where
  filesize := READ_BUF_LEN
  mtime := 0
  fiemap := ⟨[⟨0, 4096, READ_BUF_LEN, FIEMAP_EXTENT_LAST⟩], by decide, by simp⟩

/-- The second of two files with one layout; whether it is still there to be opened is left open. -/
def snapshotCall (opened : Bool) : CsumCall Unit Unit where
  scan := plainScan fourKiB snapshotFile fun _ => 1
  fileid := 2
  resume := none
  prepareBuffer := 0
  hasWriter := true
  hasChecksum := true
  opened := opened
  mapped := true
  donorsOn := true
  layoutKey := some ()
  layoutDonorFind _ := 1
  layoutMatches _ := 1
  writeBegin := 0
  copyScannedFile _ := 0
  writeEnd := 0
  allocateHashes := true
  world := ()
  stored := true
  size_lt := by decide
  resume_usable := by simp

def idleWorker : WorkerProgress := ⟨⟨0, 0, 0, 0⟩, ⟨0, 0⟩⟩

def twoBytes : FileToScan where
  filesize := 2
  mtime := 0
  fiemap := ⟨[⟨0, 4096, 4096, FIEMAP_EXTENT_LAST⟩], by decide, by simp⟩

def twoBytesCall : CsumCall Unit Unit where
  scan := plainScan fourKiB twoBytes fun _ => 1
  fileid := 3
  resume := none
  prepareBuffer := 0
  hasWriter := true
  hasChecksum := true
  opened := true
  mapped := true
  donorsOn := true
  layoutKey := some ()
  layoutDonorFind _ := 1
  layoutMatches _ := 1
  writeBegin := 0
  copyScannedFile _ := 0
  writeEnd := 0
  allocateHashes := true
  world := ()
  stored := true
  size_lt := by decide
  resume_usable := by simp

/-- Two workers: one stores the digest of a file, the other cannot open the snapshot. -/
theorem byte_progress_balances_iff_twoFiles : ∃ s : HashingRun (Fin 2) Unit Unit,
    s.left = [twoBytesCall, snapshotCall false] ∧ s.queued = [] ∧
      (s.slots 1).totalScannedBytes = 2 ∧ s.scanned = s.expected ∧
      s.pscan.totalBytesCount = s.expected := by
  have hs : HashingRun.Reachable (.start : HashingRun (Fin 2) Unit Unit) := .start
  have hs := hs.step (.queue (snapshotCall false))
  have hs := hs.step (.queue twoBytesCall)
  have hs := hs.step (@HashingRun.Step.hash _ _ _ _ _ 1 twoBytesCall [snapshotCall false] [] 2
    ⟨⟨1, 2, 2, 2⟩, _⟩ .stored rfl rfl)
  have hs := hs.step (@HashingRun.Step.hash _ _ _ _ _ 0 (snapshotCall false) [] [] 0 _
    .openFailed rfl rfl)
  have h := (byte_progress_balances_iff.2 _ hs) (by
    intro c hc
    have hc : c ∈ [twoBytesCall, snapshotCall false] := hc
    simp only [List.mem_cons, List.not_mem_nil, or_false] at hc
    rcases hc with rfl | rfl <;> rfl)
  exact ⟨_, rfl, rfl, rfl, h.1, h.2.trans (add_zero _)⟩

/-- The results of the snapshot are copied, and the slot that did it has scanned nothing. -/
theorem layoutCopy_uncredited : ¬ ∀ (c : CsumCall Unit Unit) (fuel : ℕ) (p p' : WorkerProgress)
    (exit : CsumExit),
    c.csumWholeFile fuel ⟨p.slot, c.queueFileForScan p.pscan⟩ = some (p', exit) →
      p'.slot.totalScannedBytes - p.slot.totalScannedBytes =
        p'.pscan.totalBytesCount - p.pscan.totalBytesCount := by
  intro h
  have hcall : (snapshotCall true).csumWholeFile 0
      ⟨idleWorker.slot, (snapshotCall true).queueFileForScan idleWorker.pscan⟩ =
      some (⟨⟨1, 0, 1048576, 1048576⟩, ⟨1, 1048576⟩⟩, .layoutCopied) := rfl
  exact absurd (h _ 0 idleWorker _ _ hcall) (by decide)

end Oans
