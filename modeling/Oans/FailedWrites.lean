import Oans.ScanSessions
import Oans.WriteUnits

/-!
# Failed writes

What the loop feeds and the rows it makes follow from the file and from what the reads return,
whatever becomes of the writes on the way. So two scans that store their results store the same
unless a write unit of one of them failed harmfully: a drain whose code is taken for a count of
bytes, a checkpoint whose rows are dropped although it is rolled back, a transaction that is gone
without the writer's knowledge.
-/

namespace Oans

open Savepoint Slice

variable {δ : Type*}

/-- What decides how the loop goes on: how far it has come, and the bytes left in the buffer. -/
structure Snap where
  progress : Progress
  left : List UInt8

def LoopState.snap {ω : Type*} (s : LoopState δ ω) : Snap := ⟨s.progress, s.buffer.data⟩

/-- One turn as far as the writes have no say in it: whether it is the last, where it leads and the
rows it makes. -/
def Hashing.advance (job : Hashing δ) (pread : ℕ → ℕ → Option (List UInt8)) (s : Snap) :
    Bool × Snap × Rows δ :=
  let off := s.progress.off
  let fed := s.progress.fileCsum
  if job.fiemap.HoleBlock job.blocksize off then
    let run := job.fiemap.holeRun job.blocksize job.filesize off
    (false, ⟨⟨off + run, fed ++ [.hole off run], s.progress.extentCsum⟩, s.left⟩, ∅)
  else if job.Fakes off then
    let zeroes := List.replicate job.fakeLen 0
    let exts := job.extentsAfter off zeroes job.fakeLen s.progress.extentCsum
    (decide (job.filesize ≤ off + job.fakeLen),
      ⟨⟨off + job.fakeLen, fed ++ [.bytes zeroes], exts.1⟩, []⟩, ⟨[], exts.2.reduceOption⟩)
  else
    let cap := job.fiemap.nextHoleBlock job.blocksize job.filesize off 0
    match pread (off + s.left.length) (wantAt off s.left.length cap) with
    | none => (true, s, ∅)
    | some bytes =>
      let data := s.left ++ bytes
      let eof := decide (job.filesize ≤ off + data.length ∨ bytes = [])
      let n := job.consumes eof off (off + data.length)
      let exts := job.extentsAfter off data n s.progress.extentCsum
      (eof, ⟨⟨off + n, fed ++ [.bytes (data.take n)], exts.1⟩, data.drop n⟩,
        ⟨job.turnRows eof off ⟨data, false⟩, exts.2.reduceOption⟩)

/-- Where a scan starts, whoever wrote the checkpoint. -/
def Hashing.startSnap (job : Hashing δ) : Option ScanCheckpoint → Snap
  | none => ⟨.zero, []⟩
  | some cp => if job.resumeUsable cp && job.adoptResume cp then ⟨cp.progress, []⟩ else ⟨.zero, []⟩

def Hashing.Below (job : Hashing δ) (s : Snap) : Prop := s.progress.off < job.filesize

/-- A drain failed with a code that the loop takes for a count of bytes. -/
def UnitReport.Misread (r : UnitReport) : Prop := r.unit = .blockBatch ∧ 0 < r.rc

instance (r : UnitReport) : Decidable r.Misread := inferInstanceAs (Decidable (_ ∧ _))

def Flow.state {σ : Type*} : Flow σ → Option σ
  | .next s => some s
  | .leave s => some s
  | .abandon s => some s
  | .assertFailed => none

def Rows.joined (emitted : List (Rows δ)) : Rows δ := emitted.foldl (· ++ ·) ∅

namespace ScanEnv

variable {ω : Type*} {env : ScanEnv δ ω} {content : ℕ → UInt8} {s t : LoopState δ ω}
  {rows emit : Rows δ}

theorem startState_snap (env : ScanEnv δ ω) (resume : Option ScanCheckpoint) (w : ω) :
    (env.startState resume w).snap = env.startSnap resume := by
  unfold startState Hashing.startSnap
  cases resume with
  | none => rfl
  | some cp =>
    dsimp only
    split_ifs <;> rfl

theorem Turn.advance {eof : Bool} (h : env.Turn content eof s t emit)
    (hsound : env.Sound content s.ctxt s.buffer) (hlt : s.ctxt.off < env.filesize) :
    env.toHashing.advance env.pread s.snap = (eof, t.snap, emit) := by
  unfold Hashing.advance LoopState.snap LoopState.progress
  dsimp only
  cases h with
  | hole hhole hctxt hbuffer =>
    rw [if_pos hhole, hctxt, hbuffer]
  | faked hdata hfakes heof hctxt hbuffer =>
    rw [if_neg hdata, if_pos hfakes, hctxt, hbuffer, heof]
  | @read _ _ _ cap stop hdata hno hcap hlo hhi hread heof hctxt hbuffer =>
    have hcap' := Fiemap.nextHoleBlock_isReadCap env.blocksize_pos 0 hlt hdata
    have hle := env.consumes_le eof s.ctxt.off stop
    have hall : s.buffer.data ++ slice content (s.ctxt.off + s.buffer.data.length) stop =
        slice content s.ctxt.off stop := by
      rw [← slice_append content (Nat.le_add_right s.ctxt.off s.buffer.data.length) hlo,
        ← hsound.data]
    have hlen : s.ctxt.off + (slice content s.ctxt.off stop).length = stop := by
      rw [length_slice]
      omega
    have hnil : slice content (s.ctxt.off + s.buffer.data.length) stop = [] ↔
        stop = s.ctxt.off + s.buffer.data.length := by
      rw [← List.length_eq_zero_iff, length_slice]
      omega
    rw [if_neg hdata, if_neg hno, hcap'.unique hcap, hread]
    dsimp only
    simp only [hall, hlen, hnil, ← heof]
    rw [slice_take content _ (show s.ctxt.off + env.consumes eof s.ctxt.off stop ≤ stop by omega),
      slice_drop content _ (show s.ctxt.off + env.consumes eof s.ctxt.off stop ≤ stop by omega),
      hctxt, hbuffer]

theorem Makes.path (h : env.Makes content s t rows) (hsound : env.Sound content s.ctxt s.buffer) :
    ∃ emitted, Stepping.Path env.Below (env.toHashing.advance env.pread) s.snap t.snap emitted ∧
      rows = Rows.joined emitted := by
  induction h with
  | refl => exact ⟨[], .refl, rfl⟩
  | turn head hlt hturn ih =>
    obtain ⟨emitted, hpath, rfl⟩ := ih
    refine ⟨_, hpath.snoc hlt (hturn.advance (head.sound hsound) hlt), ?_⟩
    rw [Rows.joined, Rows.joined, List.foldl_append]
    rfl

theorem Finishes.evaluates (h : env.Finishes content s t rows)
    (hsound : env.Sound content s.ctxt s.buffer) : ∃ emitted,
    Stepping.Evaluates env.Below (env.toHashing.advance env.pread) s.snap t.snap emitted ∧
      rows = Rows.joined emitted := by
  cases h with
  | done head hge =>
    obtain ⟨emitted, hpath, rfl⟩ := head.path hsound
    refine ⟨_, hpath.evaluates (.stop fun hlt => ?_), by rw [List.append_nil]⟩
    exact absurd hlt (Nat.not_lt.mpr hge)
  | last head hlt hturn =>
    obtain ⟨emitted, hpath, rfl⟩ := head.path hsound
    refine ⟨_, hpath.evaluates (.last hlt (hturn.advance (head.sound hsound) hlt)), ?_⟩
    rw [Rows.joined, Rows.joined, List.foldl_append]
    rfl

end ScanEnv

namespace ScanWriter

section Holds

variable {σ : Type*} {io : WriterIO} {w : ScanWriter σ} {P : σ → Prop}

/-- Nothing a unit does between its writes makes up a content. -/
theorem unitRelease_holds (h : w.conn.Holds P) : (w.unitRelease io).2.conn.Holds P := by
  have hrelease := h.release (io.answers w.tick)
  unfold unitRelease
  split_ifs
  · exact h
  · dsimp only [run]
    split_ifs
    · exact hrelease.rollback
    · exact hrelease

theorem writeBegin_holds (h : w.conn.Holds P) : (w.writeBegin io).2.conn.Holds P := by
  unfold writeBegin
  split_ifs
  · exact h
  · exact h
  · dsimp only [run]
    split_ifs
    · exact h
    · exact h.savepoint _
    · exact h.savepoint _
  · have hbegin := h.begin (io.answers w.tick)
    dsimp only [run]
    split_ifs
    all_goals first
      | exact hbegin
      | exact hbegin.savepoint _

theorem writeFlush_holds (h : w.conn.Holds P) : (w.writeFlush io).2.conn.Holds P := by
  have hrelease := @unitRelease_holds _ io _ _ h
  unfold writeFlush
  generalize w.unitRelease io = ran at hrelease ⊢
  obtain ⟨rc, w₁⟩ := ran
  have hcommit := hrelease.commit (io.answers w₁.tick)
  dsimp only [run] at hrelease ⊢
  split_ifs
  · exact hrelease
  · exact hcommit.rollback
  · exact hcommit

theorem writeEnd_holds (h : w.conn.Holds P) : (w.writeEnd io).2.conn.Holds P := by
  have hrelease := @unitRelease_holds _ io _ _ h
  unfold writeEnd
  generalize w.unitRelease io = ran at hrelease ⊢
  obtain ⟨rc, w₁⟩ := ran
  dsimp only at hrelease ⊢
  split_ifs
  · exact hrelease
  · exact writeFlush_holds hrelease
  · exact hrelease

theorem writeAbort_holds (h : w.conn.Holds P) : (w.writeAbort io).conn.Holds P := by
  have hback := h.rollbackTo (io.answers w.tick)
  unfold writeAbort
  split_ifs
  · exact h
  · dsimp only [run]
    split_ifs
    · exact hback.rollback
    · exact (hback.release _).rollback
    · exact hback.release _

theorem execAll_holds {fs : List (σ → Option σ)} (h : w.conn.Holds P)
    (hfs : ∀ f ∈ fs, ∀ s s', P s → f s = some s' → P s') :
    (w.execAll io fs).2.conn.Holds P := by
  induction fs generalizing w with
  | nil => exact h
  | cons f fs ih =>
    have hrun : (w.run io (Conn.exec f)).2.conn.Holds P := h.exec (hfs f List.mem_cons_self) _
    rw [execAll]
    dsimp only
    split_ifs
    · exact hrun
    · exact ih hrun fun g hg => hfs g (List.mem_cons_of_mem _ hg)

end Holds

/-- The file counts as not scanned in all the connection holds. -/
def Unscanned (w : ScanWriter (FileHashes δ)) : Prop := w.conn.Holds fun f => f.scanned = none

variable {io : WriterIO} {w : ScanWriter (FileHashes δ)}

theorem Unscanned.view (h : w.Unscanned) : w.view.scanned = none := Conn.Holds.view h

theorem Unscanned.storeBlockBatch (h : w.Unscanned) (hs : Hashes δ) :
    (w.storeBlockBatch io hs).2.2.Unscanned := by
  have hall : (w.execAll io (hs.blocks.map FileHashes.insertBlock)).2.Unscanned := by
    refine execAll_holds h fun f hf s s' hnone hs' => ?_
    obtain ⟨row, -, rfl⟩ := List.mem_map.mp hf
    unfold FileHashes.insertBlock at hs'
    split_ifs at hs'
    rw [← Option.some.inj hs']
    exact hnone
  unfold ScanWriter.storeBlockBatch
  dsimp only
  split_ifs
  · exact h
  · exact hall
  · exact hall

theorem Unscanned.storeExtentBatch (h : w.Unscanned) (hs : Hashes δ) :
    (w.storeExtentBatch io hs).2.2.Unscanned := by
  have hall : (w.execAll io (hs.extents.reduceOption.map FileHashes.insertExtent)).2.Unscanned := by
    refine execAll_holds h fun f hf s s' hnone hs' => ?_
    obtain ⟨row, -, rfl⟩ := List.mem_map.mp hf
    unfold FileHashes.insertExtent at hs'
    split_ifs at hs'
    rw [← Option.some.inj hs']
    exact hnone
  unfold ScanWriter.storeExtentBatch
  dsimp only
  split_ifs
  · exact h
  · exact hall
  · exact hall

theorem Unscanned.flushBlockHashes (h : w.Unscanned) (hs : Hashes δ) :
    (w.flushBlockHashes io hs).2.2.Unscanned := by
  have hbegin : (w.writeBegin io).2.Unscanned := writeBegin_holds h
  have hstore := @Unscanned.storeBlockBatch _ io _ hbegin hs
  unfold ScanWriter.flushBlockHashes
  dsimp only
  split_ifs
  · exact h
  · exact hbegin
  · exact writeAbort_holds hstore
  · exact writeEnd_holds hstore

theorem Unscanned.checkpointWrites (h : w.Unscanned) (hs : Hashes δ) (cp : ScanCheckpoint) :
    (w.checkpointWrites io hs cp).2.2.Unscanned := by
  have hextents := @Unscanned.storeExtentBatch _ io _ h hs
  have hblocks := @Unscanned.storeBlockBatch _ io _ hextents (w.storeExtentBatch io hs).2.1
  unfold ScanWriter.checkpointWrites
  dsimp only
  split_ifs
  · exact hextents
  · exact hblocks
  · have hstored : ∀ f f' : FileHashes δ, f.scanned = none →
        FileHashes.storeCheckpoint cp f = some f' → f'.scanned = none := fun f f' hnone hf =>
      Option.some.inj hf ▸ hnone
    exact Conn.Holds.exec hblocks hstored _

theorem Unscanned.storeCheckpoint (h : w.Unscanned) (hs : Hashes δ) (cp : ScanCheckpoint) :
    (w.storeCheckpoint io hs cp).2.2.Unscanned := by
  have hbegin : (w.writeBegin io).2.Unscanned := writeBegin_holds h
  have hwrites := @Unscanned.checkpointWrites _ io _ hbegin hs cp
  unfold ScanWriter.storeCheckpoint
  dsimp only
  split_ifs
  · exact hbegin
  · exact writeAbort_holds hwrites
  · exact writeFlush_holds hwrites

def Sunk (w : ScanWriter (FileHashes δ)) : Prop := w.batchLost = true → w.conn.trans = none

theorem Sunk.view (h : w.Sunk) (hlost : w.batchLost = true) : w.view = w.conn.durable := by
  unfold ScanWriter.view Conn.view
  rw [h hlost]

theorem Sunk.writeAbort (hkept : w.batchLost = false) : (w.writeAbort io).Sunk := by
  unfold ScanWriter.writeAbort
  dsimp only [run]
  split_ifs
  · exact fun h => absurd (hkept.symm.trans h) Bool.false_ne_true
  · exact fun _ => rfl
  · exact fun _ => rfl
  · exact fun h => absurd (hkept.symm.trans h) Bool.false_ne_true

/-- Releasing a unit loses the batch only when it fails. -/
theorem Sunk.unitRelease (hkept : w.batchLost = false) : (w.unitRelease io).2.Sunk ∧
    ((w.unitRelease io).1 = 0 → (w.unitRelease io).2.batchLost = false) := by
  unfold ScanWriter.unitRelease
  dsimp only [run]
  split_ifs with hclosed hrc
  · exact ⟨fun h => absurd (hkept.symm.trans h) Bool.false_ne_true, fun _ => hkept⟩
  · exact ⟨fun _ => rfl, fun h => absurd (Nat.cast_eq_zero.mp h) hrc⟩
  · exact ⟨fun h => absurd (hkept.symm.trans h) Bool.false_ne_true, fun _ => hkept⟩

theorem Sunk.writeFlush (hkept : w.batchLost = false) : (w.writeFlush io).2.Sunk := by
  obtain ⟨hsunk, hkeeps⟩ := @Sunk.unitRelease _ io w hkept
  unfold ScanWriter.writeFlush
  generalize w.unitRelease io = ran at hsunk hkeeps ⊢
  obtain ⟨rc, w₁⟩ := ran
  dsimp only [run] at hsunk hkeeps ⊢
  split_ifs with hrc
  · exact hsunk
  · exact fun _ => rfl
  · have hkept₁ := hkeeps (not_not.mp (not_or.mp hrc).1)
    exact fun h => absurd (hkept₁.symm.trans h) Bool.false_ne_true

theorem Sunk.writeEnd (hkept : w.batchLost = false) : (w.writeEnd io).2.Sunk := by
  obtain ⟨hsunk, hkeeps⟩ := @Sunk.unitRelease _ io w hkept
  unfold ScanWriter.writeEnd
  generalize w.unitRelease io = ran at hsunk hkeeps ⊢
  obtain ⟨rc, w₁⟩ := ran
  dsimp only at hsunk hkeeps ⊢
  split_ifs with hrc
  · exact hsunk
  · exact writeFlush (hkeeps (not_not.mp hrc))
  · exact fun h => absurd ((hkeeps (not_not.mp hrc)).symm.trans h) Bool.false_ne_true

/-- A flush that fails is reported with the code it returns. -/
theorem flushBlockHashes_report {hs : Hashes δ} (hret : (w.flushBlockHashes io hs).1 ≠ 0) :
    ∃ r ∈ (w.flushBlockHashes io hs).2.2.reports,
      r.unit = .blockBatch ∧ r.rc = (w.flushBlockHashes io hs).1 := by
  unfold flushBlockHashes at hret ⊢
  dsimp only at hret ⊢
  split_ifs at hret ⊢
  · exact absurd rfl hret
  all_goals exact ⟨_, List.mem_cons_self, rfl, rfl⟩

end ScanWriter

namespace ScanEnv

variable {ω : Type*} {env : ScanEnv δ ω} {s t : LoopState δ ω}

theorem hashBuffer_evolves_of_abandon {eof : Bool} (h : env.hashBuffer eof s = .abandon t) :
    env.Evolves s.world t.world := by
  have hstaged := @addBlockHashes_evolves _ _ env (env.turnRows eof s.ctxt.off s.buffer) s.hashes
    s.world
  rcases env.hashBuffer_spec eof s with ⟨u, hu, -, hev⟩ | ⟨u, hu | hu, -⟩ | ⟨s', -, hadds, hflow⟩
  · rw [hu] at h
    obtain rfl := Flow.abandon.inj h
    exact hstaged.trans hev
  · rw [hu] at h
    cases h
  · rw [hu] at h
    cases h
  · rw [hadds] at hstaged
    cases eof with
    | true =>
      rw [if_pos rfl] at hflow
      rw [hflow] at h
      cases h
    | false =>
      rw [if_neg Bool.false_ne_true] at hflow
      rw [hflow] at h
      have hend := endPass_evolves_of_abandon h
      rw [ackBytes_world] at hend
      exact hstaged.trans hend

theorem csumPass_evolves_of_abandon (h : env.csumPass s = .abandon t) :
    env.Evolves s.world t.world := by
  unfold csumPass at h
  dsimp only at h
  split_ifs at h
  split at h
  · exact Flow.abandon.inj h ▸ .refl
  · cases h
  · have hev := hashBuffer_evolves_of_abandon h
    exact hev

theorem csumPass_evolves_of_state (h : (env.csumPass s).state = some t) :
    env.Evolves s.world t.world := by
  cases hpass : env.csumPass s with
  | next u =>
    rw [hpass] at h
    exact csumPass_evolves (Or.inl (Option.some.inj h ▸ hpass))
  | leave u =>
    rw [hpass] at h
    exact csumPass_evolves (Or.inr (Option.some.inj h ▸ hpass))
  | abandon u =>
    rw [hpass] at h
    exact csumPass_evolves_of_abandon (Option.some.inj h ▸ hpass)
  | assertFailed =>
    rw [hpass] at h
    cases h

/-- However a run of the loop ends, further calls of the hashfile lead there. -/
theorem csumLoop_evolves {fuel : ℕ} {flow : Flow (LoopState δ ω)}
    (h : env.csumLoop fuel s = some flow) (ht : flow.state = some t) :
    env.Evolves s.world t.world := by
  have hreaches : ∀ {u}, env.Reaches s u → env.Evolves s.world u.world := fun hreach =>
    @Reaches.invariant _ _ _ _ _ (fun u => env.Evolves s.world u.world) hreach .refl
      fun _ _ hev _ hpass => hev.trans (csumPass_evolves (Or.inl hpass))
  cases csumLoop_ends h with
  | done hreach hge =>
    obtain rfl := Option.some.inj ht
    exact hreaches hreach
  | @pass u _ hreach hlt hpass hlast =>
    rw [← hpass] at ht
    exact (hreaches hreach).trans (csumPass_evolves_of_state ht)

end ScanEnv

namespace FileScan

variable {content : ℕ → UInt8} {base : Rows δ} {resume : Option ScanCheckpoint}

variable {scan clean : FileScan δ} {w w' v v' : ScanWriter (FileHashes δ)} {fuel fuel' : ℕ}

/-- Two scans of a file whose reads return the same and which start alike store the same digest and
rows when they store their results, unless a write unit of one of them failed harmfully. -/
theorem stored_unique (hjob : clean.toHashing = scan.toHashing) (hpread : clean.pread = scan.pread)
    (hreads : scan.env.ReadsFrom content)
    (hstart : scan.ScannedTo content (scan.env.startState resume w).progress base)
    (hrec : w.Records base.blocks base .empty) (hrec' : v.Records base.blocks base .empty)
    (hrun : scan.csumWholeFile fuel resume w = some (.stored w'))
    (hrun' : clean.csumWholeFile fuel' resume v = some (.stored v'))
    (hwrites : ScanWriter.Fails scan.io → ¬ w'.Harmed)
    (hwrites' : ScanWriter.Fails clean.io → ¬ v'.Harmed) :
    w'.view.extents = v'.view.extents ∧ w'.view.blocks = v'.view.blocks ∧
      w'.view.scanned.map ScannedFile.digest = v'.view.scanned.map ScannedFile.digest := by
  have hsnap : (clean.env.startState resume v).snap = (scan.env.startState resume w).snap :=
    (clean.env.startState_snap resume v).trans
      ((congrArg (fun job => Hashing.startSnap job resume) hjob).trans
        (scan.env.startState_snap resume w).symm)
  have hsame : (clean.env.startState resume v).progress = (scan.env.startState resume w).progress :=
    congrArg Snap.progress hsnap
  have hreads' : clean.env.ReadsFrom content := fun pos want data h =>
    hreads pos want data ((congrFun₂ hpread pos want).symm.trans h)
  have hstart' : clean.ScannedTo content (clean.env.startState resume v).progress base := by
    rw [hsame, hjob]
    exact hstart
  have hsound := Hashing.ScannedTo.sound scan.env hstart (scan.env.startState_unread resume w)
  have hsound' := Hashing.ScannedTo.sound clean.env hstart' (clean.env.startState_unread resume v)
  rcases stored_of_start hreads hsound hrec hstart.blocksBelow hrun with
    ⟨r, rows, hfinishes, -, hext, hblk, hin, hscanned⟩ | ⟨hfails, hharm⟩
  swap
  · exact absurd hharm (hwrites hfails)
  rcases stored_of_start hreads' hsound' hrec' hstart'.blocksBelow hrun' with
    ⟨r', rows', hfinishes', -, hext', hblk', hin', hscanned'⟩ | ⟨hfails, hharm⟩
  swap
  · exact absurd hharm (hwrites' hfails)
  obtain ⟨emitted, heval, rfl⟩ := hfinishes.evaluates hsound
  obtain ⟨emitted', heval', rfl⟩ := hfinishes'.evaluates hsound'
  change Stepping.Evaluates clean.toHashing.Below (clean.toHashing.advance clean.pread)
    (clean.env.startState resume v).snap r'.snap emitted' at heval'
  rw [hjob, hpread, hsnap] at heval'
  obtain ⟨hend, rfl⟩ := heval.unique heval'
  have hfed : r'.ctxt.fileCsum = r.ctxt.fileCsum :=
    congrArg (fun s => s.progress.fileCsum) hend.symm
  have hinlined : clean.inlined = scan.inlined := congrArg Hashing.inlined hjob
  refine ⟨hext.trans hext'.symm, ?_, ?_⟩
  · cases hcase : scan.inlined with
    | true => exact (hin hcase).trans (hin' (hinlined.trans hcase)).symm
    | false => exact (hblk hcase).trans (hblk' (hinlined.trans hcase)).symm
  · rw [hscanned, hscanned', Option.map_some, Option.map_some, hfed]
    exact congrArg (fun job => some (Hashing.fileDigest job r.ctxt.fileCsum)) hjob.symm

theorem addBlockHashes_report {rows : List (BlockCsum δ)} {hs : Hashes δ}
    (hret : (scan.env.addBlockHashes rows hs w).1 ≠ 0) :
    ∃ r ∈ (scan.env.addBlockHashes rows hs w).2.2.reports,
      r.unit = .blockBatch ∧ r.rc = (scan.env.addBlockHashes rows hs w).1 := by
  induction rows generalizing hs w with
  | nil => exact absurd rfl hret
  | cons row rows ih =>
    have hrow : (scan.env.addBlockHash hs w row).1 ≠ 0 →
        ∃ r ∈ (scan.env.addBlockHash hs w row).2.2.reports,
          r.unit = .blockBatch ∧ r.rc = (scan.env.addBlockHash hs w row).1 := by
      unfold ScanEnv.addBlockHash
      intro hret
      by_cases hfull : scan.env.pacing.blockBatchMax ≤ hs.blocks.length
      · rw [if_pos hfull] at hret ⊢
        have hreport := @ScanWriter.flushBlockHashes_report _ scan.io w hs
        dsimp only at hret ⊢
        split_ifs at hret ⊢ with hzero
        · exact hreport hzero
        · exact absurd rfl hret
      · rw [if_neg hfull] at hret
        exact absurd rfl hret
    rw [ScanEnv.addBlockHashes] at hret ⊢
    dsimp only at hret ⊢
    split_ifs at hret ⊢ with hzero
    · exact hrow hzero
    · exact ih hret

theorem resultWrites_keeps {io : WriterIO} {first f : FileHashes δ} (h : w.InUnit first f)
    (inlined hadCheckpoint : Bool) (hs : Hashes δ) (scanned : ScannedFile δ) :
    w.Keeps (w.resultWrites io inlined hadCheckpoint hs scanned).2 := by
  have hblocks : w.Keeps (if inlined then (0, hs, w) else w.storeBlockBatch io hs).2.2 ∧
      ((if inlined then (0, hs, w) else w.storeBlockBatch io hs).1 = 0 →
        ∃ g, (if inlined then (0, hs, w) else w.storeBlockBatch io hs).2.2.InUnit first g) := by
    cases inlined with
    | true => exact ⟨.refl w, fun _ => ⟨f, h⟩⟩
    | false =>
      obtain ⟨hkeeps, ⟨-, -, -, -, hunit⟩ | ⟨hrc, -⟩⟩ := ScanWriter.storeBlockBatch_spec io h hs
      · exact ⟨hkeeps, fun _ => ⟨_, hunit⟩⟩
      · exact ⟨hkeeps, fun hzero => absurd hzero hrc⟩
  unfold ScanWriter.resultWrites
  generalize (if inlined = true then ((0 : ℕ), hs, w) else w.storeBlockBatch io hs) = ran
    at hblocks ⊢
  obtain ⟨rc, hs₁, w₁⟩ := ran
  obtain ⟨hkeeps, hopen⟩ := hblocks
  dsimp only at hkeeps hopen ⊢
  by_cases hrc : rc ≠ 0
  · rw [if_pos hrc, if_pos hrc]
    exact hkeeps
  rw [if_neg hrc]
  obtain ⟨g, hunit⟩ := hopen (not_not.mp hrc)
  obtain ⟨hkeeps', hext⟩ := ScanWriter.storeExtentBatch_spec io hunit hs₁
  split_ifs with hrc'
  · exact hkeeps.trans hkeeps'
  all_goals
    obtain ⟨-, -, -, -, hunit'⟩ := hext.resolve_right fun h => hrc' h.1
    exact (hkeeps.trans hkeeps').trans (ScanWriter.execAll_spec hunit' _).1

theorem unscanned_of_dropped {s : LoopState δ (ScanWriter (FileHashes δ))} {stood : List (BlockCsum δ)}
    {rows : Rows δ} (hun : s.world.Unscanned)
    (hrec : s.world.Records stood rows s.hashes ∨ s.world.batchLost = true)
    (h : scan.storeResults s = .dropped w) : w.view.scanned = none := by
  unfold storeResults at h
  by_cases hoff : s.ctxt.off = scan.filesize
  swap
  · rw [if_pos hoff] at h
    rw [← ScanEnd.dropped.inj h]
    exact hun.view
  rw [if_neg (not_not_intro hoff)] at h
  have hbegin : (s.world.writeBegin scan.io).2.Unscanned := ScanWriter.writeBegin_holds hun
  rcases hrec with hrec | hlost
  swap
  · rw [ScanWriter.writeBegin, if_pos hlost] at h
    dsimp only at h
    rw [if_pos (by simp)] at h
    rw [← ScanEnd.dropped.inj h]
    exact hun.view
  obtain ⟨-, ⟨hzero, hunit⟩ | ⟨hret, -⟩⟩ := @ScanWriter.writeBegin_spec _ scan.io _ hrec.idle
  swap
  · dsimp only at h
    rw [if_pos hret] at h
    rw [← ScanEnd.dropped.inj h]
    exact hbegin.view
  have hdurable : (s.world.writeBegin scan.io).2.conn.durable.scanned = none := hbegin.durable
  have hbase : s.world.view.scanned = none := hun.view
  generalize s.world.writeBegin scan.io = ran at hdurable hzero hunit h
  obtain ⟨ret, w₁⟩ := ran
  dsimp only at hdurable hzero hunit h
  rw [if_neg (not_not_intro hzero)] at h
  by_cases hassert : scan.inlined = true ∧ s.hashes.blocksFlushed ≠ 0
  · rw [if_pos hassert] at h
    cases h
  rw [if_neg hassert] at h
  have hwrites := @resultWrites_spec _ _ scan.io _ _ hunit scan.inlined
    (decide (s.lastCheckpoint ≠ 0)) s.hashes (scan.scannedFile s.ctxt.fileCsum)
  have hkeeps := @resultWrites_keeps _ _ scan.io _ _ hunit scan.inlined
    (decide (s.lastCheckpoint ≠ 0)) s.hashes (scan.scannedFile s.ctxt.fileCsum)
  generalize w₁.resultWrites scan.io scan.inlined (decide (s.lastCheckpoint ≠ 0)) s.hashes
    (scan.scannedFile s.ctxt.fileCsum) = ran at hwrites hkeeps h
  obtain ⟨rc, w₂⟩ := ran
  have hdurable₂ : w₂.conn.durable.scanned = none := by
    rw [(List.cons.inj hkeeps.2.2).1]
    exact hdurable
  rcases hwrites with ⟨rfl, hunit'⟩ | ⟨hrc, hbroken⟩
  · have hend := @ScanWriter.writeEnd_spec _ scan.io _ _ _ hunit'
    have hsunk := @ScanWriter.Sunk.writeEnd _ scan.io _ hunit'.kept
    dsimp only at h hend hsunk hdurable₂
    rw [if_neg (not_not_intro rfl)] at h
    generalize w₂.writeEnd scan.io = ran at hend hsunk h
    obtain ⟨ret, w₃⟩ := ran
    dsimp only at h hsunk
    by_cases hret : ret ≠ 0
    swap
    · rw [if_neg hret] at h
      cases h
    rw [if_pos hret] at h
    obtain rfl := ScanEnd.dropped.inj h
    obtain ⟨-, -, hlost⟩ := hend.kept_or_lost.resolve_left fun hkept => hret hkept.1
    have hsame := hend.everDurable.resolve_right fun hmore => hret hmore.1
    rw [hsunk.view hlost, (List.cons.inj hsame).1]
    exact hdurable₂
  · have hsunk := @ScanWriter.Sunk.writeAbort _ scan.io _ hbroken.kept
    obtain ⟨hkeeps', habort⟩ := @ScanWriter.writeAbort_spec _ scan.io _ _ hbroken
    dsimp only at hrc hbroken h hsunk hkeeps' habort hdurable₂
    rw [if_pos hrc] at h
    rw [← ScanEnd.dropped.inj h]
    rcases habort with ⟨-, hview⟩ | hlost
    · rw [hview]
      exact hbase
    · rw [hsunk.view hlost, (List.cons.inj hkeeps'.2.2).1]
      exact hdurable₂

theorem unscanned_of_evolves (h : scan.env.Evolves w v) (hw : w.Unscanned) : v.Unscanned := by
  induction h with
  | refl => exact hw
  | flush _ hs ih => exact ih.flushBlockHashes hs
  | checkpoint _ hs cp ih => exact ih.storeCheckpoint hs cp

theorem storeResults_grows {s : LoopState δ (ScanWriter (FileHashes δ))}
    (h : scan.storeResults s = .stored w ∨ scan.storeResults s = .dropped w) :
    s.world.Grows w := by
  have hbegin := ScanWriter.writeBegin_grows scan.io s.world
  have hwrites := hbegin.trans (ScanWriter.resultWrites_grows scan.io _ scan.inlined
    (decide (s.lastCheckpoint ≠ 0)) s.hashes (scan.scannedFile s.ctxt.fileCsum))
  have hend := hwrites.trans (ScanWriter.writeEnd_grows scan.io _)
  have habort := hwrites.trans (ScanWriter.writeAbort_grows scan.io _)
  unfold storeResults at h
  dsimp only at h
  rcases h with h | h
  · split_ifs at h
    rw [← ScanEnd.stored.inj h]
    exact hend
  · split_ifs at h
    · rw [← ScanEnd.dropped.inj h]
      exact .refl _
    · rw [← ScanEnd.dropped.inj h]
      exact hbegin
    · rw [← ScanEnd.dropped.inj h]
      exact habort
    · rw [← ScanEnd.dropped.inj h]
      exact hend

def endOf (scan : FileScan δ) : Flow (LoopState δ (ScanWriter (FileHashes δ))) →
    ScanEnd (ScanWriter (FileHashes δ))
  | .next s => .dropped s.world
  | .leave s => scan.storeResults s
  | .abandon s => .dropped s.world
  | .assertFailed => .assertFailed

theorem csumWholeFile_eq_some {out : ScanEnd (ScanWriter (FileHashes δ))}
    (h : scan.csumWholeFile fuel resume w = some out) :
    ∃ flow, scan.env.csumLoop fuel (scan.env.startState resume w) = some flow ∧
      scan.endOf flow = out := by
  obtain ⟨flow, hloop, hflow⟩ := Option.map_eq_some_iff.mp h
  refine ⟨flow, hloop, ?_⟩
  cases flow <;> exact hflow

variable {s t u : LoopState δ (ScanWriter (FileHashes δ))}
  {flow : Flow (LoopState δ (ScanWriter (FileHashes δ)))}

theorem endOf_grows (ht : flow.state = some t)
    (hend : scan.endOf flow = .stored w ∨ scan.endOf flow = .dropped w) : t.world.Grows w := by
  cases flow with
  | next v =>
    obtain rfl := Option.some.inj ht
    rw [← ScanEnd.dropped.inj (hend.resolve_left (by simp [endOf]))]
    exact .refl _
  | leave v =>
    obtain rfl := Option.some.inj ht
    exact storeResults_grows hend
  | abandon v =>
    obtain rfl := Option.some.inj ht
    rw [← ScanEnd.dropped.inj (hend.resolve_left (by simp [endOf]))]
    exact .refl _
  | assertFailed => cases ht

theorem state_ne_none (hend : scan.endOf flow = .stored w ∨ scan.endOf flow = .dropped w) :
    ∃ t, flow.state = some t := by
  cases flow with
  | assertFailed => simp [endOf] at hend
  | _ v => exact ⟨v, rfl⟩

/-- Every report of the run is still there where the scan ends. -/
theorem grows_of_pass {n : ℕ} (hloop : scan.env.csumLoop n s = some flow)
    (hend : scan.endOf flow = .stored w ∨ scan.endOf flow = .dropped w)
    (hreach : scan.env.Reaches s t) (hlt : t.ctxt.off < scan.env.filesize)
    (hpass : scan.env.csumPass t = .next u ∨ scan.env.csumPass t = .leave u) :
    u.world.Grows w := by
  obtain ⟨v, hv⟩ := state_ne_none hend
  have hlast := endOf_grows hv hend
  rcases hpass with hpass | hpass
  · obtain ⟨m, hrest⟩ := (ScanEnv.Reaches.turn hreach hlt hpass).csumLoop hloop
    exact (grows_of_evolves (ScanEnv.csumLoop_evolves hrest hv)).trans hlast
  · obtain ⟨m, hrest⟩ := hreach.csumLoop hloop
    cases m with
    | zero => cases hrest
    | succ m =>
      rw [ScanEnv.csumLoop, if_pos hlt, hpass] at hrest
      obtain rfl := Option.some.inj hrest
      obtain rfl := Option.some.inj hv
      exact hlast

theorem misread_of_drainFails (h : scan.env.DrainFails s t) :
    ∃ r ∈ t.world.reports, r.Misread := by
  obtain ⟨rows, hpos, hev⟩ := h
  obtain ⟨r, hr, hunit, hrc⟩ := addBlockHashes_report (Int.ne_of_gt hpos)
  exact ⟨r, (grows_of_evolves hev).reports r hr, hunit, hrc ▸ hpos⟩

/-- As long as no drain's code is taken for a count, every turn stages all its rows. -/
theorem turn_of_pass (hreads : scan.env.ReadsFrom content)
    (hsound : scan.env.Sound content t.ctxt t.buffer) (hlt : t.ctxt.off < scan.env.filesize)
    (hpass : scan.env.csumPass t = .next u ∨ scan.env.csumPass t = .leave u)
    (hquiet : ∀ r ∈ u.world.reports, ¬ r.Misread) :
    ∃ eof emit, scan.env.Turn content eof t u emit ∧ scan.env.Emits t u emit := by
  have hdrain : ¬ scan.env.DrainFails t u := fun h => by
    obtain ⟨r, hr, hmisread⟩ := misread_of_drainFails h
    exact hquiet r hr hmisread
  have hspec := ScanEnv.csumPass_spec hreads hsound hlt
  rcases hpass with hpass | hpass
  · rw [hpass] at hspec
    obtain ⟨emit, hturn⟩ := hspec.resolve_left fun h => hdrain h.1
    exact ⟨false, emit, hturn⟩
  · rw [hpass] at hspec
    obtain ⟨emit, hturn⟩ := hspec.resolve_left fun h => hdrain h.1
    exact ⟨true, emit, hturn⟩

theorem sound_of_reaches (hreads : scan.env.ReadsFrom content)
    (hsound : scan.env.Sound content s.ctxt s.buffer) (hreach : scan.env.Reaches s t)
    (hquiet : ∀ r ∈ t.world.reports, ¬ r.Misread) :
    scan.env.Sound content t.ctxt t.buffer := by
  induction hreach with
  | refl => exact hsound
  | @turn t u hreach hlt hpass ih =>
    have hev := ScanEnv.csumPass_evolves (Or.inl hpass)
    have hsound' := ih fun r hr => hquiet r ((grows_of_evolves hev).reports r hr)
    have hspec := ScanEnv.csumPass_spec hreads hsound' hlt
    rw [hpass] at hspec
    rcases hspec with ⟨hdrain, -⟩ | ⟨emit, hturn, -⟩
    · obtain ⟨r, hr, hmisread⟩ := misread_of_drainFails hdrain
      exact absurd hmisread (hquiet r hr)
    · exact hturn.sound hsound' hlt

/-- A scan that ends without its results has left the file without a digest. -/
theorem unscanned_of_ends (hreads : scan.env.ReadsFrom content)
    (hsound : scan.env.Sound content s.ctxt s.buffer) {stood : List (BlockCsum δ)}
    (hun : s.world.Unscanned) (hrec : s.world.Records stood base s.hashes)
    (hbelow : ScanEnv.BlocksBelow s.ctxt.off base.blocks) {n : ℕ}
    (hloop : scan.env.csumLoop n s = some flow) (hend : scan.endOf flow = .dropped w)
    (hwrites : ¬ w.Harmed) : w.view.scanned = none := by
  have hun' : ∀ {t}, flow.state = some t → t.world.Unscanned := fun ht =>
    unscanned_of_evolves (ScanEnv.csumLoop_evolves hloop ht) hun
  cases flow with
  | next t =>
    rw [← ScanEnd.dropped.inj hend]
    exact (hun' rfl).view
  | abandon t =>
    rw [← ScanEnd.dropped.inj hend]
    exact (hun' rfl).view
  | assertFailed => cases hend
  | leave t =>
    rcases records_of_leaves hreads hsound hrec hbelow hloop with
      ⟨rows, -, hrows⟩ | ⟨-, hlost | ⟨r, hr, hharm⟩⟩
    · exact unscanned_of_dropped (hun' rfl) (Or.inl hrows) hend
    · exact @unscanned_of_dropped _ scan w t stood base (hun' rfl) (Or.inr hlost) hend
    · exact absurd ⟨r, (storeResults_grows (Or.inr hend)).reports r hr, hharm⟩ hwrites

/-- As long as no unit fails harmfully and no drain's code is taken for a count of bytes, failed
writes leave the file without a digest or with what a scan without failures stores, and every turn
stages its rows without an error and moves on by the bytes it has hashed. -/
theorem failed_writes_corrupt_nothing (scan clean : FileScan δ) (content : ℕ → UInt8)
    (resume : Option ScanCheckpoint) (w w' v v' : ScanWriter (FileHashes δ)) (base : Rows δ)
    (fuel fuel' : ℕ) (hjob : clean.toHashing = scan.toHashing) (hpread : clean.pread = scan.pread)
    (hreads : scan.env.ReadsFrom content)
    (hstart : scan.ScannedTo content (scan.env.startState resume w).progress base)
    (hunscanned : w.Unscanned) (hrec : w.Records base.blocks base .empty)
    (hrec' : v.Records base.blocks base .empty) (hclean : ¬ ScanWriter.Fails clean.io)
    (hrun : scan.csumWholeFile fuel resume w = some (.stored w') ∨
      scan.csumWholeFile fuel resume w = some (.dropped w'))
    (hrun' : clean.csumWholeFile fuel' resume v = some (.stored v'))
    (hwrites : ∀ r ∈ w'.reports, ¬ r.Harmful ∧ ¬ r.Misread) :
    (w'.view.scanned = none ∨
      w'.view.extents = v'.view.extents ∧ w'.view.blocks = v'.view.blocks ∧
        w'.view.scanned.map ScannedFile.digest = v'.view.scanned.map ScannedFile.digest) ∧
      ∀ t u, scan.env.Reaches (scan.env.startState resume w) t → t.ctxt.off < scan.filesize →
        (scan.env.csumPass t = .next u ∨ scan.env.csumPass t = .leave u) →
        ∃ eof emit, scan.env.Turn content eof t u emit ∧ scan.env.Emits t u emit := by
  have hsound := Hashing.ScannedTo.sound scan.env hstart (scan.env.startState_unread resume w)
  have hharmed : ¬ w'.Harmed := fun ⟨r, hr, hharm⟩ => (hwrites r hr).1 hharm
  constructor
  · rcases hrun with hrun | hrun
    · exact Or.inr (stored_unique hjob hpread hreads hstart hrec hrec' hrun hrun' (fun _ => hharmed)
        fun hfails => absurd hfails hclean)
    · obtain ⟨hhashes, hworld⟩ := startState_unstaged scan.env resume w
      obtain ⟨flow, hloop, hend⟩ := csumWholeFile_eq_some hrun
      rw [← hworld, ← hhashes] at hrec
      rw [← hworld] at hunscanned
      exact Or.inl (unscanned_of_ends hreads hsound hunscanned hrec hstart.blocksBelow hloop hend
        hharmed)
  · intro t u hreach hlt hpass
    obtain ⟨flow, hloop, hend⟩ : ∃ flow,
        scan.env.csumLoop fuel (scan.env.startState resume w) = some flow ∧
          (scan.endOf flow = .stored w' ∨ scan.endOf flow = .dropped w') := by
      rcases hrun with hrun | hrun
      · obtain ⟨flow, hloop, hend⟩ := csumWholeFile_eq_some hrun
        exact ⟨flow, hloop, Or.inl hend⟩
      · obtain ⟨flow, hloop, hend⟩ := csumWholeFile_eq_some hrun
        exact ⟨flow, hloop, Or.inr hend⟩
    have hgrows := grows_of_pass hloop hend hreach hlt hpass
    have hquiet : ∀ r ∈ u.world.reports, ¬ r.Misread := fun r hr =>
      (hwrites r (hgrows.reports r hr)).2
    have hev := ScanEnv.csumPass_evolves hpass
    have hsound' := sound_of_reaches hreads hsound hreach fun r hr =>
      hquiet r ((grows_of_evolves hev).reports r hr)
    exact turn_of_pass hreads hsound' hlt hpass hquiet

end FileScan

def twoBlockFile : FileToScan where
  filesize := 8192
  mtime := 0
  fiemap := ⟨[⟨0, 65536, 8192, FIEMAP_EXTENT_LAST⟩], by simp, by simp⟩

def twoBlockScan (checkpointInterval : ℕ) (io : WriterIO) : FileScan ℕ where
  options := ⟨fourKiB, true, false, false, false⟩
  file := twoBlockFile
  xxh := List.length
  pacing := ⟨true, 1, checkpointInterval, 0⟩
  pread pos want := some (slice (fun _ => 1) pos (pos + min want 4096))
  interrupted _ := false
  io := io
  rdonlySubvol := false

def failsAt (n : ℕ) : WriterIO := ⟨fun k => if k = n then ⟨13, false⟩ else .ok, fun _ => false⟩

set_option maxRecDepth 20000 in
theorem twoBlockScan_stores : ∃ v', (twoBlockScan 4096 quietIO).csumWholeFile 3 none
    (.opened .empty) = some (.stored v') := ⟨_, rfl⟩

set_option maxRecDepth 20000 in
theorem twoBlockScan_stores_of_failedBegin : ∃ w',
    (twoBlockScan 4096 (failsAt 0)).csumWholeFile 3 none (.opened .empty) = some (.stored w') ∧
      ∀ r ∈ w'.reports, ¬ r.Harmful ∧ ¬ r.Misread := ⟨_, rfl, by decide⟩

theorem twoBlockScan_readsFrom (interval : ℕ) (io : WriterIO) :
    (twoBlockScan interval io).env.ReadsFrom fun _ => 1 := by
  intro pos want data h
  obtain rfl := Option.some.inj h
  simp

/-- A checkpoint that cannot open its transaction does no harm. -/
theorem failed_writes_corrupt_nothing_twoBlockScan :
    ∃ w' v', (twoBlockScan 4096 (failsAt 0)).csumWholeFile 3 none (.opened .empty) =
        some (.stored w') ∧
      (twoBlockScan 4096 quietIO).csumWholeFile 3 none (.opened .empty) = some (.stored v') ∧
      (w'.view.scanned = none ∨
        w'.view.extents = v'.view.extents ∧ w'.view.blocks = v'.view.blocks ∧
          w'.view.scanned.map ScannedFile.digest = v'.view.scanned.map ScannedFile.digest) := by
  obtain ⟨w', hrun, hwrites⟩ := twoBlockScan_stores_of_failedBegin
  obtain ⟨v', hrun'⟩ := twoBlockScan_stores
  have hrec : (ScanWriter.opened FileHashes.empty).Records [] (∅ : Rows ℕ) .empty :=
    ⟨ScanWriter.opened_idle _, rfl, rfl, rfl, fun _ => rfl⟩
  have hunscanned : (ScanWriter.opened (FileHashes.empty : FileHashes ℕ)).Unscanned := by
    constructor <;> simp [Conn.everDurable, ScanWriter.opened, FileHashes.empty]
  have hclean : ¬ ScanWriter.Fails quietIO := by simp [ScanWriter.Fails, quietIO, Answer.ok]
  exact ⟨w', v', hrun, hrun', (FileScan.failed_writes_corrupt_nothing (twoBlockScan 4096 (failsAt 0))
    (twoBlockScan 4096 quietIO) (fun _ => 1) none _ w' _ v' ∅ 3 3 rfl rfl
    (twoBlockScan_readsFrom 4096 _) .start hunscanned hrec hrec hclean (Or.inl hrun) hrun'
    hwrites).1⟩

set_option maxRecDepth 20000 in
/-- The drain of the first batch fails and 13 is taken for the bytes that were hashed; or the insert
of the checkpoint fails when the first block's row has left the batch. Both scans store their
digest, and other rows than a scan without failures. -/
theorem twoBlockScan_corrupts :
    (∃ w' v', (twoBlockScan (2 ^ 30) (failsAt 2)).csumWholeFile 3 none (.opened .empty) =
          some (.stored w') ∧
        (twoBlockScan (2 ^ 30) quietIO).csumWholeFile 3 none (.opened .empty) =
          some (.stored v') ∧ w'.view.scanned ≠ none ∧
        w'.view.blocks.map BlockCsum.loff = [0, 4109] ∧
        v'.view.blocks.map BlockCsum.loff = [0, 4096]) ∧
      ∃ w' v', (twoBlockScan 4096 (failsAt 3)).csumWholeFile 3 none (.opened .empty) =
          some (.stored w') ∧
        (twoBlockScan 4096 quietIO).csumWholeFile 3 none (.opened .empty) = some (.stored v') ∧
        w'.view.scanned ≠ none ∧ w'.view.blocks.map BlockCsum.loff = [4096] ∧
        v'.view.blocks.map BlockCsum.loff = [0, 4096] :=
  ⟨⟨_, _, rfl, rfl, Option.some_ne_none _, rfl, rfl⟩,
    ⟨_, _, rfl, rfl, Option.some_ne_none _, rfl, rfl⟩⟩

end Oans
