import Oans.CsumLoop

/-!
# What one turn of the hash loop can do

A turn skips a hole run, consumes a faked buffer, or consumes bytes it has read; `Turn` lists the
three with everything they do to the scan context and the buffer, and the rows they make. What
becomes of the rows is left to the hashfile: they are staged one by one, and at most one
checkpoint follows.
-/

namespace Oans

open Slice

/-- Equal up to the extent cursor, the staged rows and the bookkeeping. -/
def LoopState.Agrees {δ ω : Type*} (t s : LoopState δ ω) : Prop :=
  t.ctxt = { s.ctxt with extentCursor := t.ctxt.extentCursor } ∧ t.buffer = s.buffer

theorem LoopState.Agrees.refl {δ ω : Type*} (s : LoopState δ ω) : s.Agrees s := ⟨rfl, rfl⟩

namespace Hashing

variable {δ : Type*} (job : Hashing δ)

def extentsAfter (off : ℕ) (data : List UInt8) (n : ℕ) (csum : Option (List UInt8)) :
    Option (List UInt8) × List (Option (ExtentCsum δ)) :=
  if job.options.onlyWholeFiles then (csum, []) else job.extentRows (off + n) n off data csum

def consumes (eof : Bool) (off stop : ℕ) : ℕ :=
  if eof = true ∨ job.options.doBlockHash = false then stop - off
  else (stop - off) / job.blocksize * job.blocksize

theorem consumes_le (eof : Bool) (off stop : ℕ) : job.consumes eof off stop ≤ stop - off := by
  unfold consumes
  by_cases h : eof = true ∨ job.options.doBlockHash = false
  · rw [if_pos h]
  · rw [if_neg h]
    exact Nat.div_mul_le_self _ _

variable {job}

theorem Sound.of_ctxt {content : ℕ → UInt8} {c c' : ScanCtxt} {b : Buffer}
    (h : job.Sound content c b) (hoff : c'.off = c.off) (hcap : c'.readCap = c.readCap) :
    job.Sound content c' b := by
  refine ⟨?_, ?_, ?_, ?_, ?_, h.partial_block, h.consumed⟩
  · rw [hoff]
    exact h.data
  · rw [hoff, hcap]
    exact h.cap
  · rw [hoff, hcap]
    exact h.below
  · rw [hoff]
    exact h.inside
  · rw [hoff]
    exact h.grid

end Hashing

namespace ScanEnv

variable {δ ω : Type*} (env : ScanEnv δ ω)

/-- A turn from `s` to `t` that makes the rows `emit`; `eof` says that it is the last one. -/
inductive Turn (content : ℕ → UInt8) :
    Bool → LoopState δ ω → LoopState δ ω → Rows δ → Prop
  | hole {s t : LoopState δ ω} (hhole : env.fiemap.HoleBlock env.blocksize s.ctxt.off)
      (hctxt : t.ctxt = { s.ctxt with
        extentCursor := t.ctxt.extentCursor
        fileCsum := s.ctxt.fileCsum ++
          [.hole s.ctxt.off (env.fiemap.holeRun env.blocksize env.filesize s.ctxt.off)]
        off := s.ctxt.off + env.fiemap.holeRun env.blocksize env.filesize s.ctxt.off })
      (hbuffer : t.buffer = s.buffer) : Turn content false s t ∅
  | faked {eof : Bool} {s t : LoopState δ ω}
      (hdata : ¬ env.fiemap.HoleBlock env.blocksize s.ctxt.off)
      (hfakes : env.Fakes s.ctxt.off)
      (heof : eof = decide (env.filesize ≤ s.ctxt.off + env.fakeLen))
      (hctxt : t.ctxt = { s.ctxt with
        extentCursor := t.ctxt.extentCursor
        fileCsum := s.ctxt.fileCsum ++ [.bytes (List.replicate env.fakeLen 0)]
        extentCsum := (env.extentsAfter s.ctxt.off (List.replicate env.fakeLen 0) env.fakeLen
          s.ctxt.extentCsum).1
        off := s.ctxt.off + env.fakeLen })
      (hbuffer : t.buffer.data = []) :
      Turn content eof s t ⟨[], (env.extentsAfter s.ctxt.off (List.replicate env.fakeLen 0)
        env.fakeLen s.ctxt.extentCsum).2.reduceOption⟩
  | read {eof : Bool} {s t : LoopState δ ω} {cap stop : ℕ}
      (hdata : ¬ env.fiemap.HoleBlock env.blocksize s.ctxt.off)
      (hno : ¬ env.Fakes s.ctxt.off) (hcap : env.IsReadCap s.ctxt.off cap)
      (hlo : s.ctxt.off + s.buffer.data.length ≤ stop)
      (hhi : stop ≤ s.ctxt.off + s.buffer.data.length +
        wantAt s.ctxt.off s.buffer.data.length cap)
      (hread : env.pread (s.ctxt.off + s.buffer.data.length)
        (wantAt s.ctxt.off s.buffer.data.length cap) =
          some (slice content (s.ctxt.off + s.buffer.data.length) stop))
      (heof : eof = decide (env.filesize ≤ stop ∨ stop = s.ctxt.off + s.buffer.data.length))
      (hctxt : t.ctxt = { s.ctxt with
        readCap := cap
        extentCursor := t.ctxt.extentCursor
        fileCsum := s.ctxt.fileCsum ++ [.bytes (slice content s.ctxt.off
          (s.ctxt.off + env.consumes eof s.ctxt.off stop))]
        extentCsum := (env.extentsAfter s.ctxt.off (slice content s.ctxt.off stop)
          (env.consumes eof s.ctxt.off stop) s.ctxt.extentCsum).1
        off := s.ctxt.off + env.consumes eof s.ctxt.off stop })
      (hbuffer : t.buffer.data =
        slice content (s.ctxt.off + env.consumes eof s.ctxt.off stop) stop) :
      Turn content eof s t
        ⟨env.turnRows eof s.ctxt.off ⟨slice content s.ctxt.off stop, false⟩,
          (env.extentsAfter s.ctxt.off (slice content s.ctxt.off stop)
            (env.consumes eof s.ctxt.off stop) s.ctxt.extentCsum).2.reduceOption⟩

/-- The rows made in a turn are staged without error, and at most one checkpoint follows. -/
def Emits (s t : LoopState δ ω) (emit : Rows δ) : Prop :=
  ∃ hs w exts, env.addBlockHashes emit.blocks s.hashes s.world = (0, hs, w) ∧
    exts.reduceOption = emit.extents ∧
    ((t.hashes = { hs with extents := hs.extents ++ exts } ∧ t.world = w) ∨
      ∃ cp, (t.hashes, t.world) =
        (env.hashfile.storeCheckpoint { hs with extents := hs.extents ++ exts } cp w).2)

inductive Evolves (w : ω) : ω → Prop
  | refl : Evolves w w
  | flush {v : ω} (h : Evolves w v) (hs : Hashes δ) :
      Evolves w (env.hashfile.flushBlockHashes hs v).2.2
  | checkpoint {v : ω} (h : Evolves w v) (hs : Hashes δ) (cp : ScanCheckpoint) :
      Evolves w (env.hashfile.storeCheckpoint hs cp v).2.2

/-- A drain failed with a positive code in this turn, which went on all the same. -/
def DrainFails (s t : LoopState δ ω) : Prop :=
  ∃ rows, 0 < (env.addBlockHashes rows s.hashes s.world).1 ∧
    env.Evolves (env.addBlockHashes rows s.hashes s.world).2.2 t.world

def Refuses (content : ℕ → UInt8) (s : LoopState δ ω) : Prop :=
  ∃ eof t emit, env.Turn content eof s t emit ∧
    (env.addBlockHashes emit.blocks s.hashes s.world).1 ≠ 0

/-- No flush of a full batch returns a positive code. -/
def FlushesQuietly : Prop := ∀ hs w, (env.hashfile.flushBlockHashes hs w).1 ≤ 0

variable {env}

theorem writeCheckpoint_spec (env : ScanEnv δ ω) (s : LoopState δ ω) :
    (env.writeCheckpoint s).2.Agrees s ∧
      (((env.writeCheckpoint s).2.hashes = s.hashes ∧
          (env.writeCheckpoint s).2.world = s.world) ∨
        ∃ cp, ((env.writeCheckpoint s).2.hashes, (env.writeCheckpoint s).2.world) =
          (env.hashfile.storeCheckpoint s.hashes cp s.world).2) := by
  unfold writeCheckpoint
  rcases env.checkpointOf s.ctxt s.ctxt.extentCursor with ⟨_ | cp, cursor⟩
  · exact ⟨⟨rfl, rfl⟩, Or.inl ⟨rfl, rfl⟩⟩
  · exact ⟨⟨rfl, rfl⟩, Or.inr ⟨cp, rfl⟩⟩

theorem endPass_spec {s t : LoopState δ ω} (h : env.endPass s = .next t) :
    t.Agrees s ∧ ((t.hashes = s.hashes ∧ t.world = s.world) ∨
      ∃ cp, (t.hashes, t.world) = (env.hashfile.storeCheckpoint s.hashes cp s.world).2) := by
  have hcp := env.writeCheckpoint_spec { s with passes := s.passes + 1 }
  unfold endPass at h
  simp only at h
  split_ifs at h
  · cases h
    exact ⟨⟨rfl, rfl⟩, Or.inl ⟨rfl, rfl⟩⟩
  · cases h
    exact hcp
  · cases h
    exact hcp

theorem endPass_evolves {s t : LoopState δ ω} (h : env.endPass s = .next t) :
    env.Evolves s.world t.world := by
  obtain ⟨-, ⟨-, hworld⟩ | ⟨cp, hstore⟩⟩ := endPass_spec h
  · rw [hworld]
    exact .refl
  · rw [show t.world = (env.hashfile.storeCheckpoint s.hashes cp s.world).2.2 by rw [← hstore]]
    exact .checkpoint .refl _ _

theorem writeCheckpoint_evolves (s : LoopState δ ω) :
    env.Evolves s.world (env.writeCheckpoint s).2.world := by
  obtain ⟨-, ⟨-, hworld⟩ | ⟨cp, hstored⟩⟩ := env.writeCheckpoint_spec s
  · rw [hworld]
    exact .refl
  · rw [show (env.writeCheckpoint s).2.world =
      (env.hashfile.storeCheckpoint s.hashes cp s.world).2.2 from (Prod.ext_iff.mp hstored).2]
    exact .checkpoint .refl _ cp

theorem endPass_evolves_of_abandon {s t : LoopState δ ω} (h : env.endPass s = .abandon t) :
    env.Evolves s.world t.world := by
  have hcp := @writeCheckpoint_evolves _ _ env { s with passes := s.passes + 1 }
  unfold endPass at h
  dsimp only at h
  split_ifs at h
  · exact Flow.abandon.inj h ▸ hcp
  · exact Flow.abandon.inj h ▸ .refl
  · exact Flow.abandon.inj h ▸ hcp

theorem endPass_ne_leave (s t : LoopState δ ω) : env.endPass s ≠ .leave t := by
  intro h
  unfold endPass at h
  simp only at h
  split_ifs at h

theorem endPass_ne_assertFailed (s : LoopState δ ω) : env.endPass s ≠ .assertFailed := by
  intro h
  unfold endPass at h
  simp only at h
  split_ifs at h

/-- `ackBytes` moves on by `n` bytes, feeds them, and leaves the rest in the buffer. -/
theorem ackBytes_ctxt (s : LoopState δ ω) (n : ℕ) : (env.ackBytes s n).ctxt =
    { s.ctxt with
      extentCursor := (env.ackBytes s n).ctxt.extentCursor
      fileCsum := s.ctxt.fileCsum ++ [.bytes (s.buffer.data.take n)]
      extentCsum := (env.extentsAfter s.ctxt.off s.buffer.data n s.ctxt.extentCsum).1
      off := s.ctxt.off + n } := by
  unfold ackBytes Hashing.extentsAfter
  cases honly : env.options.onlyWholeFiles with
  | true => simp
  | false =>
    obtain ⟨cursor, heq⟩ := env.processExtentsLoop_eq (s.ctxt.off + n) n s.ctxt.off
      s.buffer.data
      { s.ctxt with fileCsum := s.ctxt.fileCsum ++ [.bytes (s.buffer.data.take n)] } s.hashes
    simp [processExtents, heq]

theorem ackBytes_buffer (s : LoopState δ ω) (n : ℕ) :
    (env.ackBytes s n).buffer = { s.buffer with data := s.buffer.data.drop n } := by
  unfold ackBytes
  cases env.options.onlyWholeFiles <;> rfl

theorem ackBytes_world (s : LoopState δ ω) (n : ℕ) : (env.ackBytes s n).world = s.world := by
  unfold ackBytes
  cases env.options.onlyWholeFiles <;> rfl

/-- Inside an extent the checkpoint holds the digest of its head. -/
theorem writeCheckpoint_world {s : LoopState δ ω} {csum : List UInt8} {e : FiemapExtent}
    (hcsum : s.ctxt.extentCsum = some csum) (hnext : env.fiemap.nextExtent s.ctxt.off = some e) :
    (env.writeCheckpoint s).2.world = (env.hashfile.storeCheckpoint s.hashes
      ⟨s.ctxt.off, env.filesize, env.file.mtime, s.ctxt.fileCsum,
        some (e.feLogical, e.feLength, csum), env.options.oldHoleDigests⟩ s.world).2.2 := by
  have hget := env.fiemap.getExtent_fst s.ctxt.off s.ctxt.extentCursor
  rw [hnext] at hget
  unfold writeCheckpoint checkpointOf
  rw [hcsum]
  rcases hcursor : env.fiemap.getExtent s.ctxt.off s.ctxt.extentCursor with ⟨found, cursor⟩
  rw [hcursor] at hget
  obtain rfl := hget
  rfl

/-- A signal leaves a checkpoint where the scan has moved on since the last one. -/
theorem endPass_of_interrupted {s : LoopState δ ω} (hsignal : env.interrupted (s.passes + 1) = true)
    (hkept : env.hashfile.batchLost s.world = false) (henabled : s.checkpointsEnabled = true)
    (hlast : s.lastCheckpoint < s.ctxt.off) :
    env.endPass s = .abandon (env.writeCheckpoint { s with passes := s.passes + 1 }).2 := by
  simp [endPass, hsignal, hkept, henabled, hlast]

theorem ackBytes_checkpoints (s : LoopState δ ω) (n : ℕ) :
    (env.ackBytes s n).checkpointsEnabled = s.checkpointsEnabled ∧
      (env.ackBytes s n).lastCheckpoint = s.lastCheckpoint :=
  ⟨rfl, rfl⟩

theorem ackBytes_hashes (s : LoopState δ ω) (n : ℕ) : (env.ackBytes s n).hashes =
    { s.hashes with extents := s.hashes.extents ++
      (env.extentsAfter s.ctxt.off s.buffer.data n s.ctxt.extentCsum).2 } := by
  unfold ackBytes Hashing.extentsAfter
  cases honly : env.options.onlyWholeFiles with
  | true => simp
  | false =>
    obtain ⟨cursor, heq⟩ := env.processExtentsLoop_eq (s.ctxt.off + n) n s.ctxt.off
      s.buffer.data
      { s.ctxt with fileCsum := s.ctxt.fileCsum ++ [.bytes (s.buffer.data.take n)] } s.hashes
    simp [processExtents, heq]

theorem addBlockHash_fst_le (hquiet : env.FlushesQuietly) (row : BlockCsum δ) (hs : Hashes δ)
    (w : ω) : (env.addBlockHash hs w row).1 ≤ 0 := by
  have hflush := hquiet hs w
  unfold addBlockHash
  by_cases hfull : env.pacing.blockBatchMax ≤ hs.blocks.length
  · simp only [hfull, if_true]
    by_cases hret : (env.hashfile.flushBlockHashes hs w).1 = 0
    · simp [hret]
    · simpa [hret] using hflush
  · simp [hfull]

theorem addBlockHashes_fst_le (hquiet : env.FlushesQuietly) (rows : List (BlockCsum δ))
    (hs : Hashes δ) (w : ω) : (env.addBlockHashes rows hs w).1 ≤ 0 := by
  induction rows generalizing hs w with
  | nil => simp [addBlockHashes]
  | cons row rows ih =>
    have hadd := addBlockHash_fst_le hquiet row hs w
    rw [addBlockHashes]
    by_cases hret : (env.addBlockHash hs w row).1 = 0
    · simpa [hret] using ih _ _
    · simpa [hret] using hadd

theorem addBlockHash_evolves (row : BlockCsum δ) (hs : Hashes δ) (w : ω) :
    env.Evolves w (env.addBlockHash hs w row).2.2 := by
  unfold addBlockHash
  by_cases hfull : env.pacing.blockBatchMax ≤ hs.blocks.length
  · simp only [hfull, if_true]
    by_cases hret : (env.hashfile.flushBlockHashes hs w).1 = 0
    · simpa [hret] using Evolves.flush .refl hs
    · simpa [hret] using Evolves.flush .refl hs
  · simpa [hfull] using Evolves.refl

theorem addBlockHashes_append (rows rows' : List (BlockCsum δ)) (hs : Hashes δ) (w : ω) :
    env.addBlockHashes (rows ++ rows') hs w =
      if (env.addBlockHashes rows hs w).1 ≠ 0 then env.addBlockHashes rows hs w
      else env.addBlockHashes rows' (env.addBlockHashes rows hs w).2.1
        (env.addBlockHashes rows hs w).2.2 := by
  induction rows generalizing hs w with
  | nil => simp [addBlockHashes]
  | cons row rows ih =>
    rw [List.cons_append, addBlockHashes, addBlockHashes]
    by_cases hret : (env.addBlockHash hs w row).1 = 0
    · simp only [hret, ne_eq, not_true_eq_false, if_false]
      exact ih _ _
    · simp [hret]

theorem Evolves.trans {u v w : ω} (h : env.Evolves u v) (h' : env.Evolves v w) :
    env.Evolves u w := by
  induction h' with
  | refl => exact h
  | flush _ hs ih => exact .flush ih hs
  | checkpoint _ hs cp ih => exact .checkpoint ih hs cp

/-- The part of a turn after the buffer is filled: the buffer's rows are refused, or they are staged
and the bytes consumed that `processed` says, all of the buffer at the end of the file. -/
theorem hashBuffer_spec (env : ScanEnv δ ω) (eof : Bool) (s : LoopState δ ω) :
    (∃ t, env.hashBuffer eof s = .abandon t ∧
        (env.addBlockHashes (env.turnRows eof s.ctxt.off s.buffer) s.hashes s.world).1 ≠ 0 ∧
          env.Evolves (env.addBlockHashes (env.turnRows eof s.ctxt.off s.buffer) s.hashes
            s.world).2.2 t.world) ∨
      (∃ t, (env.hashBuffer eof s = .next t ∨ env.hashBuffer eof s = .leave t) ∧
        env.DrainFails s t ∧
          (env.addBlockHashes (env.turnRows eof s.ctxt.off s.buffer) s.hashes s.world).1 ≠ 0 ∧
            env.Evolves (env.addBlockHashes (env.turnRows eof s.ctxt.off s.buffer) s.hashes
              s.world).2.2 t.world) ∨
      ∃ s' : LoopState δ ω, s'.Agrees s ∧
        env.addBlockHashes (env.turnRows eof s.ctxt.off s.buffer) s.hashes s.world =
          (0, s'.hashes, s'.world) ∧
        if eof = true then env.hashBuffer eof s = .leave (env.ackBytes s' s.buffer.data.length)
        else env.hashBuffer eof s = env.endPass (env.ackBytes s' (env.processed s.buffer)) := by
  obtain ⟨cursor, hblocks⟩ := env.processBlocks_eq s.ctxt s.buffer s.hashes s.world
  unfold hashBuffer Hashing.turnRows
  rw [hblocks, addBlockHashes_append]
  have hfails : ∀ t : LoopState δ ω,
      0 < (env.addBlockHashes (env.bufferRows s.ctxt.off s.buffer) s.hashes s.world).1 →
      env.Evolves (env.addBlockHashes (env.bufferRows s.ctxt.off s.buffer) s.hashes s.world).2.2
        t.world → env.DrainFails s t := fun t hpos hev => ⟨_, hpos, hev⟩
  generalize env.addBlockHashes (env.bufferRows s.ctxt.off s.buffer) s.hashes s.world = staged
    at hfails
  obtain ⟨ret, hs, w⟩ := staged
  simp only at hfails ⊢
  by_cases hret : ret = 0
  · subst hret
    have hnn : ¬ ((env.processed s.buffer : ℕ) : ℤ) < 0 := by omega
    simp only [ne_eq, not_true_eq_false, if_false, hnn, Int.toNat_natCast]
    cases eof with
    | true =>
      simp only [if_true, true_and]
      by_cases hrest : env.processed s.buffer < s.buffer.data.length
      · simp only [hrest, if_true, addBlockHashes]
        have hrow : env.addBlockHash hs w ⟨s.ctxt.off + env.processed s.buffer,
          env.xxh (s.buffer.data.drop (env.processed s.buffer))⟩ =
          env.processBlock (s.buffer.data.drop (env.processed s.buffer))
            (s.ctxt.off + env.processed s.buffer) hs w := rfl
        rw [hrow]
        rcases env.processBlock (s.buffer.data.drop (env.processed s.buffer))
          (s.ctxt.off + env.processed s.buffer) hs w with ⟨ret', hs', w'⟩
        by_cases hlast : ret' = 0
        · subst hlast
          refine Or.inr (Or.inr ⟨_, ?_, ?_, rfl⟩)
          · exact ⟨rfl, rfl⟩
          · simp
        · simp only [hlast, ne_eq, not_false_eq_true, if_true]
          exact Or.inl ⟨_, rfl, trivial, .refl⟩
      · have hall : env.processed s.buffer = s.buffer.data.length := by
          have := env.processed_le s.buffer
          omega
        rw [if_neg hrest, if_neg hrest, hall]
        refine Or.inr (Or.inr ⟨_, ?_, ?_, rfl⟩)
        · exact ⟨rfl, rfl⟩
        · simp [addBlockHashes]
    | false =>
      simp only [Bool.false_eq_true, if_false, false_and]
      refine Or.inr (Or.inr ⟨_, ?_, ?_, rfl⟩)
      · exact ⟨rfl, rfl⟩
      · simp [addBlockHashes]
  · by_cases hneg : ret < 0
    · simp only [ne_eq, hret, not_false_eq_true, if_true, hneg]
      exact Or.inl ⟨_, rfl, trivial, .refl⟩
    · -- the code is taken for a count of bytes
      have hpos : 0 < ret := by omega
      simp only [ne_eq, hret, not_false_eq_true, if_true, hneg, if_false, true_and]
      cases eof with
      | true =>
        simp only [if_true]
        by_cases hrest : ret.toNat < s.buffer.data.length
        · simp only [hrest, if_true]
          have hev := env.addBlockHash_evolves ⟨s.ctxt.off + ret.toNat,
            env.xxh (s.buffer.data.drop ret.toNat)⟩ hs w
          rw [show env.addBlockHash hs w ⟨s.ctxt.off + ret.toNat,
            env.xxh (s.buffer.data.drop ret.toNat)⟩ = env.processBlock
              (s.buffer.data.drop ret.toNat) (s.ctxt.off + ret.toNat) hs w from rfl] at hev
          generalize env.processBlock (s.buffer.data.drop ret.toNat) (s.ctxt.off + ret.toNat) hs w =
            last at hev ⊢
          obtain ⟨ret', hs', w'⟩ := last
          by_cases hzero : ret' = 0
          · subst hzero
            refine Or.inr (Or.inl ⟨_, Or.inr rfl, hfails _ hpos ?_, ?_⟩) <;>
              rwa [ackBytes_world]
          · simp only [hzero, not_false_eq_true, if_true]
            exact Or.inl ⟨_, rfl, hev⟩
        · rw [if_neg hrest]
          refine Or.inr (Or.inl ⟨_, Or.inr rfl, hfails _ hpos ?_, ?_⟩) <;>
            (rw [ackBytes_world]; exact .refl)
      | false =>
        simp only [Bool.false_eq_true, if_false]
        generalize hacked : env.ackBytes _ ret.toNat = acked
        have hworld : acked.world = w := by
          rw [← hacked, ackBytes_world]
        rw [← hworld] at hfails ⊢
        cases hend : env.endPass acked with
        | next t =>
          have hev := endPass_evolves hend
          exact Or.inr (Or.inl ⟨t, Or.inl rfl, hfails _ hpos hev, hev⟩)
        | leave t => exact absurd hend (endPass_ne_leave _ _)
        | abandon t => exact Or.inl ⟨t, rfl, endPass_evolves_of_abandon hend⟩
        | assertFailed => exact absurd hend (endPass_ne_assertFailed _)

/-- A turn whose buffer has been filled, in terms of the filled buffer. -/
theorem hashBuffer_flow {content : ℕ → UInt8} {eof : Bool} {s f : LoopState δ ω} (emit : Rows δ)
    (hhashes : f.hashes = s.hashes) (hworld : f.world = s.world)
    (hblocks : env.turnRows eof f.ctxt.off f.buffer = emit.blocks)
    (hextents : (env.extentsAfter f.ctxt.off f.buffer.data (if eof then f.buffer.data.length
        else env.processed f.buffer) f.ctxt.extentCsum).2.reduceOption = emit.extents)
    (hturn : ∀ t : LoopState δ ω,
      t.ctxt = { (env.ackBytes f (if eof then f.buffer.data.length
        else env.processed f.buffer)).ctxt with extentCursor := t.ctxt.extentCursor } →
      t.buffer.data = f.buffer.data.drop (if eof then f.buffer.data.length
        else env.processed f.buffer) → env.Turn content eof s t emit) :
    match env.hashBuffer eof f with
    | .next t => env.DrainFails s t ∧ env.Refuses content s ∨
        env.Turn content false s t emit ∧ env.Emits s t emit
    | .leave t => env.DrainFails s t ∧ env.Refuses content s ∨
        env.Turn content true s t emit ∧ env.Emits s t emit
    | .abandon _ => True
    | .assertFailed => False := by
  have hack : ∀ (f' : LoopState δ ω) (n : ℕ), f'.Agrees f →
      (env.ackBytes f' n).ctxt = { (env.ackBytes f n).ctxt with
        extentCursor := (env.ackBytes f' n).ctxt.extentCursor } ∧
      (env.ackBytes f' n).buffer = (env.ackBytes f n).buffer ∧
      (env.ackBytes f' n).hashes = { f'.hashes with extents := f'.hashes.extents ++
        (env.extentsAfter f.ctxt.off f.buffer.data n f.ctxt.extentCsum).2 } := by
    intro f' n hagree
    obtain ⟨hctxt, hbuffer⟩ := hagree
    rw [ackBytes_ctxt f' n, ackBytes_ctxt f n, ackBytes_buffer, ackBytes_buffer, ackBytes_hashes,
      hbuffer, hctxt]
    exact ⟨rfl, rfl, rfl⟩
  have hdrain : ∀ t, env.DrainFails f t → env.DrainFails s t := by
    rintro t ⟨rows, hpos, hev⟩
    rw [hhashes, hworld] at hpos hev
    exact ⟨rows, hpos, hev⟩
  have hrefuses : (env.addBlockHashes (env.turnRows eof f.ctxt.off f.buffer) f.hashes
      f.world).1 ≠ 0 → env.Refuses content s := by
    rw [hblocks, hhashes, hworld]
    refine fun hret => ⟨eof, _, emit, hturn _ rfl ?_, hret⟩
    rw [ackBytes_buffer]
  rcases env.hashBuffer_spec eof f with ⟨t, ht, -⟩ | ⟨t, ht | ht, hfails, hret, -⟩ |
    ⟨f', hagree, hadds, hflow⟩
  · rw [ht]
    trivial
  · rw [ht]
    exact Or.inl ⟨hdrain t hfails, hrefuses hret⟩
  · rw [ht]
    exact Or.inl ⟨hdrain t hfails, hrefuses hret⟩
  · rw [hblocks, hhashes, hworld] at hadds
    cases eof with
    | true =>
      simp only [if_true] at hflow hturn hextents
      rw [hflow]
      obtain ⟨hctxt, hbuffer, hhs⟩ := hack f' f.buffer.data.length hagree
      refine Or.inr ⟨hturn _ hctxt ?_, _, _, _, hadds, hextents, Or.inl ⟨hhs, ?_⟩⟩
      · rw [hbuffer, ackBytes_buffer]
      · exact ackBytes_world _ _
    | false =>
      simp only [Bool.false_eq_true, if_false] at hflow hturn hextents
      rw [hflow]
      obtain ⟨hctxt, hbuffer, hhs⟩ := hack f' (env.processed f.buffer) hagree
      cases hend : env.endPass (env.ackBytes f' (env.processed f.buffer)) with
      | next t =>
        obtain ⟨⟨htc, htb⟩, hstore⟩ := endPass_spec hend
        rw [hhs, ackBytes_world] at hstore
        refine Or.inr ⟨hturn _ ?_ ?_, _, _, _, hadds, hextents, hstore⟩
        · rw [htc, hctxt]
        · rw [htb, hbuffer, ackBytes_buffer]
      | leave t => exact absurd hend (endPass_ne_leave _ _)
      | abandon t => trivial
      | assertFailed => exact absurd hend (endPass_ne_assertFailed _)

structure Fills (env : ScanEnv δ ω) (content : ℕ → UInt8) (s f : LoopState δ ω) (eof : Bool)
    (emit : Rows δ) : Prop where
  hashes : f.hashes = s.hashes
  world : f.world = s.world
  off : f.ctxt.off = s.ctxt.off
  blocks : env.turnRows eof f.ctxt.off f.buffer = emit.blocks
  extents : (env.extentsAfter f.ctxt.off f.buffer.data (if eof then f.buffer.data.length
    else env.processed f.buffer) f.ctxt.extentCsum).2.reduceOption = emit.extents
  turn : ∀ t : LoopState δ ω,
    t.ctxt = { (env.ackBytes f (if eof then f.buffer.data.length
      else env.processed f.buffer)).ctxt with extentCursor := t.ctxt.extentCursor } →
    t.buffer.data = f.buffer.data.drop (if eof then f.buffer.data.length
      else env.processed f.buffer) → env.Turn content eof s t emit

/-- A turn skips a hole run, fails to read, or hashes the buffer it has filled. -/
theorem csumPass_fills {content : ℕ → UInt8} (hreads : env.ReadsFrom content) {s : LoopState δ ω}
    (hsound : env.Sound content s.ctxt s.buffer) (hlt : s.ctxt.off < env.filesize) :
    (∃ t, env.csumPass s = .next t ∧ env.Turn content false s t ∅ ∧ t.hashes = s.hashes ∧
        t.world = s.world) ∨
      (∃ t, env.csumPass s = .abandon t ∧ t.hashes = s.hashes ∧ t.world = s.world ∧
        t.ctxt.off = s.ctxt.off) ∨
      ∃ eof f emit, env.csumPass s = env.hashBuffer eof f ∧ env.Fills content s f eof emit := by
  have hfst := env.fiemap.holeRunLength_fst env.blocksize env.filesize s.ctxt.off
    s.ctxt.extentCursor
  have hpos := env.fiemap.holeRun_pos_iff env.blocksize_pos hlt
  unfold csumPass
  rcases hrun : env.fiemap.holeRunLength env.blocksize env.filesize s.ctxt.off
    s.ctxt.extentCursor with ⟨holeLength, cursor⟩
  rw [hrun] at hfst
  simp only at hfst ⊢
  subst hfst
  by_cases hhole : env.fiemap.HoleBlock env.blocksize s.ctxt.off
  · have hne : env.fiemap.holeRun env.blocksize env.filesize s.ctxt.off ≠ 0 := by
      have := hpos.mpr hhole
      omega
    rw [if_pos hne]
    exact Or.inl ⟨_, rfl, .hole hhole rfl rfl, rfl, rfl⟩
  · have hzero : ¬ env.fiemap.holeRun env.blocksize env.filesize s.ctxt.off ≠ 0 := by
      have := mt hpos.mp hhole
      omega
    rw [if_neg hzero]
    have hsound' : env.Sound content { s.ctxt with extentCursor := cursor } s.buffer :=
      hsound.of_ctxt rfl rfl
    have hfill := fillBuffer_spec hreads hsound' hlt hhole
    generalize env.fillBuffer { s.ctxt with extentCursor := cursor } s.buffer = filled at hfill
    cases hfill with
    | readError => exact Or.inr (Or.inl ⟨_, rfl, rfl, rfl, rfl⟩)
    | faked cursor hfakes =>
      have hn : (if decide (env.filesize ≤ s.ctxt.off + env.fakeLen) = true
          then (List.replicate env.fakeLen (0 : UInt8)).length
          else env.processed ⟨List.replicate env.fakeLen 0, true⟩) = env.fakeLen := by
        simp [Hashing.processed]
      refine Or.inr (Or.inr ⟨_, _, ⟨[], (env.extentsAfter s.ctxt.off
        (List.replicate env.fakeLen 0) env.fakeLen s.ctxt.extentCsum).2.reduceOption⟩, rfl,
        rfl, rfl, rfl, ?_, ?_, fun t hctxt hbuffer => ?_⟩)
      · simp [Hashing.turnRows, Hashing.bufferRows, Hashing.processed]
      · simp only
        rw [hn]
      · simp only at hctxt hbuffer
        rw [hn] at hctxt hbuffer
        rw [ackBytes_ctxt] at hctxt
        refine .faked hhole hfakes rfl ?_ ?_
        · rw [hctxt]
          simp
        · rw [hbuffer]
          simp
    | read cursor cap stop hno hcap hlo hhi hread =>
      generalize heof : decide (env.filesize ≤ stop ∨ stop = s.ctxt.off + s.buffer.data.length) =
        eof
      have hn : (if eof = true then (slice content s.ctxt.off stop).length
          else env.processed ⟨slice content s.ctxt.off stop, false⟩) =
          env.consumes eof s.ctxt.off stop := by
        cases eof <;> simp [Hashing.processed, Hashing.consumes]
      refine Or.inr (Or.inr ⟨_, _,
        ⟨env.turnRows eof s.ctxt.off ⟨slice content s.ctxt.off stop, false⟩,
          (env.extentsAfter s.ctxt.off (slice content s.ctxt.off stop)
            (env.consumes eof s.ctxt.off stop) s.ctxt.extentCsum).2.reduceOption⟩, rfl,
        rfl, rfl, rfl, rfl, ?_, fun t hctxt hbuffer => ?_⟩)
      · simp only
        rw [hn]
      · have hle := env.consumes_le eof s.ctxt.off stop
        simp only at hctxt hbuffer hlo
        rw [hn] at hctxt hbuffer
        rw [ackBytes_ctxt] at hctxt
        refine .read hhole hno hcap hlo hhi hread heof.symm ?_ ?_
        · rw [hctxt]
          simp only
          rw [slice_take content _
            (show s.ctxt.off + env.consumes eof s.ctxt.off stop ≤ stop by omega)]
        · rw [hbuffer]
          exact slice_drop content _
            (show s.ctxt.off + env.consumes eof s.ctxt.off stop ≤ stop by omega)

theorem csumPass_spec {content : ℕ → UInt8} (hreads : env.ReadsFrom content) {s : LoopState δ ω}
    (hsound : env.Sound content s.ctxt s.buffer) (hlt : s.ctxt.off < env.filesize) :
    match env.csumPass s with
    | .next t => env.DrainFails s t ∧ env.Refuses content s ∨
        ∃ emit, env.Turn content false s t emit ∧ env.Emits s t emit
    | .leave t => env.DrainFails s t ∧ env.Refuses content s ∨
        ∃ emit, env.Turn content true s t emit ∧ env.Emits s t emit
    | .abandon _ => True
    | .assertFailed => False := by
  rcases csumPass_fills hreads hsound hlt with ⟨t, hpass, hturn, hhashes, hworld⟩ |
    ⟨t, hpass, -⟩ | ⟨eof, f, emit, hpass, hfills⟩
  · rw [hpass]
    refine Or.inr ⟨∅, hturn, s.hashes, s.world, [], rfl, rfl, Or.inl ⟨?_, hworld⟩⟩
    rw [hhashes, List.append_nil]
  · rw [hpass]
    trivial
  · have hflow := hashBuffer_flow emit hfills.hashes hfills.world hfills.blocks hfills.extents
      hfills.turn
    rw [hpass]
    generalize env.hashBuffer eof f = flow at hflow
    cases flow with
    | next t => exact hflow.imp id fun h => ⟨emit, h⟩
    | leave t => exact hflow.imp id fun h => ⟨emit, h⟩
    | abandon t => exact hflow
    | assertFailed => exact hflow

theorem FlushesQuietly.not_drainFails (h : env.FlushesQuietly) (s t : LoopState δ ω) :
    ¬ env.DrainFails s t := by
  rintro ⟨rows, hpos, -⟩
  have := addBlockHashes_fst_le h rows s.hashes s.world
  omega

theorem Turn.sound {content : ℕ → UInt8} {s t : LoopState δ ω} {emit : Rows δ}
    (h : env.Turn content false s t emit)
    (hsound : env.Sound content s.ctxt s.buffer) (hlt : s.ctxt.off < env.filesize) :
    env.Sound content t.ctxt t.buffer := by
  cases h with
  | hole hhole hctxt hbuffer =>
    have hempty : s.buffer.data = [] := by
      by_contra hne
      exact hsound.not_holeBlock hlt hne hhole
    have hrun := (env.fiemap.holeRun_pos_iff env.blocksize_pos hlt).mpr hhole
    rw [hctxt, hbuffer]
    refine ⟨by simp [hempty], ?_, fun hne => absurd hempty hne, by simp [hempty], ?_,
      fun _ => by simp [hempty, env.blocksize_pos], fun _ => hempty⟩
    · simp only
      intro hcap
      exact (hsound.cap (by omega)).mono (by omega) hcap
    · simp only
      intro _ hin
      cases hnext : env.fiemap.nextExtent s.ctxt.off with
      | none =>
        simp only [Fiemap.holeRun, hnext] at hin
        omega
      | some e => exact Fiemap.dvd_add_holeRun hnext hrun
  | faked hdata hfakes heof hctxt hbuffer =>
    have hfake := env.blocksize_le_fakeLen
    rw [hctxt]
    refine ⟨by simp [hbuffer], ?_, fun hne => absurd hbuffer hne, by simp [hbuffer], ?_,
      fun _ => by simp [hbuffer, env.blocksize_pos], fun _ => hbuffer⟩
    · simp only
      intro hcap
      exact (hsound.cap (by omega)).mono (by omega) hcap
    · simp only
      exact fun hblock _ => Nat.dvd_add (hsound.grid hblock hlt) env.dvd_fakeLen
  | @read _ _ _ cap stop hdata hno hcap hlo hhi hread heof hctxt hbuffer =>
    have hle := env.consumes_le false s.ctxt.off stop
    have hcaple := hsound.le_cap hcap
    have hstop : stop ≤ cap := by
      unfold wantAt at hhi
      omega
    have hin : stop < env.filesize := by
      have := heof.symm
      simp only [decide_eq_false_iff_not, not_or] at this
      omega
    rw [hctxt]
    refine ⟨?_, ?_, ?_, ?_, ?_, ?_, ?_⟩
    · simp only [hbuffer, length_slice]
      congr 1
      omega
    · simp only
      exact fun h => hcap.mono (by omega) h
    · simp only [hbuffer, length_slice]
      intro _
      omega
    · simp only [hbuffer, length_slice]
      omega
    · simp only
      intro hblock _
      refine Nat.dvd_add (hsound.grid hblock hlt) ?_
      simp only [Hashing.consumes, hblock, Bool.false_eq_true, Bool.true_eq_false, or_self, if_false]
      exact Nat.dvd_mul_left _ _
    · intro hblock
      simp only [hbuffer, length_slice, Hashing.consumes, hblock, Bool.false_eq_true, Bool.true_eq_false,
        or_self, if_false]
      have hmod := Nat.div_add_mod' (stop - s.ctxt.off) env.blocksize
      have := Nat.mod_lt (stop - s.ctxt.off) env.blocksize_pos
      omega
    · intro hblock
      rw [hbuffer]
      refine slice_eq_nil content ?_
      simp only [Hashing.consumes, hblock, or_true, if_true]
      omega

/-- Every turn but the last moves the position read up to forward. -/
theorem Turn.progress {content : ℕ → UInt8} {s t : LoopState δ ω} {emit : Rows δ}
    (h : env.Turn content false s t emit)
    (hsound : env.Sound content s.ctxt s.buffer) (hlt : s.ctxt.off < env.filesize) :
    s.ctxt.off + s.buffer.data.length < t.ctxt.off + t.buffer.data.length := by
  cases h with
  | hole hhole hctxt hbuffer =>
    have hrun := (env.fiemap.holeRun_pos_iff env.blocksize_pos hlt).mpr hhole
    rw [hctxt, hbuffer]
    simp only
    omega
  | faked hdata hfakes heof hctxt hbuffer =>
    have hfake := env.blocksize_le_fakeLen
    have hpos := env.blocksize_pos
    rw [hctxt, hbuffer]
    simp only [List.length_nil]
    cases hblock : env.options.doBlockHash with
    | true =>
      have := hsound.partial_block hblock
      omega
    | false =>
      rw [hsound.consumed hblock]
      simp only [List.length_nil]
      omega
  | @read _ _ _ cap stop hdata hno hcap hlo hhi hread heof hctxt hbuffer =>
    have hle := env.consumes_le false s.ctxt.off stop
    have hne := heof.symm
    simp only [decide_eq_false_iff_not, not_or] at hne
    rw [hctxt, hbuffer]
    simp only [length_slice]
    omega

end ScanEnv

end Oans
