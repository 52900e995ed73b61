import Oans.HashTurns

/-!
# Runs of the hash loop

`Reaches s t` says that the loop started at `s` comes to its head at `t`. The bounded loop ends in
such a state or in a turn taken from one, and enough fuel always ends it: every turn moves the
position read up to forward.
-/

namespace Oans

open Slice

namespace ScanEnv

variable {δ ω : Type*} (env : ScanEnv δ ω)

inductive Reaches (s : LoopState δ ω) : LoopState δ ω → Prop
  | refl : Reaches s s
  | turn {t u : LoopState δ ω} (head : Reaches s t) (hlt : t.ctxt.off < env.filesize)
      (hpass : env.csumPass t = .next u) : Reaches s u

inductive Ends (s : LoopState δ ω) : Flow (LoopState δ ω) → Prop
  | done {t : LoopState δ ω} (hreach : env.Reaches s t) (hge : env.filesize ≤ t.ctxt.off) :
      Ends s (.leave t)
  | pass {t : LoopState δ ω} {flow : Flow (LoopState δ ω)} (hreach : env.Reaches s t)
      (hlt : t.ctxt.off < env.filesize) (hpass : env.csumPass t = flow)
      (hlast : ∀ u, flow ≠ .next u) : Ends s flow

variable {env} {s t : LoopState δ ω} {flow : Flow (LoopState δ ω)}

theorem Reaches.head (hlt : s.ctxt.off < env.filesize) (hpass : env.csumPass s = .next t)
    {u : LoopState δ ω} (h : env.Reaches t u) : env.Reaches s u := by
  induction h with
  | refl => exact .turn .refl hlt hpass
  | turn _ hlt' hpass' ih => exact .turn ih hlt' hpass'

/-- Induction over a run: what the first state has and every turn keeps. -/
theorem Reaches.invariant {P : LoopState δ ω → Prop} (h : env.Reaches s t) (hinit : P s)
    (hturn : ∀ u v, P u → u.ctxt.off < env.filesize → env.csumPass u = .next v → P v) : P t := by
  induction h with
  | refl => exact hinit
  | turn _ hlt hpass ih => exact hturn _ _ ih hlt hpass

theorem csumLoop_ends {fuel : ℕ} (h : env.csumLoop fuel s = some flow) : env.Ends s flow := by
  induction fuel generalizing s with
  | zero => simp [csumLoop] at h
  | succ fuel ih =>
    rw [csumLoop] at h
    by_cases hlt : s.ctxt.off < env.filesize
    · rw [if_pos hlt] at h
      cases hpass : env.csumPass s with
      | next u =>
        rw [hpass] at h
        cases ih h with
        | done hreach hge => exact .done (hreach.head hlt hpass) hge
        | pass hreach hlt' hpass' hlast =>
          exact .pass (hreach.head hlt hpass) hlt' hpass' hlast
      | leave u =>
        rw [hpass] at h
        cases h
        exact .pass .refl hlt hpass (by simp)
      | abandon u =>
        rw [hpass] at h
        cases h
        exact .pass .refl hlt hpass (by simp)
      | assertFailed =>
        rw [hpass] at h
        cases h
        exact .pass .refl hlt hpass (by simp)
    · rw [if_neg hlt] at h
      cases h
      exact .done .refl (by omega)

theorem freshState_sound (env : ScanEnv δ ω) (content : ℕ → UInt8) (w : ω) :
    env.Sound content (env.freshState w).ctxt (env.freshState w).buffer where
  data := by simp [freshState]
  cap := by simp [freshState]
  below := by simp [freshState]
  inside := by simp [freshState]
  grid := by simp [freshState]
  partial_block := by simp [freshState, env.blocksize_pos]
  consumed := by simp [freshState]

section Content

variable {content : ℕ → UInt8} (hreads : env.ReadsFrom content) (hquiet : env.FlushesQuietly)

include hreads hquiet

theorem turn_of_next {u v : LoopState δ ω} (hsound : env.Sound content u.ctxt u.buffer)
    (hlt : u.ctxt.off < env.filesize) (hpass : env.csumPass u = .next v) :
    ∃ emit, env.Turn content false u v emit ∧ env.Emits u v emit := by
  have h := csumPass_spec hreads hsound hlt
  rw [hpass] at h
  exact h.resolve_left fun h => hquiet.not_drainFails u v h.1

theorem turn_of_leave {u v : LoopState δ ω} (hsound : env.Sound content u.ctxt u.buffer)
    (hlt : u.ctxt.off < env.filesize) (hpass : env.csumPass u = .leave v) :
    ∃ emit, env.Turn content true u v emit ∧ env.Emits u v emit := by
  have h := csumPass_spec hreads hsound hlt
  rw [hpass] at h
  exact h.resolve_left fun h => hquiet.not_drainFails u v h.1

theorem Reaches.sound (h : env.Reaches s t) (hsound : env.Sound content s.ctxt s.buffer) :
    env.Sound content t.ctxt t.buffer :=
  h.invariant hsound fun _ _ hu hlt hpass => by
    obtain ⟨emit, hturn, -⟩ := turn_of_next hreads hquiet hu hlt hpass
    exact hturn.sound hu hlt

/-- The loop ends within as many turns as bytes are left to read, and no assertion fails. -/
theorem csumLoop_terminates {fuel : ℕ} (hsound : env.Sound content s.ctxt s.buffer)
    (hfuel : env.filesize - (s.ctxt.off + s.buffer.data.length) + 1 < fuel) :
    ∃ flow, env.csumLoop fuel s = some flow ∧ flow ≠ .assertFailed := by
  induction fuel generalizing s with
  | zero => omega
  | succ fuel ih =>
    rw [csumLoop]
    by_cases hlt : s.ctxt.off < env.filesize
    · rw [if_pos hlt]
      have hspec := csumPass_spec hreads hsound hlt
      cases hpass : env.csumPass s with
      | next u =>
        obtain ⟨emit, hturn, -⟩ := turn_of_next hreads hquiet hsound hlt hpass
        have hprog := hturn.progress hsound hlt
        have hin := hsound.inside hlt
        exact ih (hturn.sound hsound hlt) (by omega)
      | leave u => exact ⟨_, rfl, by simp⟩
      | abandon u => exact ⟨_, rfl, by simp⟩
      | assertFailed =>
        rw [hpass] at hspec
        exact hspec.elim
    · rw [if_neg hlt]
      exact ⟨_, rfl, by simp⟩

end Content

/-- From a state reached on the way, the loop comes to the same end. -/
theorem Reaches.csumLoop {fuel : ℕ} (h : env.Reaches s t)
    (hrun : env.csumLoop fuel s = some flow) : ∃ fuel', env.csumLoop fuel' t = some flow := by
  induction h with
  | refl => exact ⟨fuel, hrun⟩
  | turn _ hlt hpass ih =>
    obtain ⟨fuel', h⟩ := ih
    cases fuel' with
    | zero => simp [ScanEnv.csumLoop] at h
    | succ n =>
      rw [ScanEnv.csumLoop, if_pos hlt, hpass] at h
      exact ⟨n, h⟩

/-- Nothing stops the scan: reads inside the file return something, no flush fails, and neither a
signal, a lost batch nor the test hook ends it early. -/
structure Undisturbed (env : ScanEnv δ ω) : Prop where
  reads : env.ReadsSomething
  flushes : ∀ hs w, (env.hashfile.flushBlockHashes hs w).1 = 0
  running : ∀ n, env.interrupted n = false
  kept : ∀ w, env.hashfile.batchLost w = false
  no_stop : env.pacing.checkpointStopAfter = 0

theorem Undisturbed.quiet (h : env.Undisturbed) : env.FlushesQuietly := fun hs w =>
  (h.flushes hs w).le

theorem Undisturbed.addBlockHash (h : env.Undisturbed) (row : BlockCsum δ) (hs : Hashes δ)
    (w : ω) : (env.addBlockHash hs w row).1 = 0 := by
  have hflush := h.flushes hs w
  unfold ScanEnv.addBlockHash
  by_cases hfull : env.pacing.blockBatchMax ≤ hs.blocks.length
  · simp [hfull, hflush]
  · simp [hfull]

theorem Undisturbed.addBlockHashes (h : env.Undisturbed) (rows : List (BlockCsum δ))
    (hs : Hashes δ) (w : ω) : (env.addBlockHashes rows hs w).1 = 0 := by
  induction rows generalizing hs w with
  | nil => simp [ScanEnv.addBlockHashes]
  | cons row rows ih =>
    rw [ScanEnv.addBlockHashes]
    simpa [h.addBlockHash row hs w] using ih _ _

theorem Undisturbed.endPass (h : env.Undisturbed) (s : LoopState δ ω) :
    ∃ t, env.endPass s = .next t := by
  unfold ScanEnv.endPass
  simp only [h.running, h.kept, Bool.false_eq_true, or_self, if_false, h.no_stop, ne_eq,
    not_true_eq_false, false_and]
  split_ifs <;> exact ⟨_, rfl⟩

theorem Undisturbed.hashBuffer (h : env.Undisturbed) (eof : Bool) (s : LoopState δ ω) :
    (∃ t, env.hashBuffer eof s = .next t) ∨ ∃ t, env.hashBuffer eof s = .leave t := by
  obtain ⟨cursor, hblocks⟩ := env.processBlocks_eq s.ctxt s.buffer s.hashes s.world
  unfold ScanEnv.hashBuffer
  rw [hblocks]
  have hnn : ¬ ((env.processed s.buffer : ℕ) : ℤ) < 0 := by omega
  simp only [h.addBlockHashes, ne_eq, not_true_eq_false, if_false, hnn, Int.toNat_natCast,
    processBlock, h.addBlockHash]
  cases eof with
  | true =>
    simp only [if_true]
    split_ifs <;> exact Or.inr ⟨_, rfl⟩
  | false => exact Or.inl (h.endPass _)

theorem Undisturbed.csumPass {content : ℕ → UInt8} (h : env.Undisturbed)
    (hreads : env.ReadsFrom content) (hsound : env.Sound content s.ctxt s.buffer)
    (hlt : s.ctxt.off < env.filesize) :
    (∃ t, env.csumPass s = .next t) ∨ ∃ t, env.csumPass s = .leave t := by
  have hfst := env.fiemap.holeRunLength_fst env.blocksize env.filesize s.ctxt.off
    s.ctxt.extentCursor
  have hpos := env.fiemap.holeRun_pos_iff env.blocksize_pos hlt
  unfold ScanEnv.csumPass
  rcases hrun : env.fiemap.holeRunLength env.blocksize env.filesize s.ctxt.off
    s.ctxt.extentCursor with ⟨holeLength, cursor⟩
  rw [hrun] at hfst
  simp only at hfst ⊢
  by_cases hzero : holeLength = 0
  · have hhole : ¬ env.fiemap.HoleBlock env.blocksize s.ctxt.off := by
      rw [← hpos]
      omega
    have hsound' : env.Sound content { s.ctxt with extentCursor := cursor } s.buffer :=
      hsound.of_ctxt rfl rfl
    have hfill := fillBuffer_spec hreads hsound' hlt hhole
    rw [if_neg (not_not_intro hzero)]
    generalize env.fillBuffer { s.ctxt with extentCursor := cursor } s.buffer = filled at hfill
    cases hfill with
    | @readError cap hno hcap hread =>
      obtain ⟨data, hdata, -⟩ := h.reads _ _ (hsound'.want_pos hlt hcap)
        (hsound'.want_inside hcap)
      rw [hread] at hdata
      exact absurd hdata (by simp)
    | faked => exact h.hashBuffer _ _
    | read => exact h.hashBuffer _ _
  · rw [if_pos hzero]
    exact Or.inl ⟨_, rfl⟩

theorem Undisturbed.leaves {content : ℕ → UInt8} (h : env.Undisturbed)
    (hreads : env.ReadsFrom content) (hsound : env.Sound content s.ctxt s.buffer) :
    ∃ fuel r, env.csumLoop fuel s = some (.leave r) := by
  obtain ⟨flow, hrun, -⟩ := csumLoop_terminates hreads h.quiet hsound (Nat.lt_succ_self _)
  cases csumLoop_ends hrun with
  | done => exact ⟨_, _, hrun⟩
  | pass hreach hlt hpass hlast =>
    have hu := hreach.sound hreads h.quiet hsound
    rcases h.csumPass hreads hu hlt with ⟨t, ht⟩ | ⟨t, ht⟩
    · exact absurd (hpass.symm.trans ht) (hlast t)
    · rw [hpass] at ht
      subst ht
      exact ⟨_, _, hrun⟩

/-- A last turn whose read returned something ends exactly at the file size. -/
theorem Turn.off_eq {content : ℕ → UInt8} {emit : Rows δ}
    (h : env.Turn content true s t emit)
    (hreads : env.ReadsSomething) (hsound : env.Sound content s.ctxt s.buffer)
    (hlt : s.ctxt.off < env.filesize) : t.ctxt.off = env.filesize := by
  cases h with
  | faked hdata hfakes heof hctxt hbuffer =>
    have hge : env.filesize ≤ s.ctxt.off + env.fakeLen := by simpa using heof.symm
    have hfit := hfakes.2
    rw [hctxt]
    simp only
    omega
  | @read _ _ _ cap stop hdata hno hcap hlo hhi hread heof hctxt hbuffer =>
    have hinside := hsound.want_inside hcap
    obtain ⟨data, hsome, hne⟩ := hreads _ _ (hsound.want_pos hlt hcap) hinside
    rw [hread] at hsome
    have hmore : stop ≠ s.ctxt.off + s.buffer.data.length := by
      rintro rfl
      cases hsome
      simp at hne
    have hge : env.filesize ≤ stop := by
      have : env.filesize ≤ stop ∨ stop = s.ctxt.off + s.buffer.data.length := by
        simpa using heof.symm
      exact this.resolve_right hmore
    rw [hctxt]
    simp only [Hashing.consumes, true_or, if_true]
    omega

end ScanEnv

def fullReads (content : ℕ → UInt8) (pos want : ℕ) : Option (List UInt8) :=
  some (slice content pos (pos + want))

def sink : Hashfile Unit Unit where
  flushBlockHashes hs _ :=
    (0, { hs with blocks := [], blocksFlushed := hs.blocksFlushed + hs.blocks.length }, ())
  storeCheckpoint hs _ _ := (0, { hs with blocks := [], extents := [] }, ())
  batchLost _ := false

def plainScan (b : Blocksize) (file : FileToScan) (content : ℕ → UInt8) : ScanEnv Unit Unit where
  options := ⟨b, false, false, false, false⟩
  file := file
  pacing := ⟨true, 64 * 1024, 2 ^ 30, 0⟩
  pread := fullReads content
  interrupted _ := false
  xxh _ := ()
  hashfile := sink

theorem plainScan_readsFrom (b : Blocksize) (file : FileToScan) (content : ℕ → UInt8) :
    (plainScan b file content).ReadsFrom content := by
  intro pos want data h
  obtain rfl : slice content pos (pos + want) = data := by simpa [plainScan, fullReads] using h
  simp

theorem plainScan_undisturbed (b : Blocksize) (file : FileToScan) (content : ℕ → UInt8) :
    (plainScan b file content).Undisturbed where
  reads pos want hwant _ := by
    refine ⟨_, rfl, ?_⟩
    rw [← List.length_pos_iff, length_slice]
    omega
  flushes _ _ := rfl
  running _ := rfl
  kept _ := rfl
  no_stop := rfl

end Oans
