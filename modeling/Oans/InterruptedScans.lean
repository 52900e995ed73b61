import Oans.ResumedScans

/-!
# What an interrupted scan leaves behind

A scan that is killed leaves whichever rows were durable at that moment, and its last checkpoint
with them. Whatever that is, the checkpoint describes a scan that has come as far, the extent rows
are those of this scan, and block rows that it does not know of start behind it, where
`resume_scan()` takes them away.
-/

namespace Oans

open Savepoint Slice

variable {δ : Type*}

namespace ScanEnv

variable {ω : Type*} {env : ScanEnv δ ω} {content : ℕ → UInt8} {s t u : LoopState δ ω}
  {emit : Rows δ}

/-- What a turn from `s` does to the hashfile until the scan is at `u`, however the turn ends. -/
inductive Writes (env : ScanEnv δ ω) (content : ℕ → UInt8) (s : LoopState δ ω) :
    LoopState δ ω → Prop
  | nothing {u : LoopState δ ω} (hoff : s.ctxt.off ≤ u.ctxt.off) (hhashes : u.hashes = s.hashes)
      (hworld : u.world = s.world) : Writes env content s u
  | refused {eof : Bool} {t u : LoopState δ ω} {emit : Rows δ}
      (hturn : env.Turn content eof s t emit)
      (hret : (env.addBlockHashes emit.blocks s.hashes s.world).1 ≠ 0)
      (hev : env.Evolves (env.addBlockHashes emit.blocks s.hashes s.world).2.2 u.world) :
      Writes env content s u
  | staged {eof : Bool} {t u : LoopState δ ω} {emit : Rows δ}
      (hturn : env.Turn content eof s t emit) (hstages : env.Stages s t emit)
      (hoff : u.ctxt.off = t.ctxt.off) (hhashes : u.hashes = t.hashes)
      (hworld : u.world = t.world) : Writes env content s u
  | checkpoint {t u : LoopState δ ω} {emit : Rows δ} {cp : ScanCheckpoint}
      (hturn : env.Turn content false s t emit) (hstages : env.Stages s t emit)
      (hcp : env.checkpointAt t.progress = some cp) (hoff : u.ctxt.off = t.ctxt.off)
      (hstored : (u.hashes, u.world) = (env.hashfile.storeCheckpoint t.hashes cp t.world).2) :
      Writes env content s u

theorem writeCheckpoint_at (s : LoopState δ ω) :
    (env.writeCheckpoint s).2.ctxt.off = s.ctxt.off ∧
      ((env.writeCheckpoint s).2.hashes = s.hashes ∧ (env.writeCheckpoint s).2.world = s.world ∨
        ∃ cp, env.checkpointAt s.progress = some cp ∧
          ((env.writeCheckpoint s).2.hashes, (env.writeCheckpoint s).2.world) =
            (env.hashfile.storeCheckpoint s.hashes cp s.world).2) := by
  have hat := env.checkpointOf_fst s.ctxt s.ctxt.extentCursor
  unfold writeCheckpoint
  generalize env.checkpointOf s.ctxt s.ctxt.extentCursor = made at hat
  rcases made with ⟨_ | cp, cursor⟩
  · exact ⟨rfl, Or.inl ⟨rfl, rfl⟩⟩
  · exact ⟨rfl, Or.inr ⟨cp, hat.symm, rfl⟩⟩

/-- A turn that is not the last ends with no checkpoint or with one of where it has come. -/
theorem endPass_writes (h : (env.endPass s).state = some u) : u.ctxt.off = s.ctxt.off ∧
    (u.hashes = s.hashes ∧ u.world = s.world ∨ ∃ cp, env.checkpointAt s.progress = some cp ∧
      (u.hashes, u.world) = (env.hashfile.storeCheckpoint s.hashes cp s.world).2) := by
  have hcp := @writeCheckpoint_at _ _ env { s with passes := s.passes + 1 }
  unfold endPass at h
  dsimp only at h
  split_ifs at h <;> rw [← Option.some.inj h]
  · exact hcp
  · exact ⟨rfl, Or.inl ⟨rfl, rfl⟩⟩
  · exact ⟨rfl, Or.inl ⟨rfl, rfl⟩⟩
  · exact hcp
  · exact hcp
  · exact hcp

/-- What a turn does to the hashfile from the filled buffer on. -/
theorem Fills.writes {eof : Bool} {f : LoopState δ ω} (h : env.Fills content s f eof emit)
    (hu : (env.hashBuffer eof f).state = some u) : env.Writes content s u := by
  have hadds : env.addBlockHashes (env.turnRows eof f.ctxt.off f.buffer) f.hashes f.world =
      env.addBlockHashes emit.blocks s.hashes s.world := by
    rw [h.blocks, h.hashes, h.world]
  have hspec := env.hashBuffer_spec eof f
  rw [hadds] at hspec
  generalize hn : (if eof = true then f.buffer.data.length else env.processed f.buffer) = n
  have hack : ∀ f' : LoopState δ ω, f'.Agrees f → env.Turn content eof s (env.ackBytes f' n) emit ∧
      (env.ackBytes f' n).hashes = { f'.hashes with extents := f'.hashes.extents ++
        (env.extentsAfter f.ctxt.off f.buffer.data n f.ctxt.extentCsum).2 } := by
    rintro f' ⟨hctxt, hbuffer⟩
    have hc : (env.ackBytes f' n).ctxt = { (env.ackBytes f n).ctxt with
        extentCursor := (env.ackBytes f' n).ctxt.extentCursor } := by
      rw [ackBytes_ctxt f' n, ackBytes_ctxt f n, hbuffer, hctxt]
    have hb : (env.ackBytes f' n).buffer.data = f.buffer.data.drop n := by
      rw [ackBytes_buffer, hbuffer]
    rw [ackBytes_hashes, hbuffer, hctxt]
    exact ⟨h.turn _ (hn.symm ▸ hc) (hn.symm ▸ hb), rfl⟩
  rcases hspec with ⟨v, hv, hret, hev⟩ | ⟨v, hv, -, hret, hev⟩ | ⟨f', hagree, hstaged, hflow⟩
  · rw [hv] at hu
    obtain rfl := Option.some.inj hu
    exact .refused (h.turn _ rfl (by rw [ackBytes_buffer])) hret hev
  · have huv : v = u := by
      rcases hv with hv | hv <;> rw [hv] at hu <;> exact Option.some.inj hu
    exact .refused (h.turn _ rfl (by rw [ackBytes_buffer])) hret (huv ▸ hev)
  · obtain ⟨hturn, hhashes⟩ := hack f' hagree
    have hstages : env.Stages s (env.ackBytes f' n) emit :=
      ⟨f'.hashes, _, by rw [hstaged, ackBytes_world], hn ▸ h.extents, hhashes⟩
    cases eof with
    | true =>
      rw [if_pos rfl] at hflow hn
      rw [hflow, hn] at hu
      obtain rfl := Option.some.inj hu
      exact .staged hturn hstages rfl rfl rfl
    | false =>
      rw [if_neg Bool.false_ne_true] at hflow hn
      rw [hflow, hn] at hu
      obtain ⟨hoff, ⟨hhs, hw⟩ | ⟨cp, hcp, hstored⟩⟩ := endPass_writes hu
      · exact .staged hturn hstages hoff hhs hw
      · exact .checkpoint hturn hstages hcp hoff hstored

theorem csumPass_writes (hreads : env.ReadsFrom content)
    (hsound : env.Sound content s.ctxt s.buffer) (hlt : s.ctxt.off < env.filesize)
    (h : (env.csumPass s).state = some u) : env.Writes content s u := by
  rcases csumPass_fills hreads hsound hlt with ⟨t, ht, hturn, hhashes, hworld⟩ |
    ⟨t, ht, hhashes, hworld, hoff⟩ | ⟨eof, f, emit, ht, hfills⟩
  · rw [ht] at h
    obtain rfl := Option.some.inj h
    exact .nothing hturn.off_mono hhashes hworld
  · rw [ht] at h
    obtain rfl := Option.some.inj h
    exact .nothing hoff.ge hhashes hworld
  · rw [ht] at h
    exact hfills.writes h

end ScanEnv

def FileHashes.removeHashesFrom (loff : ℕ) (f : FileHashes δ) : FileHashes δ :=
  { f with
    blocks := f.blocks.filter fun row => decide (row.loff < loff)
    extents := f.extents.filter fun row => decide (row.loff < loff) }

namespace Hashing

variable {job : Hashing δ} {content : ℕ → UInt8} {f : FileHashes δ} {off : ℕ}

/-- `resume_scan()`: what it leaves of the rows, and the checkpoint if it is usable. -/
def resumeScan (job : Hashing δ) (f : FileHashes δ) : FileHashes δ × Option ScanCheckpoint :=
  match f.checkpoint with
  | none => (f, none)
  | some cp =>
    if job.resumeUsable cp then (f.removeHashesFrom cp.loff, some cp)
    else ({ f with checkpoint := none }, none)

/-- What the scan starts with: `store_file_row()` drops the rows of a file without a usable
checkpoint, `decline_resume()` those of one whose checkpoint is not adopted. -/
def prepare (job : Hashing δ) (f : FileHashes δ) : FileHashes δ :=
  match job.resumeScan f with
  | (_, none) => .empty
  | (f, some cp) => if job.adoptResume cp then f else .empty

/-- A scan can carry on from the checkpoint: the rows are those of one that has come as far, and
block rows that start behind it. -/
structure Resumable (job : Hashing δ) (content : ℕ → UInt8) (f : FileHashes δ) : Prop where
  unscanned : f.scanned = none
  base : ∀ cp, f.checkpoint = some cp → ∃ base, job.ScannedTo content cp.progress base ∧
    job.Passes content cp.progress base ∧ f.extents = base.extents ∧
      ∃ more, f.blocks = base.blocks ++ more ∧ ∀ row ∈ more, cp.loff ≤ row.loff

theorem Resumable.of_none (hscanned : f.scanned = none) (hcp : f.checkpoint = none) :
    job.Resumable content f :=
  ⟨hscanned, fun _ h => by rw [hcp] at h; cases h⟩

theorem Resumable.appendBlocks (h : job.Resumable content f) {new : List (BlockCsum δ)}
    (hnew : ∀ cp, f.checkpoint = some cp → ∀ row ∈ new, cp.loff ≤ row.loff) :
    job.Resumable content { f with blocks := f.blocks ++ new } where
  unscanned := h.unscanned
  base cp hcp := by
    obtain ⟨base, hscanned, hpasses, hextents, more, hblocks, hbehind⟩ := h.base cp hcp
    refine ⟨base, hscanned, hpasses, hextents, more ++ new, ?_, fun row hrow => ?_⟩
    · rw [← List.append_assoc, ← hblocks]
    · rcases List.mem_append.mp hrow with hrow | hrow
      · exact hbehind row hrow
      · exact hnew cp hcp row hrow

/-- Taking away what starts behind the checkpoint leaves the rows of the scan it describes. -/
theorem Resumable.removeHashesFrom (h : job.Resumable content f) {cp : ScanCheckpoint}
    (hcp : f.checkpoint = some cp) : ∃ base, job.ScannedTo content cp.progress base ∧
      job.Passes content cp.progress base ∧
        f.removeHashesFrom cp.loff = ⟨base.blocks, base.extents, some cp, none⟩ := by
  obtain ⟨base, hscanned, hpasses, hextents, more, hblocks, hbehind⟩ := h.base cp hcp
  have hbelow := hscanned.blocksBelow.below
  have hbelow' := hscanned.extentsBelow
  refine ⟨base, hscanned, hpasses, ?_⟩
  have hkept : f.blocks.filter (fun row => decide (row.loff < cp.loff)) = base.blocks := by
    rw [hblocks, List.filter_append, List.filter_eq_self.mpr, List.filter_eq_nil_iff.mpr,
      List.append_nil]
    · exact fun row hrow => by simpa using hbehind row hrow
    · exact fun row hrow => decide_eq_true (hbelow row hrow)
  have hkept' : f.extents.filter (fun row => decide (row.loff < cp.loff)) = base.extents := by
    rw [hextents, List.filter_eq_self]
    exact fun row hrow => decide_eq_true (hbelow' row hrow)
  rw [FileHashes.removeHashesFrom, hkept, hkept', hcp, h.unscanned]

theorem Resumable.resumeScan (h : job.Resumable content f) :
    job.Resumable content (job.resumeScan f).1 := by
  unfold Hashing.resumeScan
  split
  · exact h
  · rename_i cp hcp
    split_ifs
    · obtain ⟨base, hscanned, hpasses, hrows⟩ := h.removeHashesFrom hcp
      rw [hrows]
      refine ⟨rfl, fun cp' hcp' => ?_⟩
      obtain rfl := Option.some.inj hcp'
      exact ⟨base, hscanned, hpasses, rfl, [], (List.append_nil _).symm,
        fun _ h => absurd h List.not_mem_nil⟩
    · exact .of_none h.unscanned rfl

theorem Resumable.prepare (h : job.Resumable content f) :
    job.Resumable content (job.prepare f) := by
  have hresumed := h.resumeScan
  unfold Hashing.prepare
  generalize job.resumeScan f = ran at hresumed
  rcases ran with ⟨f', _ | cp⟩
  · exact .of_none rfl rfl
  · dsimp only
    split_ifs
    · exact hresumed
    · exact .of_none rfl rfl

/-- Where the loop starts, all rows that are stored are those of a scan that has come as far. -/
theorem Resumable.start {ω : Type*} {env : ScanEnv δ ω} (h : env.Resumable content f) (w : ω) :
    ∃ base, env.ScannedTo content (env.startState f.checkpoint w).progress base ∧
      env.Passes content (env.startState f.checkpoint w).progress base ∧
        (env.prepare f).blocks = base.blocks ∧ (env.prepare f).extents = base.extents ∧
          ∀ cp, (env.prepare f).checkpoint = some cp →
            cp.loff ≤ (env.startState f.checkpoint w).ctxt.off := by
  have hzero : env.Passes content .zero (∅ : Rows δ) := ⟨[], .refl, rfl⟩
  unfold Hashing.prepare Hashing.resumeScan ScanEnv.startState
  cases hcp : f.checkpoint with
  | none => exact ⟨∅, .start, hzero, rfl, rfl, nofun⟩
  | some cp =>
    dsimp only
    cases husable : env.resumeUsable cp with
    | false => exact ⟨∅, .start, hzero, rfl, rfl, nofun⟩
    | true =>
      rw [if_pos rfl]
      dsimp only
      cases hadopt : env.adoptResume cp with
      | false => exact ⟨∅, .start, hzero, rfl, rfl, nofun⟩
      | true =>
        obtain ⟨base, hscanned, hpasses, hrows⟩ := h.removeHashesFrom hcp
        rw [if_pos rfl, hrows]
        refine ⟨base, hscanned, hpasses, rfl, rfl, fun cp' hcp' => ?_⟩
        obtain rfl := Option.some.inj hcp'
        exact le_rfl

end Hashing

namespace FileScan

open ScanWriter

variable {scan : FileScan δ} {content : ℕ → UInt8} {job : Hashing δ} {io : WriterIO} {off : ℕ}
  {w v : ScanWriter (FileHashes δ)} {hs : Hashes δ} {stood : List (BlockCsum δ)} {rows : Rows δ}
  {s u : LoopState δ (ScanWriter (FileHashes δ))}

/-- Whatever is durable can be carried on from, and so can what the writer sees; the rows that are
staged and those still to come start behind its checkpoint. -/
structure Safe (job : Hashing δ) (content : ℕ → UInt8) (off : ℕ) (w : ScanWriter (FileHashes δ))
    (hs : Hashes δ) : Prop where
  durable : ∀ g ∈ w.conn.everDurable, job.Resumable content g
  view : job.Resumable content w.view
  behind : ∀ cp, w.view.checkpoint = some cp →
    cp.loff ≤ off ∧ ∀ row ∈ hs.blocks, cp.loff ≤ row.loff

def Spoilt (job : Hashing δ) (content : ℕ → UInt8) (w : ScanWriter (FileHashes δ)) : Prop :=
  w.Harmed ∨ w.batchLost = true ∧ ∀ g ∈ w.conn.everDurable, job.Resumable content g

theorem Spoilt.of_doomed (hdoom : Doomed w)
    (hdurable : ∀ g ∈ w.conn.everDurable, job.Resumable content g) : Spoilt job content w :=
  hdoom.symm.imp_right fun hlost => ⟨hlost, hdurable⟩

theorem everDurable_of_lost (hlost : w.batchLost = true) (h : scan.env.Evolves w v) :
    v.batchLost = true ∧ v.conn.everDurable = w.conn.everDurable := by
  induction h with
  | refl => exact ⟨hlost, rfl⟩
  | @flush v _ hs ih =>
    have hbegin : v.writeBegin scan.io = (-1, v) := by rw [writeBegin, if_pos ih.1]
    change (v.flushBlockHashes scan.io hs).2.2.batchLost = true ∧ (v.flushBlockHashes scan.io
      hs).2.2.conn.everDurable = _
    unfold ScanWriter.flushBlockHashes
    rw [hbegin]
    split_ifs
    · exact ih
    · exact ih
  | @checkpoint v _ hs cp ih =>
    have hbegin : v.writeBegin scan.io = (-1, v) := by rw [writeBegin, if_pos ih.1]
    change (v.storeCheckpoint scan.io hs cp).2.2.batchLost = true ∧ (v.storeCheckpoint scan.io
      hs cp).2.2.conn.everDurable = _
    unfold ScanWriter.storeCheckpoint
    rw [hbegin]
    exact ih

theorem Spoilt.evolves (h : Spoilt job content w) (hev : scan.env.Evolves w v) :
    Spoilt job content v := by
  rcases h with ⟨r, hr, hharm⟩ | ⟨hlost, hdurable⟩
  · exact Or.inl ⟨r, (grows_of_evolves hev).reports r hr, hharm⟩
  · obtain ⟨hlost', hsame⟩ := everDurable_of_lost hlost hev
    exact Or.inr ⟨hlost', hsame ▸ hdurable⟩

theorem Safe.flushBlockHashes (h : Safe job content off w hs) (hidle : w.Idle)
    (hnodup : ((w.view.blocks ++ hs.blocks).map BlockCsum.loff).Nodup) :
    Safe job content off (w.flushBlockHashes io hs).2.2 (w.flushBlockHashes io hs).2.1 ∨
      (w.flushBlockHashes io hs).1 ≠ 0 ∧ Fails io ∧
        Spoilt job content (w.flushBlockHashes io hs).2.2 := by
  obtain ⟨hdurable, hended⟩ := flushBlockHashes_lands io hidle hs
  have hfull : job.Resumable content (w.flushed hs) :=
    h.view.appendBlocks fun cp hcp => (h.behind cp hcp).2
  have hall : ∀ g ∈ (w.flushBlockHashes io hs).2.2.conn.everDurable, job.Resumable content g :=
    fun g hg => (hdurable g hg).elim (h.durable g) fun hg => hg ▸ hfull
  rcases hended with ⟨-, -, hview, hnil, -⟩ | ⟨hret, hwhy, hdoom⟩
  · refine Or.inl ⟨hall, hview ▸ hfull, fun cp hcp => ?_⟩
    rw [hview] at hcp
    rw [hnil]
    exact ⟨(h.behind cp hcp).1, fun _ h => absurd h List.not_mem_nil⟩
  · exact Or.inr ⟨hret, hwhy.resolve_right (not_not_intro hnodup), .of_doomed hdoom hall⟩

theorem Safe.addBlockHash (h : Safe scan.toHashing content off w hs)
    (hrec : w.Records stood rows hs) (hnodup : (rows.blocks.map BlockCsum.loff).Nodup)
    {row : BlockCsum δ} (hrow : off ≤ row.loff) :
    Safe scan.toHashing content off (scan.env.addBlockHash hs w row).2.2
        (scan.env.addBlockHash hs w row).2.1 ∨
      (scan.env.addBlockHash hs w row).1 ≠ 0 ∧ Fails scan.io ∧
        Spoilt scan.toHashing content (scan.env.addBlockHash hs w row).2.2 := by
  have hstage : ∀ {hs' : Hashes δ} {w' : ScanWriter (FileHashes δ)},
      Safe scan.toHashing content off w' hs' → Safe scan.toHashing content off w'
        { hs' with blocks := hs'.blocks ++ [row] } := fun h' =>
    ⟨h'.durable, h'.view, fun cp hcp => ⟨(h'.behind cp hcp).1, fun r hr => by
      rcases List.mem_append.mp hr with hr | hr
      · exact (h'.behind cp hcp).2 r hr
      · rw [List.mem_singleton.mp hr]
        exact (h'.behind cp hcp).1.trans hrow⟩⟩
  unfold ScanEnv.addBlockHash
  by_cases hfull : scan.env.pacing.blockBatchMax ≤ hs.blocks.length
  · rw [if_pos hfull]
    have hflush := @Safe.flushBlockHashes _ _ _ scan.io _ _ _ h hrec.idle (hrec.blocks ▸ hnodup)
    generalize hran : scan.env.hashfile.flushBlockHashes hs w = ran
    rw [show ScanWriter.flushBlockHashes scan.io hs w = ran from hran] at hflush
    obtain ⟨ret, hs', w'⟩ := ran
    dsimp only at hflush ⊢
    split_ifs with hret
    · rcases hflush with hsafe | hspoilt
      · exact Or.inl hsafe
      · exact Or.inr hspoilt
    · exact Or.inl (hstage (hflush.resolve_right fun h => hret h.1))
  · rw [if_neg hfull]
    exact Or.inl (hstage h)

theorem Safe.addBlockHashes (new : List (BlockCsum δ)) (h : Safe scan.toHashing content off w hs)
    (hrec : w.Records stood rows hs)
    (hnodup : ((rows.blocks ++ new).map BlockCsum.loff).Nodup)
    (hnew : ∀ row ∈ new, off ≤ row.loff) :
    Safe scan.toHashing content off (scan.env.addBlockHashes new hs w).2.2
        (scan.env.addBlockHashes new hs w).2.1 ∨
      (scan.env.addBlockHashes new hs w).1 ≠ 0 ∧ Fails scan.io ∧
        Spoilt scan.toHashing content (scan.env.addBlockHashes new hs w).2.2 := by
  induction new generalizing hs w rows with
  | nil => exact Or.inl h
  | cons row new ih =>
    have hnodup' : (rows.blocks.map BlockCsum.loff).Nodup := by
      rw [List.map_append] at hnodup
      exact hnodup.of_append_left
    have hsafe := @Safe.addBlockHash _ scan _ _ _ _ _ _ h hrec hnodup' row
      (hnew row List.mem_cons_self)
    have hrec' := @addBlockHash_spec _ scan _ _ _ row _ hrec
    rw [ScanEnv.addBlockHashes]
    generalize scan.env.addBlockHash hs w row = staged at hsafe hrec' ⊢
    obtain ⟨ret, hs', w'⟩ := staged
    dsimp only at hsafe hrec' ⊢
    split_ifs with hret
    · exact hsafe
    · obtain ⟨-, hrec', -⟩ := hrec'.resolve_right fun h => hret h.1
      refine ih (hsafe.resolve_right fun h => hret h.1) hrec' ?_ fun row' hrow' =>
        hnew row' (List.mem_cons_of_mem _ hrow')
      rwa [List.append_assoc, List.singleton_append]

/-- A checkpoint of a scan whose rows are all recorded can be carried on from. -/
theorem Safe.storeCheckpoint (h : Safe job content off w hs) (hrec : w.Records stood rows hs)
    (hnodup : (rows.blocks.map BlockCsum.loff).Nodup) {cp : ScanCheckpoint} (hoff : off ≤ cp.loff)
    (hscanned : job.ScannedTo content cp.progress rows)
    (hpasses : job.Passes content cp.progress rows) :
    Safe job content cp.loff (w.storeCheckpoint io hs cp).2.2 (w.storeCheckpoint io hs cp).2.1 ∨
      Fails io ∧ Spoilt job content (w.storeCheckpoint io hs cp).2.2 := by
  obtain ⟨hdurable, hended⟩ := storeCheckpoint_lands io hrec.idle hs cp
  have hfull : job.Resumable content (w.checkpointed hs cp) := by
    refine ⟨hrec.unscanned, fun cp' hcp' => ?_⟩
    obtain rfl := Option.some.inj hcp'
    refine ⟨rows, hscanned, hpasses, hrec.extents, [], ?_, fun _ h => absurd h List.not_mem_nil⟩
    rw [List.append_nil]
    exact hrec.blocks
  have hall : ∀ g ∈ (w.storeCheckpoint io hs cp).2.2.conn.everDurable, job.Resumable content g :=
    fun g hg => (hdurable g hg).elim (h.durable g) fun hg => hg ▸ hfull
  rcases hended with ⟨-, hview, hnil, -⟩ | ⟨-, hview, hsame⟩ | ⟨hwhy, hdoom⟩
  · refine Or.inl ⟨hall, hview ▸ hfull, fun cp' hcp' => ?_⟩
    rw [hview] at hcp'
    obtain rfl := Option.some.inj hcp'
    rw [hnil]
    exact ⟨le_rfl, fun _ h => absurd h List.not_mem_nil⟩
  · refine Or.inl ⟨hall, hview ▸ h.view, fun cp' hcp' => ?_⟩
    rw [hview] at hcp'
    rw [hsame.blocks]
    exact ⟨(h.behind cp' hcp').1.trans hoff, (h.behind cp' hcp').2⟩
  · exact Or.inr ⟨(hrec.blocks ▸ hwhy).resolve_right (not_not_intro hnodup), .of_doomed hdoom hall⟩

theorem Safe.mono {off' : ℕ} {hs' : Hashes δ} (h : Safe job content off w hs) (hoff : off ≤ off')
    (hblocks : hs'.blocks = hs.blocks) : Safe job content off' w hs' :=
  ⟨h.durable, h.view, fun cp hcp =>
    ⟨(h.behind cp hcp).1.trans hoff, hblocks ▸ (h.behind cp hcp).2⟩⟩

/-- A turn leaves the hashfile safe, or a unit of it failed and spoilt the scan. -/
theorem Safe.writes (h : Safe scan.toHashing content s.ctxt.off s.world s.hashes)
    (hrec : s.world.Records stood rows s.hashes)
    (hbelow : ScanEnv.BlocksBelow s.ctxt.off rows.blocks)
    (hcomes : ∀ t emit, scan.env.Turn content false s t emit →
      scan.ScannedTo content t.progress (rows ++ emit) ∧
        scan.Passes content t.progress (rows ++ emit))
    (hwrites : scan.env.Writes content s u) :
    Safe scan.toHashing content u.ctxt.off u.world u.hashes ∨
      Fails scan.io ∧ Spoilt scan.toHashing content u.world := by
  have hstaged : ∀ {eof t emit}, scan.env.Turn content eof s t emit → scan.env.Stages s t emit →
      Safe scan.toHashing content t.ctxt.off t.world t.hashes := by
    rintro eof t emit hturn ⟨hs, exts, hadds, -, hhashes⟩
    have hsafe := h.addBlockHashes emit.blocks hrec (hbelow.turn hturn).nodup fun row hrow =>
      (hturn.blocks_loff.2 row hrow).1
    rw [hadds] at hsafe
    have hkept : Safe scan.toHashing content s.ctxt.off t.world hs :=
      hsafe.resolve_right fun h => h.1 rfl
    exact hkept.mono hturn.off_mono (by rw [hhashes])
  cases hwrites with
  | nothing hoff hhashes hworld =>
    rw [hworld, hhashes]
    exact Or.inl (h.mono hoff rfl)
  | @refused eof t _ emit hturn hret hev =>
    refine Or.inr ?_
    have hnodup := (hbelow.turn hturn).nodup
    obtain ⟨-, hwhy, hdoom⟩ :=
      (addBlockHashes_spec emit.blocks hrec).resolve_left fun h => hret h.1
    rcases h.addBlockHashes emit.blocks hrec hnodup fun row hrow =>
      (hturn.blocks_loff.2 row hrow).1 with hsafe | ⟨-, hfails, hspoilt⟩
    · have hspoilt : Spoilt scan.toHashing content _ := .of_doomed hdoom hsafe.durable
      exact ⟨hwhy.resolve_right (not_not_intro hnodup), hspoilt.evolves hev⟩
    · exact ⟨hfails, hspoilt.evolves hev⟩
  | staged hturn hstages hoff hhashes hworld =>
    rw [hworld, hhashes, hoff]
    exact Or.inl (hstaged hturn hstages)
  | @checkpoint t _ emit cp hturn hstages hcp hoff hstored =>
    obtain ⟨hhashes, hworld⟩ := Prod.ext_iff.mp hstored
    have hprogress := Hashing.progress_of_checkpointAt hcp
    have hloff : cp.loff = t.ctxt.off := congrArg Progress.off hprogress
    obtain ⟨hscanned, hpasses⟩ := hcomes t emit hturn
    rw [← hprogress] at hscanned hpasses
    rw [hoff, show u.hashes = _ from hhashes, show u.world = _ from hworld, ← hloff]
    exact (hstaged hturn hstages).storeCheckpoint (records_of_stages hstages hrec)
      (hbelow.turn hturn).nodup hloff.ge hscanned hpasses

section Runs

variable {base : Rows δ} {t : LoopState δ (ScanWriter (FileHashes δ))}
  (hfull : scan.env.ReadsFully content)
  (hscanned : scan.ScannedTo content s.progress base) (hpasses : scan.Passes content s.progress base)
  (hunread : s.Unread) (hrec : s.world.Records stood base s.hashes)
  (hsafe : Safe scan.toHashing content s.ctxt.off s.world s.hashes)

include hfull hscanned hpasses hunread hrec

/-- One more turn of the loop leaves the hashfile safe, however it ends. -/
theorem safe_of_pass (hreach : scan.env.Reaches s t) (hlt : t.ctxt.off < scan.env.filesize)
    (hkept : Safe scan.toHashing content t.ctxt.off t.world t.hashes ∨
      Fails scan.io ∧ Spoilt scan.toHashing content t.world)
    (hpass : (scan.env.csumPass t).state = some u) :
    Safe scan.toHashing content u.ctxt.off u.world u.hashes ∨
      Fails scan.io ∧ Spoilt scan.toHashing content u.world := by
  have hsound := Hashing.ScannedTo.sound scan.env hscanned hunread
  rcases hkept with hkept | ⟨hfails, hspoilt⟩
  swap
  · exact Or.inr ⟨hfails, hspoilt.evolves (ScanEnv.csumPass_evolves_of_state hpass)⟩
  rcases records_of_reaches hfull.reads hsound hrec hscanned.blocksBelow hreach with
    ⟨rows, hmakes, hrows⟩ | ⟨hfails, hdoom⟩
  · refine hkept.writes hrows (hscanned.blocksBelow.makes hmakes) (fun v emit hturn => ?_)
      (ScanEnv.csumPass_writes hfull.reads (hmakes.sound hsound) hlt hpass)
    have hmakes' := hmakes.turn hlt hturn
    rw [Rows.append_assoc]
    exact ⟨.session rfl hfull.reads hscanned hunread hmakes',
      hmakes'.passes hfull hsound hpasses⟩
  · have hspoilt : Spoilt scan.toHashing content t.world := .of_doomed hdoom hkept.durable
    exact Or.inr ⟨hfails, hspoilt.evolves (ScanEnv.csumPass_evolves_of_state hpass)⟩

include hsafe

theorem safe_of_reaches (hreach : scan.env.Reaches s t) :
    Safe scan.toHashing content t.ctxt.off t.world t.hashes ∨
      Fails scan.io ∧ Spoilt scan.toHashing content t.world := by
  induction hreach with
  | refl => exact Or.inl hsafe
  | @turn t u hreach hlt hpass ih =>
    exact safe_of_pass hfull hscanned hpasses hunread hrec hreach hlt ih (by rw [hpass]; rfl)

end Runs

end FileScan

/-- What scans of the file leave in the hashfile when they are killed or stopped, any number of
them, each carrying on from what the one before has left: a content that was durable at that
moment, or what a run that is stopped commits at its end. -/
inductive Hashing.Leaves (job : Hashing δ) (content : ℕ → UInt8) : FileHashes δ → Prop
  | fresh : Leaves job content .empty
  | resuming {f : FileHashes δ} (h : Leaves job content f) : Leaves job content (job.resumeScan f).1
  | interrupted {f g : FileHashes δ} {scan : FileScan δ} {w : ScanWriter (FileHashes δ)}
      {t u : LoopState δ (ScanWriter (FileHashes δ))} (h : Leaves job content f)
      (hjob : scan.toHashing = job) (hfull : scan.env.ReadsFully content) (hidle : w.Idle)
      (hview : w.view = job.prepare f) (hdurable : ∀ g ∈ w.conn.everDurable, Leaves job content g)
      (hreach : scan.env.Reaches (scan.env.startState f.checkpoint w) t)
      (hlt : t.ctxt.off < job.filesize) (hpass : (scan.env.csumPass t).state = some u)
      (hwrites : ScanWriter.Fails scan.io → ¬ u.world.Harmed)
      (hleft : g ∈ u.world.conn.everDurable ∨ u.world.batchLost = false ∧ g = u.world.view) :
      Leaves job content g

namespace FileScan

variable {scan clean : FileScan δ} {content : ℕ → UInt8} {f : FileHashes δ}
  {w : ScanWriter (FileHashes δ)}

theorem records_of_prepare {base : Rows δ} (hidle : w.Idle) (hview : w.view = scan.prepare f)
    (hf : scan.Resumable content f) (hblocks : (scan.prepare f).blocks = base.blocks)
    (hextents : (scan.prepare f).extents = base.extents) :
    w.Records base.blocks base .empty where
  idle := hidle
  blocks := by rw [hview, hblocks]; exact List.append_nil _
  extents := by rw [hview, hextents]; exact List.append_nil _
  unscanned := by rw [hview, hf.prepare.unscanned]
  unflushed _ := by rw [hview, hblocks]

/-- Whatever scans leave behind can be carried on from. -/
theorem resumable_of_leaves {job : Hashing δ} (h : job.Leaves content f) :
    job.Resumable content f := by
  induction h with
  | fresh => exact .of_none rfl rfl
  | resuming _ ih => exact ih.resumeScan
  | @interrupted f g scan w t u _ hjob hfull hidle hview _ hreach hlt hpass hwrites hleft ih
      hdurable =>
    subst hjob
    obtain ⟨base, hscanned, hpasses, hblocks, hextents, hoff⟩ :=
      @Hashing.Resumable.start _ _ _ _ scan.env ih w
    have hrec := records_of_prepare hidle hview ih hblocks hextents
    obtain ⟨hhashes, hworld⟩ := startState_unstaged scan.env f.checkpoint w
    have hunread := scan.env.startState_unread f.checkpoint w
    have hsafe : Safe scan.toHashing content (scan.env.startState f.checkpoint w).ctxt.off
        (scan.env.startState f.checkpoint w).world (scan.env.startState f.checkpoint w).hashes := by
      rw [hworld, hhashes]
      refine ⟨hdurable, hview ▸ ih.prepare, fun cp hcp => ?_⟩
      rw [hview] at hcp
      exact ⟨hoff cp hcp, fun _ h => absurd h List.not_mem_nil⟩
    rw [← hworld, ← hhashes] at hrec
    have hend := safe_of_pass hfull hscanned hpasses hunread hrec hreach hlt
      (safe_of_reaches hfull hscanned hpasses hunread hrec hsafe hreach) hpass
    rcases hend with hend | ⟨hfails, hharm | ⟨hlost, hall⟩⟩
    · rcases hleft with hg | ⟨-, rfl⟩
      · exact hend.durable g hg
      · exact hend.view
    · exact absurd hharm (hwrites hfails)
    · rcases hleft with hg | ⟨hkept, -⟩
      · exact hall g hg
      · rw [hlost] at hkept
        cases hkept

/-- A scan that carries on from what can be carried on from stores what one scan of the file makes;
but for an inlined file the block rows stay those it has started with. -/
theorem stored_of_resumable {w' : ScanWriter (FileHashes δ)} {fuel : ℕ}
    (hfull : scan.env.ReadsFully content) (hf : scan.Resumable content f) (hidle : w.Idle)
    (hview : w.view = scan.prepare f)
    (hrun : scan.csumWholeFile fuel f.checkpoint w = some (.stored w'))
    (hwrites : ScanWriter.Fails scan.io → ¬ w'.Harmed) :
    ∃ p emitted, Stepping.Evaluates scan.BelowEnd (scan.stride content) .zero p emitted ∧
      w'.view.extents = (Rows.joined emitted).extents ∧
      (scan.inlined = false → w'.view.blocks = (Rows.joined emitted).blocks) ∧
      (scan.inlined = true → w'.view.blocks = (scan.prepare f).blocks) ∧
      w'.view.scanned.map ScannedFile.digest = some (scan.fileDigest p.fileCsum) := by
  obtain ⟨base, hscanned, hpasses, hblocks, hextents, -⟩ :=
    @Hashing.Resumable.start _ _ _ _ scan.env hf w
  have hrec := records_of_prepare hidle hview hf hblocks hextents
  have hsound := Hashing.ScannedTo.sound scan.env hscanned (scan.env.startState_unread _ w)
  rcases stored_of_start hfull.reads hsound hrec hscanned.blocksBelow hrun with
    ⟨r, rows, hfinishes, -, hext, hblk, hin, hdigest⟩ | ⟨hfails, hharm⟩
  swap
  · exact absurd hharm (hwrites hfails)
  obtain ⟨emitted, heval, hrows⟩ := hfinishes.completes hfull hsound hpasses
  rw [hrows] at hext hblk
  refine ⟨r.progress, emitted, heval, hext, hblk, fun h => (hin h).trans hblocks.symm, ?_⟩
  rw [hdigest]
  rfl

end FileScan

/-- A block of data, a hole of a block, and a tail of 100 bytes. -/
def tailedFile (flags : UInt32) : FileToScan where
  filesize := 8292
  mtime := 0
  fiemap := ⟨[⟨0, 65536, 4096, 0⟩, ⟨8192, 131072, 4096, flags⟩], by simp,
    by simp [FiemapExtent.feEnd]⟩

def tailedScan (flags : UInt32) (interrupted : Bool) : FileScan ℕ where
  options := ⟨fourKiB, true, false, false, false⟩
  file := tailedFile flags
  xxh := List.length
  pacing := ⟨true, 16, 2 ^ 30, 0⟩
  pread := fullReads fun _ => 0
  interrupted _ := interrupted
  io := quietIO
  rdonlySubvol := false

theorem tailedScan_readsFully (flags : UInt32) (interrupted : Bool) :
    (tailedScan flags interrupted).env.ReadsFully fun _ => 0 := by
  refine ⟨fun pos want data h => ?_, fun _ _ _ => rfl⟩
  obtain rfl := Option.some.inj h
  simp

theorem quietIO_not_fails : ¬ ScanWriter.Fails quietIO := by
  simp [ScanWriter.Fails, quietIO, Answer.ok]

def tailedLeft (flags : UInt32) : FileHashes ℕ :=
  (((tailedScan flags true).env.csumPass ((tailedScan flags true).env.startState none
    (.opened .empty))).state.map fun u => u.world.conn.durable).getD .empty

theorem FileScan.leaves_of_firstPass {scan : FileScan δ} {content : ℕ → UInt8}
    {u : LoopState δ (ScanWriter (FileHashes δ))} (hfull : scan.env.ReadsFully content)
    (hio : ¬ ScanWriter.Fails scan.io) (hpos : 0 < scan.filesize)
    (hpass : (scan.env.csumPass (scan.env.startState none (.opened .empty))).state = some u) :
    scan.Leaves content u.world.conn.durable := by
  refine @Hashing.Leaves.interrupted _ _ _ _ _ scan _ _ _ .fresh rfl hfull
    (ScanWriter.opened_idle _) rfl (fun g hg => ?_) .refl hpos hpass (fun h => absurd h hio)
    (Or.inl List.mem_cons_self)
  rw [List.mem_singleton.mp hg]
  exact .fresh

theorem tailedLeft_leaves (flags : UInt32) (hpass : ((tailedScan flags true).env.csumPass
    ((tailedScan flags true).env.startState none (.opened .empty))).state.isSome = true) :
    (tailedScan flags false).Leaves (fun _ => 0) (tailedLeft flags) := by
  obtain ⟨u, hu⟩ := Option.isSome_iff_exists.mp hpass
  have hleft : tailedLeft flags = u.world.conn.durable := by
    rw [tailedLeft, hu]
    rfl
  rw [hleft]
  exact @FileScan.leaves_of_firstPass _ (tailedScan flags true) _ _
    (tailedScan_readsFully flags true) quietIO_not_fails (show 0 < 8292 by decide) hu

set_option maxRecDepth 20000 in
theorem tailedScan_resumes : ∃ w', (tailedScan FIEMAP_EXTENT_LAST false).csumWholeFile 4
    (tailedLeft FIEMAP_EXTENT_LAST).checkpoint
    (.opened ((tailedScan FIEMAP_EXTENT_LAST false).prepare (tailedLeft FIEMAP_EXTENT_LAST))) =
      some (.stored w') := ⟨_, rfl⟩

set_option maxRecDepth 20000 in
theorem tailedScan_stores : ∃ v', (tailedScan FIEMAP_EXTENT_LAST false).csumWholeFile 4 none
    (.opened .empty) = some (.stored v') := ⟨_, rfl⟩

set_option maxRecDepth 20000 in
theorem tailedScan_pass_isSome : ((tailedScan FIEMAP_EXTENT_LAST true).env.csumPass
    ((tailedScan FIEMAP_EXTENT_LAST true).env.startState none (.opened .empty))).state.isSome =
      true := rfl

end Oans
