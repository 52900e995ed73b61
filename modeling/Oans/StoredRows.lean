import Oans.HashStore

/-!
# From the rows that are made to the rows that are stored

`Makes` collects the rows of the turns a run of the loop takes. As long as no write unit does harm
and the batch is not lost, they are all stored or staged, and a scan that ends with its results
stored has stored them all.
-/

namespace Oans

open Savepoint Slice

namespace Hashing

variable {δ : Type*} {job : Hashing δ}

theorem blockRows_loff (n off : ℕ) (buf : List UInt8) :
    ((job.blockRows n off buf).map BlockCsum.loff).Pairwise (· < ·) ∧
      ∀ row ∈ job.blockRows n off buf, off ≤ row.loff ∧ row.loff < off + n * job.blocksize := by
  have hpos := job.blocksize_pos
  induction n generalizing off buf with
  | zero => exact ⟨.nil, fun _ h => absurd h List.not_mem_nil⟩
  | succ n ih =>
    obtain ⟨hsorted, hrange⟩ := ih (off + job.blocksize) (buf.drop job.blocksize)
    rw [blockRows, Nat.succ_mul]
    split_ifs
    · rw [List.singleton_append, List.map_cons]
      refine ⟨List.pairwise_cons.mpr ⟨fun loff hloff => ?_, hsorted⟩, fun row hrow => ?_⟩
      · obtain ⟨row, hrow, rfl⟩ := List.mem_map.mp hloff
        have := hrange row hrow
        dsimp only
        omega
      · rcases List.mem_cons.mp hrow with rfl | hrow
        · dsimp only
          omega
        · have := hrange row hrow
          omega
    · rw [List.nil_append]
      refine ⟨hsorted, fun row hrow => ?_⟩
      have := hrange row hrow
      omega

/-- The rows of a turn start at distinct offsets among the bytes it consumes. -/
theorem turnRows_loff (eof : Bool) (off : ℕ) (buffer : Buffer) :
    ((job.turnRows eof off buffer).map BlockCsum.loff).Pairwise (· < ·) ∧
      ∀ row ∈ job.turnRows eof off buffer, off ≤ row.loff ∧
        row.loff < off + if eof then buffer.data.length else job.processed buffer := by
  have hle := job.processed_le buffer
  have hwhole : ((job.bufferRows off buffer).map BlockCsum.loff).Pairwise (· < ·) ∧
      ∀ row ∈ job.bufferRows off buffer,
        off ≤ row.loff ∧ row.loff < off + job.processed buffer := by
    unfold bufferRows processed
    split_ifs
    · exact ⟨.nil, fun _ h => absurd h List.not_mem_nil⟩
    · exact blockRows_loff _ _ _
  obtain ⟨hsorted, hrange⟩ := hwhole
  unfold turnRows
  split_ifs with hlast heof heof
  · refine ⟨?_, fun row hrow => ?_⟩
    · rw [List.map_append, List.pairwise_append]
      refine ⟨hsorted, List.pairwise_singleton _ _, fun a ha b hb => ?_⟩
      obtain ⟨row, hrow, rfl⟩ := List.mem_map.mp ha
      obtain rfl := List.mem_singleton.mp hb
      exact (hrange row hrow).2
    · rcases List.mem_append.mp hrow with hrow | hrow
      · have := hrange row hrow
        omega
      · obtain rfl := List.mem_singleton.mp hrow
        dsimp only
        omega
  · exact absurd hlast.1 heof
  · rw [List.append_nil]
    refine ⟨hsorted, fun row hrow => ?_⟩
    have := hrange row hrow
    omega
  · rw [List.append_nil]
    exact ⟨hsorted, hrange⟩

end Hashing

namespace ScanEnv

variable {δ ω : Type*} {env : ScanEnv δ ω} {content : ℕ → UInt8} {s t u : LoopState δ ω}
  {rows emit : Rows δ}

theorem Turn.blocks_loff {eof : Bool} (h : env.Turn content eof s t emit) :
    (emit.blocks.map BlockCsum.loff).Pairwise (· < ·) ∧
      ∀ row ∈ emit.blocks, s.ctxt.off ≤ row.loff ∧ row.loff < t.ctxt.off := by
  cases h with
  | hole => exact ⟨.nil, fun _ h => absurd h List.not_mem_nil⟩
  | faked => exact ⟨.nil, fun _ h => absurd h List.not_mem_nil⟩
  | @read _ _ _ cap stop hdata hno hcap hlo hhi hread heof hctxt hbuffer =>
    obtain ⟨hsorted, hrange⟩ := @Hashing.turnRows_loff _ env.toHashing eof s.ctxt.off
      ⟨slice content s.ctxt.off stop, false⟩
    have hn : (if eof = true then (slice content s.ctxt.off stop).length
        else env.processed ⟨slice content s.ctxt.off stop, false⟩) =
        env.consumes eof s.ctxt.off stop := by
      cases eof <;> simp [Hashing.processed, Hashing.consumes]
    rw [hctxt]
    exact ⟨hsorted, fun row hrow => hn ▸ hrange row hrow⟩

def Stages (env : ScanEnv δ ω) (s t : LoopState δ ω) (emit : Rows δ) : Prop :=
  ∃ hs exts, env.addBlockHashes emit.blocks s.hashes s.world = (0, hs, t.world) ∧
    exts.reduceOption = emit.extents ∧ t.hashes = { hs with extents := hs.extents ++ exts }

inductive Makes (env : ScanEnv δ ω) (content : ℕ → UInt8) (s : LoopState δ ω) :
    LoopState δ ω → Rows δ → Prop
  | refl : Makes env content s s ∅
  | turn {t u : LoopState δ ω} {rows emit : Rows δ} (head : Makes env content s t rows)
      (hlt : t.ctxt.off < env.filesize) (hturn : env.Turn content false t u emit) :
      Makes env content s u (rows ++ emit)

inductive Finishes (env : ScanEnv δ ω) (content : ℕ → UInt8) (s : LoopState δ ω) :
    LoopState δ ω → Rows δ → Prop
  | done {t : LoopState δ ω} {rows : Rows δ} (head : Makes env content s t rows)
      (hge : env.filesize ≤ t.ctxt.off) : Finishes env content s t rows
  | last {t u : LoopState δ ω} {rows emit : Rows δ} (head : Makes env content s t rows)
      (hlt : t.ctxt.off < env.filesize) (hturn : env.Turn content true t u emit)
      (hreach : env.Reaches s t) (hpass : env.csumPass t = .leave u) :
      Finishes env content s u (rows ++ emit)

theorem Makes.sound (h : env.Makes content s t rows)
    (hsound : env.Sound content s.ctxt s.buffer) : env.Sound content t.ctxt t.buffer := by
  induction h with
  | refl => exact hsound
  | turn _ hlt hturn ih => exact hturn.sound ih hlt

theorem Turn.off_mono {eof : Bool} (h : env.Turn content eof s t emit) :
    s.ctxt.off ≤ t.ctxt.off := by
  cases h with
  | hole hhole hctxt hbuffer =>
    rw [hctxt]
    exact Nat.le_add_right _ _
  | faked hdata hfakes heof hctxt hbuffer =>
    rw [hctxt]
    exact Nat.le_add_right _ _
  | read hdata hno hcap hlo hhi hread heof hctxt hbuffer =>
    rw [hctxt]
    exact Nat.le_add_right _ _

theorem Makes.off_mono (h : env.Makes content s t rows) : s.ctxt.off ≤ t.ctxt.off := by
  induction h with
  | refl => exact le_rfl
  | turn _ _ hturn ih => exact ih.trans hturn.off_mono

structure BlocksBelow (off : ℕ) (rows : List (BlockCsum δ)) : Prop where
  nodup : (rows.map BlockCsum.loff).Nodup
  below : ∀ row ∈ rows, row.loff < off

theorem BlocksBelow.turn {eof : Bool} {blocks : List (BlockCsum δ)}
    (h : BlocksBelow s.ctxt.off blocks) (hturn : env.Turn content eof s t emit) :
    BlocksBelow t.ctxt.off (blocks ++ emit.blocks) := by
  obtain ⟨hsorted, hrange⟩ := hturn.blocks_loff
  constructor
  · rw [List.map_append]
    refine h.nodup.append (hsorted.imp fun h => Nat.ne_of_lt h) fun loff hmem hmem' => ?_
    obtain ⟨d, hd, rfl⟩ := List.mem_map.mp hmem
    obtain ⟨e, he, heq⟩ := List.mem_map.mp hmem'
    have := h.below d hd
    have := (hrange e he).1
    omega
  · intro row hrow
    rcases List.mem_append.mp hrow with hrow | hrow
    · exact (h.below row hrow).trans_le hturn.off_mono
    · exact (hrange row hrow).2

theorem BlocksBelow.makes {blocks : List (BlockCsum δ)} (h : BlocksBelow s.ctxt.off blocks)
    (hmakes : env.Makes content s t rows) :
    BlocksBelow t.ctxt.off (blocks ++ rows.blocks) := by
  induction hmakes with
  | refl => exact (List.append_nil blocks).symm ▸ h
  | turn _ _ hturn ih =>
    have hnext := ih.turn hturn
    rwa [List.append_assoc] at hnext

theorem addBlockHashes_evolves (rows : List (BlockCsum δ)) (hs : Hashes δ) (w : ω) :
    env.Evolves w (env.addBlockHashes rows hs w).2.2 := by
  induction rows generalizing hs w with
  | nil => exact .refl
  | cons row rows ih =>
    have hrow := @addBlockHash_evolves _ _ env row hs w
    rw [addBlockHashes]
    generalize env.addBlockHash hs w row = staged at hrow ⊢
    obtain ⟨ret, hs', w'⟩ := staged
    dsimp only at hrow ⊢
    split_ifs
    · exact hrow
    · exact hrow.trans (ih _ _)

theorem hashBuffer_evolves {eof : Bool}
    (hpass : env.hashBuffer eof s = .next t ∨ env.hashBuffer eof s = .leave t) :
    env.Evolves s.world t.world := by
  rcases env.hashBuffer_spec eof s with ⟨u, hu, -⟩ | ⟨u, hu, ⟨rows, -, hev⟩, -⟩ |
    ⟨s', -, hadds, hflow⟩
  · rw [hu] at hpass
    simp at hpass
  · have hut : u = t := by
      rcases hu with hu | hu <;> rcases hpass with hpass | hpass <;> rw [hu] at hpass <;>
        first
        | exact Flow.next.inj hpass
        | exact Flow.leave.inj hpass
        | cases hpass
    exact (addBlockHashes_evolves rows _ _).trans (hut ▸ hev)
  · have hstaged : env.Evolves s.world s'.world := by
      have := @addBlockHashes_evolves _ _ env (env.turnRows eof s.ctxt.off s.buffer) s.hashes
        s.world
      rwa [hadds] at this
    cases eof with
    | true =>
      rw [if_pos rfl] at hflow
      rw [hflow] at hpass
      obtain rfl : env.ackBytes s' s.buffer.data.length = t := by simpa using hpass
      rwa [ackBytes_world]
    | false =>
      rw [if_neg (by simp)] at hflow
      rw [hflow] at hpass
      have hend := endPass_evolves (hpass.resolve_right (endPass_ne_leave _ _))
      rw [ackBytes_world] at hend
      exact hstaged.trans hend

/-- Whatever a turn does, further calls of the hashfile lead from its world to the next. -/
theorem csumPass_evolves (hpass : env.csumPass s = .next t ∨ env.csumPass s = .leave t) :
    env.Evolves s.world t.world := by
  unfold csumPass at hpass
  rcases env.fiemap.holeRunLength env.blocksize env.filesize s.ctxt.off
    s.ctxt.extentCursor with ⟨holeLength, cursor⟩
  dsimp only at hpass
  split_ifs at hpass
  · rcases hpass with hpass | hpass
    · rw [← Flow.next.inj hpass]
      exact .refl
    · cases hpass
  · split at hpass
    · simp at hpass
    · simp at hpass
    · have hev := hashBuffer_evolves hpass
      exact hev

end ScanEnv

namespace FileScan

variable {δ : Type*} {scan : FileScan δ} {content : ℕ → UInt8}
  {s t : LoopState δ (ScanWriter (FileHashes δ))} {rows emit : Rows δ}
  {w : ScanWriter (FileHashes δ)} {stood : List (BlockCsum δ)}

def Doomed (w : ScanWriter (FileHashes δ)) : Prop := w.batchLost = true ∨ w.Harmed

theorem Doomed.grows {v : ScanWriter (FileHashes δ)} (h : Doomed v) (hgrows : v.Grows w) :
    Doomed w := by
  rcases h with hlost | ⟨r, hr, hharm⟩
  · exact Or.inl (hgrows.lost hlost)
  · exact Or.inr ⟨r, hgrows.reports r hr, hharm⟩

theorem grows_of_evolves {v : ScanWriter (FileHashes δ)} (h : scan.env.Evolves v w) :
    v.Grows w := by
  induction h with
  | refl => exact .refl _
  | flush _ hs ih => exact ih.trans (ScanWriter.flushBlockHashes_grows _ _ hs)
  | checkpoint _ hs cp ih => exact ih.trans (ScanWriter.storeCheckpoint_grows _ _ hs cp)

theorem addBlockHash_spec (row : BlockCsum δ) {hs : Hashes δ} (h : w.Records stood rows hs) :
    ((scan.env.addBlockHash hs w row).1 = 0 ∧
        (scan.env.addBlockHash hs w row).2.2.Records stood ⟨rows.blocks ++ [row], rows.extents⟩
          (scan.env.addBlockHash hs w row).2.1 ∧
        (scan.env.addBlockHash hs w row).2.1.extents = hs.extents) ∨
      (scan.env.addBlockHash hs w row).1 ≠ 0 ∧
        (ScanWriter.Fails scan.io ∨ ¬ (rows.blocks.map BlockCsum.loff).Nodup) ∧
        Doomed (scan.env.addBlockHash hs w row).2.2 := by
  have hstage : ∀ {hs' : Hashes δ} {w' : ScanWriter (FileHashes δ)}, w'.Records stood rows hs' →
      w'.Records stood ⟨rows.blocks ++ [row], rows.extents⟩
        { hs' with blocks := hs'.blocks ++ [row] } := fun h' =>
    ⟨h'.idle, by rw [← h'.blocks, List.append_assoc], h'.extents, h'.unscanned, h'.unflushed⟩
  unfold ScanEnv.addBlockHash
  by_cases hfull : scan.env.pacing.blockBatchMax ≤ hs.blocks.length
  · rw [if_pos hfull]
    have hflush := @ScanWriter.flushBlockHashes_spec _ scan.io _ _ _ _ h
    generalize hran : scan.env.hashfile.flushBlockHashes hs w = ran
    rw [show ScanWriter.flushBlockHashes scan.io hs w = ran from hran] at hflush
    obtain ⟨ret, hs', w'⟩ := ran
    rcases hflush with ⟨rfl, hrec, hext⟩ | ⟨hret, hwhy, hdoom⟩
    · exact Or.inl ⟨rfl, hstage hrec, hext⟩
    · dsimp only at hret ⊢
      rw [if_pos hret]
      exact Or.inr ⟨hret, hwhy, hdoom⟩
  · rw [if_neg hfull]
    exact Or.inl ⟨rfl, hstage h, rfl⟩

/-- Rows that are staged one by one are recorded, or a flush on the way failed. -/
theorem addBlockHashes_spec (new : List (BlockCsum δ)) {hs : Hashes δ}
    (h : w.Records stood rows hs) :
    ((scan.env.addBlockHashes new hs w).1 = 0 ∧
        (scan.env.addBlockHashes new hs w).2.2.Records stood ⟨rows.blocks ++ new, rows.extents⟩
          (scan.env.addBlockHashes new hs w).2.1 ∧
        (scan.env.addBlockHashes new hs w).2.1.extents = hs.extents) ∨
      (scan.env.addBlockHashes new hs w).1 ≠ 0 ∧
        (ScanWriter.Fails scan.io ∨ ¬ ((rows.blocks ++ new).map BlockCsum.loff).Nodup) ∧
        Doomed (scan.env.addBlockHashes new hs w).2.2 := by
  induction new generalizing hs w rows with
  | nil =>
    rw [List.append_nil]
    exact Or.inl ⟨rfl, h, rfl⟩
  | cons row new ih =>
    rw [ScanEnv.addBlockHashes]
    have hrow := @addBlockHash_spec _ scan _ _ _ row _ h
    generalize scan.env.addBlockHash hs w row = staged at hrow ⊢
    obtain ⟨ret, hs', w'⟩ := staged
    rcases hrow with ⟨rfl, hrec, hext⟩ | ⟨hret, hwhy, hdoom⟩
    · dsimp only at hrec hext ⊢
      rw [if_neg (not_not_intro rfl), ← hext]
      have hrest := ih hrec
      rwa [List.append_assoc, List.singleton_append] at hrest
    · dsimp only at hret hdoom ⊢
      rw [if_pos hret]
      refine Or.inr ⟨hret, hwhy.imp_right fun hdup hnodup => hdup ?_, hdoom⟩
      rw [List.map_append] at hnodup
      exact hnodup.of_append_left

theorem records_of_stages (hstages : scan.env.Stages s t emit)
    (h : s.world.Records stood rows s.hashes) :
    t.world.Records stood (rows ++ emit) t.hashes := by
  obtain ⟨hs, exts, hadds, hexts, hhashes⟩ := hstages
  have hstaged := @addBlockHashes_spec _ scan _ _ _ emit.blocks _ h
  rw [hadds] at hstaged
  obtain ⟨-, hrec, hsame⟩ := hstaged.resolve_right fun h => h.1 rfl
  rw [hhashes]
  exact ⟨hrec.idle, hrec.blocks, by
    rw [List.reduceOption_append, ← List.append_assoc, hrec.extents, hexts]; rfl,
    hrec.unscanned, hrec.unflushed⟩

/-- The rows of a turn are recorded with those made before, or a unit on the way failed. -/
theorem records_of_emits (hemits : scan.env.Emits s t emit)
    (h : s.world.Records stood rows s.hashes) :
    t.world.Records stood (rows ++ emit) t.hashes ∨
      (ScanWriter.Fails scan.io ∨
        ¬ ((rows.blocks ++ emit.blocks).map BlockCsum.loff).Nodup) ∧ Doomed t.world := by
  obtain ⟨hs, w, exts, hadds, hexts, hstore⟩ := hemits
  have hrec := @records_of_stages _ scan s
    { t with hashes := { hs with extents := hs.extents ++ exts }, world := w } _ _ _
    ⟨hs, exts, hadds, hexts, rfl⟩ h
  rcases hstore with ⟨hhashes, hworld⟩ | ⟨cp, hstored⟩
  · rw [hhashes, hworld]
    exact Or.inl hrec
  · have hspec := @ScanWriter.storeCheckpoint_spec _ scan.io _ _ _ _ hrec cp
    rw [show ScanWriter.storeCheckpoint scan.io { hs with extents := hs.extents ++ exts } cp w =
      (_, t.hashes, t.world) from Prod.ext rfl hstored.symm] at hspec
    exact hspec

/-- A drain that failed in a turn from a state whose rows are recorded dooms the scan. -/
theorem doomed_of_drainFails (hdrain : scan.env.DrainFails s t)
    (hrefuses : scan.env.Refuses content s) (h : s.world.Records stood rows s.hashes)
    (hbelow : ScanEnv.BlocksBelow s.ctxt.off rows.blocks) :
    ScanWriter.Fails scan.io ∧ Doomed t.world := by
  obtain ⟨new, hpos, hev⟩ := hdrain
  obtain ⟨eof, u, emit, hturn, hret⟩ := hrefuses
  constructor
  · rcases @addBlockHashes_spec _ scan _ _ _ emit.blocks _ h with ⟨hzero, -⟩ | ⟨-, hwhy, -⟩
    · exact absurd hzero hret
    · exact hwhy.resolve_right (not_not_intro (hbelow.turn hturn).nodup)
  · rcases @addBlockHashes_spec _ scan _ _ _ new _ h with ⟨hzero, -⟩ | ⟨-, -, hdoom⟩
    · omega
    · exact hdoom.grows (grows_of_evolves hev)

section Runs

variable {base : Rows δ} (hreads : scan.env.ReadsFrom content)
  (hsound : scan.env.Sound content s.ctxt s.buffer) (hrec : s.world.Records stood base s.hashes)
  (hbelow : ScanEnv.BlocksBelow s.ctxt.off base.blocks)

include hreads hsound hrec hbelow

/-- At every head of the loop all rows made are recorded, or a failed unit dooms the scan. -/
theorem records_of_reaches (h : scan.env.Reaches s t) :
    (∃ rows, scan.env.Makes content s t rows ∧ t.world.Records stood (base ++ rows) t.hashes) ∨
      ScanWriter.Fails scan.io ∧ Doomed t.world := by
  induction h with
  | refl => exact Or.inl ⟨∅, .refl, base.append_empty.symm ▸ hrec⟩
  | @turn t u _ hlt hpass ih =>
    rcases ih with ⟨rows, hmakes, hrows⟩ | ⟨hfails, hdoom⟩
    · have hspec := ScanEnv.csumPass_spec hreads (hmakes.sound hsound) hlt
      have hbelow' := hbelow.makes hmakes
      rw [hpass] at hspec
      rcases hspec with ⟨hdrain, hrefuses⟩ | ⟨emit, hturn, hemits⟩
      · exact Or.inr (doomed_of_drainFails hdrain hrefuses hrows hbelow')
      · rcases records_of_emits hemits hrows with hrec' | ⟨hwhy, hdoom⟩
        · exact Or.inl ⟨_, .turn hmakes hlt hturn, base.append_assoc rows emit ▸ hrec'⟩
        · exact Or.inr ⟨hwhy.resolve_right (not_not_intro (hbelow'.turn hturn).nodup), hdoom⟩
    · exact Or.inr ⟨hfails, hdoom.grows (grows_of_evolves
        (ScanEnv.csumPass_evolves (Or.inl hpass)))⟩

theorem records_of_leaves {fuel : ℕ} (h : scan.env.csumLoop fuel s = some (.leave t)) :
    (∃ rows, scan.env.Finishes content s t rows ∧ t.world.Records stood (base ++ rows) t.hashes) ∨
      ScanWriter.Fails scan.io ∧ Doomed t.world := by
  cases ScanEnv.csumLoop_ends h with
  | done hreach hge =>
    refine (records_of_reaches hreads hsound hrec hbelow hreach).imp_left ?_
    rintro ⟨rows, hmakes, hrows⟩
    exact ⟨rows, .done hmakes hge, hrows⟩
  | @pass u _ hreach hlt hpass hlast =>
    rcases records_of_reaches hreads hsound hrec hbelow hreach with
      ⟨rows, hmakes, hrows⟩ | ⟨hfails, hdoom⟩
    · have hspec := ScanEnv.csumPass_spec hreads (hmakes.sound hsound) hlt
      have hbelow' := hbelow.makes hmakes
      rw [hpass] at hspec
      rcases hspec with ⟨hdrain, hrefuses⟩ | ⟨emit, hturn, hemits⟩
      · exact Or.inr (doomed_of_drainFails hdrain hrefuses hrows hbelow')
      · rcases records_of_emits hemits hrows with hrec' | ⟨hwhy, hdoom⟩
        · exact Or.inl ⟨_, .last hmakes hlt hturn hreach hpass,
            base.append_assoc rows emit ▸ hrec'⟩
        · exact Or.inr ⟨hwhy.resolve_right (not_not_intro (hbelow'.turn hturn).nodup), hdoom⟩
    · exact Or.inr ⟨hfails, hdoom.grows (grows_of_evolves
        (ScanEnv.csumPass_evolves (Or.inr hpass)))⟩

end Runs

/-- The last unit stores what was still staged. -/
theorem resultWrites_spec {io : WriterIO} {base f : FileHashes δ} (h : w.InUnit base f)
    (inlined hadCheckpoint : Bool) (hs : Hashes δ) (scanned : ScannedFile δ) :
    ((w.resultWrites io inlined hadCheckpoint hs scanned).1 = 0 ∧
        (w.resultWrites io inlined hadCheckpoint hs scanned).2.InUnit base
          ⟨f.blocks ++ if inlined then [] else hs.blocks,
            f.extents ++ hs.extents.reduceOption,
            if hadCheckpoint then none else f.checkpoint, some scanned⟩) ∨
      (w.resultWrites io inlined hadCheckpoint hs scanned).1 ≠ 0 ∧
        (w.resultWrites io inlined hadCheckpoint hs scanned).2.Broken base := by
  unfold ScanWriter.resultWrites
  have hblocks : ((if inlined then (0, hs, w) else w.storeBlockBatch io hs).1 = 0 ∧
        (if inlined then (0, hs, w) else w.storeBlockBatch io hs).2.1.extents = hs.extents ∧
        (if inlined then (0, hs, w) else w.storeBlockBatch io hs).2.2.InUnit base
          { f with blocks := f.blocks ++ if inlined then [] else hs.blocks }) ∨
      (if inlined then (0, hs, w) else w.storeBlockBatch io hs).1 ≠ 0 ∧
        (if inlined then (0, hs, w) else w.storeBlockBatch io hs).2.2.Broken base := by
    cases inlined with
    | true => exact Or.inl ⟨rfl, rfl, by simpa using h⟩
    | false =>
      obtain ⟨-, ⟨hrc, -, hsame, -, hunit⟩ | ⟨hrc, -, -, hbroken⟩⟩ :=
        ScanWriter.storeBlockBatch_spec io h hs
      · exact Or.inl ⟨hrc, hsame, hunit⟩
      · exact Or.inr ⟨hrc, hbroken⟩
  generalize (if inlined = true then ((0 : ℕ), hs, w) else w.storeBlockBatch io hs) = ran
    at hblocks ⊢
  obtain ⟨rc, hs₁, w₁⟩ := ran
  rcases hblocks with ⟨rfl, hsame, hunit⟩ | ⟨hrc, hbroken⟩
  · have hext := ScanWriter.storeExtentBatch_spec io hunit hs₁
    dsimp only at hsame ⊢
    rw [if_neg (not_not_intro rfl)]
    generalize w₁.storeExtentBatch io hs₁ = ran at hext ⊢
    obtain ⟨rc, hs₂, w₂⟩ := ran
    obtain ⟨-, ⟨rfl, -, -, -, hunit'⟩ | ⟨hrc, -, -, hbroken⟩⟩ := hext
    · dsimp only
      rw [if_neg (not_not_intro rfl)]
      obtain ⟨-, ⟨g, hrc, hg, hunit''⟩ | ⟨hrc, -, hbroken⟩⟩ :=
        @ScanWriter.execAll_spec _ io _ _ _ hunit' (FileHashes.updateScannedFile scanned ::
          if hadCheckpoint then [FileHashes.removeCheckpoint] else [])
      · refine Or.inl ⟨hrc, ?_⟩
        cases hadCheckpoint <;> obtain rfl := Option.some.inj hg <;> rwa [hsame] at hunit''
      · exact Or.inr ⟨hrc, hbroken⟩
    · dsimp only at hrc ⊢
      rw [if_pos hrc]
      exact Or.inr ⟨hrc, hbroken⟩
  · dsimp only at hrc ⊢
    rw [if_pos hrc, if_pos hrc]
    exact Or.inr ⟨hrc, hbroken⟩

/-- A scan whose results are stored has come to the end of the file, and has stored all rows but
the block rows of an inlined file. -/
theorem storeResults_spec (hrec : s.world.Records stood rows s.hashes)
    (h : scan.storeResults s = .stored w) :
    s.ctxt.off = scan.filesize ∧ w.view.extents = rows.extents ∧
      (scan.inlined = false → w.view.blocks = rows.blocks) ∧
      (scan.inlined = true → w.view.blocks = stood) ∧
      w.view.scanned = some (scan.scannedFile s.ctxt.fileCsum) := by
  unfold storeResults at h
  by_cases hoff : s.ctxt.off = scan.filesize
  swap
  · rw [if_pos hoff] at h
    cases h
  rw [if_neg (not_not_intro hoff)] at h
  have hbegin := @ScanWriter.writeBegin_spec _ scan.io _ hrec.idle
  generalize s.world.writeBegin scan.io = ran at hbegin h
  obtain ⟨ret, w₁⟩ := ran
  obtain ⟨-, ⟨rfl, hunit⟩ | ⟨hret, -⟩⟩ := hbegin
  swap
  · dsimp only at hret h
    rw [if_pos hret] at h
    cases h
  dsimp only at h
  rw [if_neg (not_not_intro rfl)] at h
  by_cases hassert : scan.inlined = true ∧ s.hashes.blocksFlushed ≠ 0
  · rw [if_pos hassert] at h
    cases h
  rw [if_neg hassert] at h
  have hwrites := @resultWrites_spec _ _ scan.io _ _ hunit scan.inlined
    (decide (s.lastCheckpoint ≠ 0)) s.hashes (scan.scannedFile s.ctxt.fileCsum)
  generalize w₁.resultWrites scan.io scan.inlined (decide (s.lastCheckpoint ≠ 0)) s.hashes
    (scan.scannedFile s.ctxt.fileCsum) = ran at hwrites h
  obtain ⟨rc, w₂⟩ := ran
  rcases hwrites with ⟨rfl, hunit'⟩ | ⟨hrc, -⟩
  swap
  · dsimp only at hrc h
    rw [if_pos hrc] at h
    cases h
  dsimp only at hunit' h
  rw [if_neg (not_not_intro rfl)] at h
  have hend := (@ScanWriter.writeEnd_spec _ scan.io _ _ _ hunit').kept_or_lost
  generalize w₂.writeEnd scan.io = ran at hend h
  obtain ⟨ret, w₃⟩ := ran
  rcases hend with ⟨rfl, -, hview⟩ | ⟨hret, -⟩
  swap
  · dsimp only at hret h
    rw [if_pos hret] at h
    cases h
  dsimp only at hview h
  rw [if_neg (not_not_intro rfl)] at h
  obtain rfl := ScanEnd.stored.inj h
  rw [hview]
  refine ⟨hoff, hrec.extents, fun hin => ?_, fun hin => ?_, rfl⟩
  · dsimp only
    rw [if_neg (by simp [hin]), hrec.blocks]
  · have hunflushed : s.hashes.blocksFlushed = 0 :=
      by_contra fun hflushed => hassert ⟨hin, hflushed⟩
    dsimp only
    rw [if_pos hin, List.append_nil]
    exact hrec.unflushed hunflushed

/-- Results are stored only while the batch is kept; a unit that did harm stays reported. -/
theorem harmed_of_stored (hdoom : Doomed s.world) (h : scan.storeResults s = .stored w) :
    w.Harmed := by
  have hgrows : s.world.Grows w := by
    unfold storeResults at h
    dsimp only at h
    split_ifs at h
    obtain rfl := ScanEnd.stored.inj h
    exact ((ScanWriter.writeBegin_grows scan.io _).trans
      (ScanWriter.resultWrites_grows scan.io _ _ _ _ _)).trans (ScanWriter.writeEnd_grows scan.io _)
  rcases hdoom with hlost | ⟨r, hr, hharm⟩
  · unfold storeResults at h
    rw [ScanWriter.writeBegin, if_pos hlost] at h
    dsimp only at h
    split_ifs at h
    contradiction
  · exact ⟨r, hgrows.reports r hr, hharm⟩

theorem startState_unstaged (env : ScanEnv δ (ScanWriter (FileHashes δ)))
    (resume : Option ScanCheckpoint) (w : ScanWriter (FileHashes δ)) :
    (env.startState resume w).hashes = .empty ∧ (env.startState resume w).world = w := by
  unfold ScanEnv.startState
  split
  · exact ⟨rfl, rfl⟩
  · split_ifs <;> exact ⟨rfl, rfl⟩

/-- A scan that stores its results has stored, next to the rows there were, those of a run to the
end of the file, or one of its units failed harmfully. -/
theorem stored_of_start {w' : ScanWriter (FileHashes δ)} {base : Rows δ} {fuel : ℕ}
    {resume : Option ScanCheckpoint} (hreads : scan.env.ReadsFrom content)
    (hsound : scan.env.Sound content (scan.env.startState resume w).ctxt
      (scan.env.startState resume w).buffer) (hrec : w.Records stood base .empty)
    (hbelow : ScanEnv.BlocksBelow (scan.env.startState resume w).ctxt.off base.blocks)
    (hrun : scan.csumWholeFile fuel resume w = some (.stored w')) :
    (∃ r rows, scan.env.Finishes content (scan.env.startState resume w) r rows ∧
        r.ctxt.off = scan.filesize ∧ w'.view.extents = (base ++ rows).extents ∧
        (scan.inlined = false → w'.view.blocks = (base ++ rows).blocks) ∧
        (scan.inlined = true → w'.view.blocks = stood) ∧
        w'.view.scanned = some (scan.scannedFile r.ctxt.fileCsum)) ∨
      ScanWriter.Fails scan.io ∧ w'.Harmed := by
  obtain ⟨hhashes, hworld⟩ := startState_unstaged scan.env resume w
  obtain ⟨flow, hloop, hflow⟩ := Option.map_eq_some_iff.mp hrun
  cases flow with
  | next r => cases hflow
  | abandon r => cases hflow
  | assertFailed => cases hflow
  | leave r =>
    rw [← hworld, ← hhashes] at hrec
    rcases records_of_leaves hreads hsound hrec hbelow hloop with
      ⟨rows, hfinishes, hrows⟩ | ⟨hfails, hdoom⟩
    · exact Or.inl ⟨r, rows, hfinishes, storeResults_spec hrows hflow⟩
    · exact Or.inr ⟨hfails, harmed_of_stored hdoom hflow⟩

end FileScan

end Oans
