import Oans.ExactRows
import Oans.LoopMoves

/-!
# The digest of a file

A from-scratch scan that stores a digest has gone a way through the file and fed what the way feeds,
and every way to the end of the file is gone by some scan whose reads stop where its moves do. So
the digest depends on the file alone exactly if the ways through it all feed the same bytes.
-/

namespace Oans

open Savepoint Slice

variable {δ : Type*}

def LoopState.fed {ω : Type*} (s : LoopState δ ω) : List UInt8 := s.ctxt.fileCsum.flatMap Fed.raw

namespace ScanEnv

variable {ω : Type*} {env : ScanEnv δ ω} {content : ℕ → UInt8} {s t : LoopState δ ω}
  {rows emit : Rows δ}

theorem Turn.way {eof : Bool} (h : env.Turn content eof s t emit)
    (hsound : env.Sound content s.ctxt s.buffer) (hlt : s.ctxt.off < env.filesize)
    (hway : env.Way content s.ctxt.off s.fed) : env.Way content t.ctxt.off t.fed := by
  cases h with
  | hole hhole hctxt hbuffer =>
    have hmove := hway.move (.hole hlt hhole)
    rw [LoopState.fed, hctxt]
    simpa [Stride.feeds, LoopState.fed] using hmove
  | faked hdata hfakes heof hctxt hbuffer =>
    have hmove := hway.move (.faked hlt hdata hfakes)
    rw [LoopState.fed, hctxt]
    simpa [Stride.feeds, LoopState.fed, Fed.raw] using hmove
  | @read _ _ _ cap stop hdata hno hcap hlo hhi hread heof hctxt hbuffer =>
    have hle := env.consumes_le eof s.ctxt.off stop
    have hcaple := hsound.le_cap hcap
    have hroom := hsound.length_le
    unfold wantAt at hhi
    rw [LoopState.fed, hctxt]
    simp only [List.flatMap_append, List.flatMap_singleton, Fed.raw]
    rcases Nat.eq_zero_or_pos (env.consumes eof s.ctxt.off stop) with hzero | hpos
    · simpa [hzero, LoopState.fed] using hway
    · exact hway.move (.read hlt hdata hno hcap (by omega) (by omega) (by omega))

theorem Makes.way (h : env.Makes content s t rows) (hsound : env.Sound content s.ctxt s.buffer)
    (hway : env.Way content s.ctxt.off s.fed) : env.Way content t.ctxt.off t.fed := by
  induction h with
  | refl => exact hway
  | turn head hlt hturn ih => exact hturn.way (head.sound hsound) hlt ih

theorem Finishes.way (h : env.Finishes content s t rows)
    (hsound : env.Sound content s.ctxt s.buffer) (hway : env.Way content s.ctxt.off s.fed) :
    env.Way content t.ctxt.off t.fed := by
  cases h with
  | done head => exact head.way hsound hway
  | last head hlt hturn => exact hturn.way (head.sound hsound) hlt (head.way hsound hway)

theorem Reaches.csumLoop_of (h : env.Reaches s t) {fuel : ℕ} {flow : Flow (LoopState δ ω)}
    (hrun : env.csumLoop fuel t = some flow) : ∃ fuel', env.csumLoop fuel' s = some flow := by
  induction h generalizing fuel with
  | refl => exact ⟨fuel, hrun⟩
  | turn _ hlt hpass ih =>
    refine @ih (fuel + 1) ?_
    rw [ScanEnv.csumLoop, if_pos hlt, hpass]
    exact hrun

theorem Ends.csumLoop {flow : Flow (LoopState δ ω)} (h : env.Ends s flow) :
    ∃ fuel, env.csumLoop fuel s = some flow := by
  cases h with
  | done hreach hge =>
    refine @Reaches.csumLoop_of _ _ _ _ _ hreach 1 _ ?_
    rw [ScanEnv.csumLoop, if_neg (by omega)]
  | pass hreach hlt hpass hlast =>
    refine @Reaches.csumLoop_of _ _ _ _ _ hreach 1 _ ?_
    rw [ScanEnv.csumLoop, if_pos hlt, hpass]
    cases flow with
    | next u => exact absurd rfl (hlast u)
    | leave u => rfl
    | abandon u => rfl
    | assertFailed => rfl

end ScanEnv

namespace Hashing

variable (job : Hashing δ) (content : ℕ → UInt8)

/-- A from-scratch scan of the file, under any options with its block size, has stored this
digest. -/
inductive Stores : δ → Prop
  | intro {scan : FileScan δ} {w w' : ScanWriter (FileHashes δ)} {fuel : ℕ} {row : ScannedFile δ}
      (hfile : scan.file = job.file) (hblock : scan.options.blocksize = job.options.blocksize)
      (hxxh : scan.xxh = job.xxh) (hreads : scan.env.ReadsFrom content)
      (hsome : scan.env.ReadsSomething) (hidle : w.Idle) (hfresh : w.view = FileHashes.empty)
      (hrun : scan.csumWholeFile fuel none w = some (.stored w'))
      (hwrites : ScanWriter.Fails scan.io → ¬ w'.Harmed)
      (hrow : w'.view.scanned = some row) : Stores row.digest

inductive Follows (next : ℕ → ℕ) : ℕ → List UInt8 → Prop
  | start : Follows next 0 []
  | move {off stop : ℕ} {stride : Stride} {raw : List UInt8} (head : Follows next off raw)
      (hmove : job.Moves off stop stride) (hnext : stride = .read → next off = stop) :
      Follows next stop (raw ++ stride.feeds content off stop)

variable {job content} {off : ℕ} {raw : List UInt8} {digest : δ}

theorem Stores.way (h : job.Stores content digest) :
    ∃ raw, job.Way content job.filesize raw ∧ digest = job.xxh raw := by
  cases h with
  | @intro scan w w' fuel row hfile hblock hxxh hreads hsome hidle hfresh hrun hwrites hrow =>
    rcases FileScan.stored_of_fresh hreads hidle hfresh hrun with
      ⟨r, rows, hfinishes, hoff, -, -, -, hscanned⟩ | ⟨hfails, hharm⟩
    · have hway := hfinishes.way (scan.env.freshState_sound content w) .start
      rw [hoff, show scan.filesize = job.filesize from congrArg FileToScan.filesize hfile] at hway
      refine ⟨_, hway.congr hfile hblock, ?_⟩
      obtain rfl := Option.some.inj (hrow.symm.trans hscanned)
      rw [← hxxh]
      rfl
    · exact absurd hharm (hwrites hfails)

theorem Follows.congr {next next' : ℕ → ℕ} (h : job.Follows content next off raw)
    (hsame : ∀ p < off, next p = next' p) : job.Follows content next' off raw := by
  induction h with
  | start => exact .start
  | @move off stop stride raw _ hmove hnext ih =>
    refine .move (ih fun p hp => hsame p (hp.trans hmove.lt)) hmove fun hread => ?_
    rw [← hsame off hmove.lt, hnext hread]

theorem Way.follows (h : job.Way content off raw) :
    ∃ next, (∀ p, p < next p) ∧ job.Follows content next off raw := by
  induction h with
  | start => exact ⟨Nat.succ, Nat.lt_succ_self, .start⟩
  | @move off stop stride raw _ hmove ih =>
    obtain ⟨next, hup, hfollows⟩ := ih
    refine ⟨Function.update next off stop, fun p => ?_, .move (hfollows.congr fun p hp => ?_)
      hmove fun _ => Function.update_self off stop next⟩
    · rcases eq_or_ne p off with rfl | hne
      · rw [Function.update_self]
        exact hmove.lt
      · rw [Function.update_of_ne hne]
        exact hup p
    · rw [Function.update_of_ne hp.ne]

variable (job content) in
/-- A scan for whole files only, whose reads stop where `next` says and whose writes all succeed. -/
def stoppingScan (next : ℕ → ℕ) : FileScan δ where
  options := ⟨job.options.blocksize, false, false, true, false⟩
  file := job.file
  xxh := job.xxh
  pacing := ⟨false, 64 * 1024, 2 ^ 30, 0⟩
  pread pos want := some (slice content pos (min (next pos) (pos + want)))
  interrupted _ := false
  io := ⟨fun _ => .ok, fun _ => false⟩
  rdonlySubvol := false

end Hashing

/-- The loop stands at `off` with nothing read ahead, having fed `raw` and staged nothing. -/
structure LoopState.Stands (job : Hashing δ) (off : ℕ) (raw : List UInt8)
    (s : LoopState δ (ScanWriter (FileHashes δ))) : Prop where
  off : s.ctxt.off = off
  fed : s.fed = raw
  unread : s.buffer.data = []
  cap : s.ctxt.off < s.ctxt.readCap → job.IsReadCap s.ctxt.off s.ctxt.readCap
  hashes : s.hashes = .empty
  world : s.world = .opened .empty
  disabled : s.checkpointsEnabled = false
  never : s.lastCheckpoint = 0

namespace Hashing

variable {job : Hashing δ} {content : ℕ → UInt8} {off stop : ℕ} {raw : List UInt8} {next : ℕ → ℕ}
  {stride : Stride} {s : LoopState δ (ScanWriter (FileHashes δ))}

theorem stoppingScan_readsFrom : (job.stoppingScan content next).env.ReadsFrom content := by
  intro pos want data h
  obtain rfl : slice content pos (min (next pos) (pos + want)) = data := Option.some.inj h
  rw [length_slice]
  refine ⟨by omega, ?_⟩
  rcases Nat.lt_or_ge (min (next pos) (pos + want)) pos with hlt | hge
  · rw [slice_eq_nil content (by omega), slice_eq_nil content (by omega)]
  · rw [Nat.add_sub_cancel' hge]

theorem stoppingScan_sound (h : s.Stands job off raw) :
    (job.stoppingScan content next).env.Sound content s.ctxt s.buffer where
  data := by simp [h.unread]
  cap hlt := h.cap hlt
  below hne := absurd h.unread hne
  inside hlt := by simpa [h.unread] using hlt
  grid hblock := by cases hblock
  partial_block hblock := by cases hblock
  consumed _ := h.unread

theorem stoppingScan_filled {eof : Bool} {s : LoopState δ (ScanWriter (FileHashes δ))}
    (hoff : s.ctxt.off = off) (hfed : s.fed = raw) (hstop : off + s.buffer.data.length = stop)
    (hcap : stop < s.ctxt.readCap → job.IsReadCap stop s.ctxt.readCap) (hhashes : s.hashes = .empty)
    (hworld : s.world = .opened .empty) (hdisabled : s.checkpointsEnabled = false)
    (hnever : s.lastCheckpoint = 0) (heof : eof = true → stop = job.filesize) :
    ∃ t, ((job.stoppingScan content next).env.hashBuffer eof s = .next t ∨
        (job.stoppingScan content next).env.hashBuffer eof s = .leave t ∧ stop = job.filesize) ∧
      t.Stands job stop (raw ++ s.buffer.data) := by
  subst hoff hfed hstop
  have hstands : ∀ t : LoopState δ (ScanWriter (FileHashes δ)),
      t.ctxt = { s.ctxt with
        fileCsum := s.ctxt.fileCsum ++ [.bytes s.buffer.data]
        off := s.ctxt.off + s.buffer.data.length } → t.buffer.data = [] →
      t.hashes = s.hashes → t.world = s.world → t.checkpointsEnabled = s.checkpointsEnabled →
      t.lastCheckpoint = s.lastCheckpoint →
      t.Stands job (s.ctxt.off + s.buffer.data.length) (s.fed ++ s.buffer.data) := by
    intro t hctxt hbuffer hhs hw hen hlast
    refine ⟨?_, ?_, hbuffer, ?_, hhs.trans hhashes, hw.trans hworld, hen.trans hdisabled,
      hlast.trans hnever⟩
    · rw [hctxt]
    · rw [LoopState.fed, hctxt]
      simp [LoopState.fed, Fed.raw]
    · rw [hctxt]
      exact hcap
  cases eof with
  | true =>
    refine ⟨_, Or.inr ⟨by simp [ScanEnv.hashBuffer, ScanEnv.processBlocks, FileScan.env,
      stoppingScan, ScanEnv.ackBytes]; rfl, heof rfl⟩, hstands _ ?_ ?_ ?_ ?_ ?_ ?_⟩
    all_goals simp
  | false =>
    refine ⟨_, Or.inl (by simp [ScanEnv.hashBuffer, ScanEnv.processBlocks, FileScan.env,
      stoppingScan, ScanEnv.ackBytes, ScanEnv.endPass, hdisabled, hworld]; rfl),
      hstands _ ?_ ?_ ?_ ?_ ?_ ?_⟩
    all_goals simp [hworld, hdisabled]

/-- From a place where the loop stands it makes the next move of the way. -/
theorem stoppingScan_pass (h : s.Stands job off raw) (hmove : job.Moves off stop stride)
    (hnext : stride = .read → next off = stop) :
    ∃ t, ((job.stoppingScan content next).env.csumPass s = .next t ∨
        (job.stoppingScan content next).env.csumPass s = .leave t ∧ stop = job.filesize) ∧
      t.Stands job stop (raw ++ stride.feeds content off stop) := by
  have hsound := @stoppingScan_sound _ job content _ _ next _ h
  obtain ⟨rfl, rfl, hunread, hcap, hhashes, hworld, hdisabled, hnever⟩ := h
  have hfst := job.fiemap.holeRunLength_fst job.blocksize job.filesize s.ctxt.off
    s.ctxt.extentCursor
  have hpos := job.fiemap.holeRun_pos_iff job.blocksize_pos hmove.lt_filesize
  have hlt := hmove.lt
  have hcap' : stop < s.ctxt.readCap → job.IsReadCap stop s.ctxt.readCap := fun hlt' =>
    (hcap (by omega)).mono hlt.le hlt'
  rcases hrun : job.fiemap.holeRunLength job.blocksize job.filesize s.ctxt.off
    s.ctxt.extentCursor with ⟨holeLength, cursor⟩
  rw [hrun] at hfst
  dsimp only at hfst
  subst hfst
  have hsame : (job.stoppingScan content next).env.fiemap.holeRunLength
      (job.stoppingScan content next).env.blocksize
      (job.stoppingScan content next).env.filesize s.ctxt.off s.ctxt.extentCursor =
      (job.fiemap.holeRun job.blocksize job.filesize s.ctxt.off, cursor) := hrun
  have hfill := fun hdata => ScanEnv.fillBuffer_spec stoppingScan_readsFrom
    (hsound.of_ctxt rfl rfl : (job.stoppingScan content next).env.Sound content
      { s.ctxt with extentCursor := cursor } s.buffer) hmove.lt_filesize hdata
  rw [ScanEnv.csumPass, hsame]
  dsimp only
  cases hmove with
  | hole hlt' hhole =>
    rw [if_pos (by omega)]
    refine ⟨_, Or.inl rfl, rfl, ?_, hunread, hcap', hhashes, hworld, hdisabled, hnever⟩
    simp [LoopState.fed, Stride.feeds]
  | faked hlt' hdata hfakes =>
    have hfill := hfill hdata
    rw [if_neg (by have := mt hpos.mp hdata; omega)]
    generalize (job.stoppingScan content next).env.fillBuffer
      { s.ctxt with extentCursor := cursor } s.buffer = filled at hfill ⊢
    cases hfill with
    | readError cap hno => exact absurd hfakes hno
    | read _ _ _ hno => exact absurd hfakes hno
    | faked cursor _ =>
      have hlen : s.ctxt.off + (List.replicate job.fakeLen (0 : UInt8)).length =
          s.ctxt.off + job.fakeLen := by rw [List.length_replicate]
      have hfit := hfakes.2
      have hdone := @stoppingScan_filled _ job content s.ctxt.off _ s.fed next
        (decide (job.filesize ≤ s.ctxt.off + job.fakeLen))
        { s with
          ctxt := { s.ctxt with extentCursor := cursor }
          buffer := ⟨List.replicate job.fakeLen 0, true⟩ }
        rfl rfl hlen hcap' hhashes hworld hdisabled hnever
        fun heof => by simpa using hfit.antisymm (of_decide_eq_true heof)
      rw [Stride.feeds, Nat.add_sub_cancel_left]
      exact hdone
  | read hlt' hdata hno hcap'' hoff hcapped hfits =>
    rename_i cap
    have hfill := hfill hdata
    rw [if_neg (by have := mt hpos.mp hdata; omega)]
    generalize (job.stoppingScan content next).env.fillBuffer
      { s.ctxt with extentCursor := cursor } s.buffer = filled at hfill ⊢
    cases hfill with
    | readError cap hno' hcap' hread => cases hread
    | faked cursor hfakes => exact absurd hfakes hno
    | read cursor cap' stop' _ hcap₂ hlo hhi hread =>
      obtain rfl := hcap''.unique hcap₂
      simp only [hunread, List.length_nil, Nat.add_zero] at hread hlo hhi
      have hat := hnext rfl
      have hlen := congrArg List.length (Option.some.inj
        (show some (slice content s.ctxt.off (min (next s.ctxt.off)
          (s.ctxt.off + wantAt s.ctxt.off 0 cap))) = _ from hread))
      rw [length_slice, length_slice, hat, wantAt] at hlen
      obtain rfl : stop = stop' := by omega
      have hcaple := hcap''.le
      have hdone := @stoppingScan_filled _ job content s.ctxt.off stop s.fed next
        (decide (job.filesize ≤ stop ∨ stop = s.ctxt.off + s.buffer.data.length))
        { s with
          ctxt := { s.ctxt with readCap := cap, extentCursor := cursor }
          buffer := ⟨slice content s.ctxt.off stop, false⟩ }
        rfl rfl (by rw [length_slice]; omega) (fun hlt' => hcap''.mono hoff.le hlt') hhashes hworld
        hdisabled hnever fun heof => by
          have := of_decide_eq_true heof
          rw [hunread, List.length_nil] at this
          omega
      exact hdone

theorem freshState_stands : LoopState.Stands job 0 []
    ((job.stoppingScan content next).env.freshState (.opened .empty)) where
  off := rfl
  fed := rfl
  unread := rfl
  cap hlt := absurd hlt (Nat.lt_irrefl 0)
  hashes := rfl
  world := rfl
  disabled := rfl
  never := rfl

/-- The loop comes to every place of the way; at the end of the file it leaves. -/
theorem Follows.ends (h : job.Follows content next off raw) :
    (∃ t, (job.stoppingScan content next).env.Reaches
        ((job.stoppingScan content next).env.freshState (.opened .empty)) t ∧
        t.Stands job off raw) ∨
      off = job.filesize ∧ ∃ t, (job.stoppingScan content next).env.Ends
        ((job.stoppingScan content next).env.freshState (.opened .empty)) (.leave t) ∧
        t.Stands job off raw := by
  induction h with
  | start => exact Or.inl ⟨_, .refl, freshState_stands⟩
  | @move off stop stride raw _ hmove hnext ih =>
    have hlt := hmove.lt_filesize
    rcases ih with ⟨s, hreach, hs⟩ | ⟨hend, -⟩
    · obtain ⟨t, hpass, ht⟩ := @stoppingScan_pass _ job content _ _ _ next _ _ hs hmove hnext
      have hslt : s.ctxt.off < job.filesize := by rwa [hs.off]
      rcases hpass with hpass | ⟨hpass, hstop⟩
      · exact Or.inl ⟨t, hreach.turn hslt hpass, ht⟩
      · exact Or.inr ⟨hstop, t, .pass hreach hslt hpass (by simp), ht⟩
    · omega

theorem stoppingScan_stores (h : s.Stands job job.filesize raw) : ∃ w',
    (job.stoppingScan content next).storeResults s = .stored w' ∧
      w'.view.scanned = some ((job.stoppingScan content next).scannedFile s.ctxt.fileCsum) := by
  have hoff : s.ctxt.off = (job.stoppingScan content next).filesize := h.off
  unfold FileScan.storeResults
  rw [if_neg (not_not_intro hoff), h.world, h.hashes, h.never]
  cases (job.stoppingScan content next).inlined <;> exact ⟨_, rfl, rfl⟩

theorem stoppingScan_readsSomething (hup : ∀ p, p < next p) :
    (job.stoppingScan content next).env.ReadsSomething := by
  intro pos want hwant _
  refine ⟨_, rfl, ?_⟩
  have := hup pos
  rw [← List.length_pos_iff, length_slice]
  omega

/-- Every way to the end of the file is gone by a scan, which stores its digest. -/
theorem Way.stores (h : job.Way content job.filesize raw) : job.Stores content (job.xxh raw) := by
  obtain ⟨next, hup, hfollows⟩ := h.follows
  have hleaves : ∃ t, (job.stoppingScan content next).env.Ends
      ((job.stoppingScan content next).env.freshState (.opened .empty)) (.leave t) ∧
      t.Stands job job.filesize raw := by
    rcases hfollows.ends with ⟨t, hreach, ht⟩ | ⟨-, ht⟩
    · exact ⟨t, .done hreach ht.off.ge, ht⟩
    · exact ht
  obtain ⟨t, hends, ht⟩ := hleaves
  obtain ⟨fuel, hloop⟩ := hends.csumLoop
  obtain ⟨w', hstored, hscanned⟩ := @stoppingScan_stores _ job content _ next _ ht
  have hrun : (job.stoppingScan content next).csumWholeFile fuel none (.opened .empty) =
      some (.stored w') := by
    rw [FileScan.csumWholeFile, ScanEnv.startState, hloop, Option.map_some]
    exact congrArg some hstored
  have hstores := @Stores.intro _ job content _ _ _ _ _ rfl rfl rfl stoppingScan_readsFrom
    (stoppingScan_readsSomething hup) (ScanWriter.opened_idle _) rfl hrun
    (fun ⟨_, hfails⟩ => absurd rfl hfails) hscanned
  rwa [← ht.fed]

end Hashing

/-- Two scans of a file always store one digest, whatever their options and reads, exactly if the
file is steady. -/
theorem file_digest_unique_iff [Nontrivial δ] (job : Hashing δ) (content : ℕ → UInt8)
    (hsize : job.filesize < 2 ^ 64) (hzero : ∀ x, job.fiemap.Hole x → content x = 0) :
    (∀ (xxh : List UInt8 → δ) (digest digest' : δ), { job with xxh := xxh }.Stores content digest →
      { job with xxh := xxh }.Stores content digest' → digest = digest') ↔
      job.Steady content := by
  constructor
  · intro hsame
    refine Hashing.steady_of_unique hsize hzero fun raw raw' hway hway' => ?_
    classical
    obtain ⟨d, d', hne⟩ := exists_pair_ne δ
    by_contra hdiff
    have h := hsame (fun fed => if fed = raw then d else d') _ _
      (Hashing.Way.stores (hway.congr rfl rfl)) (Hashing.Way.stores (hway'.congr rfl rfl))
    simp only [if_true] at h
    rw [if_neg (Ne.symm hdiff)] at h
    exact hne h
  · rintro hsteady xxh digest digest' h h'
    obtain ⟨raw, hway, rfl⟩ := h.way
    obtain ⟨raw', hway', rfl⟩ := h'.way
    rw [hsteady.way_unique (hway.congr rfl rfl) (hway'.congr rfl rfl)]

def headOnly (data : ℕ) (hdata : 0 < data) : FileToScan where
  filesize := 16384
  mtime := 0
  fiemap := ⟨[⟨0, 4096, data, FIEMAP_EXTENT_LAST⟩], by simpa using hdata, by simp⟩

def headOnlyJob (data : ℕ) (hdata : 0 < data) : Hashing (List UInt8) where
  options := ⟨eightKiB, false, false, false, false⟩
  file := headOnly data hdata
  xxh := id

def headOnlyContent (data p : ℕ) : UInt8 := if p < data then 1 else 0

theorem headOnlyContent_eq_zero {data : ℕ} {hdata : 0 < data} {p : ℕ}
    (h : (headOnlyJob data hdata).fiemap.Hole p) : headOnlyContent data p = 0 := by
  refine if_neg fun hlt => h _ (List.mem_singleton_self _) ⟨Nat.zero_le p, ?_⟩
  simpa [FiemapExtent.feEnd] using hlt

/-- The extent ends on the block grid. -/
theorem file_digest_unique_iff_headOnly :
    (headOnlyJob 8192 (by decide)).Steady (headOnlyContent 8192) ∧
      ∀ (xxh : List UInt8 → List UInt8) (digest digest' : List UInt8),
        { headOnlyJob 8192 (by decide) with xxh := xxh }.Stores (headOnlyContent 8192) digest →
        { headOnlyJob 8192 (by decide) with xxh := xxh }.Stores (headOnlyContent 8192) digest' →
        digest = digest' := by
  have hsteady : (headOnlyJob 8192 (by decide)).Steady (headOnlyContent 8192) := by
    refine Hashing.steady_of_holes_on_grid ?_ ?_
    · intro e he
      obtain rfl := List.mem_singleton.mp he
      decide
    · intro e he _ _
      obtain rfl := List.mem_singleton.mp he
      exact ⟨1, rfl⟩
  exact ⟨hsteady, (file_digest_unique_iff (headOnlyJob 8192 (by decide)) (headOnlyContent 8192)
    (by decide) fun x => headOnlyContent_eq_zero).mpr hsteady⟩

/-- Where it ends inside a block, a scan whose first read ends with the extent comes to a hole run
that others read the start of. -/
theorem headOnly_two_digests : ¬ ∀ (job : Hashing (List UInt8)) (content : ℕ → UInt8),
    (∀ x, job.fiemap.Hole x → content x = 0) → ∀ digest digest', job.Stores content digest →
      job.Stores content digest' → digest = digest' := by
  intro h
  have hcap : (headOnlyJob 4096 (by decide)).IsReadCap 0 8192 := by
    refine ⟨by decide, by decide, Or.inr ⟨⟨1, rfl⟩, by decide⟩, fun c _ hlt hdvd => ?_⟩
    obtain rfl : c = 0 := Nat.eq_zero_of_dvd_of_lt hdvd hlt
    decide
  have hread : ∀ stop, 0 < stop → stop ≤ 8192 →
      (headOnlyJob 4096 (by decide)).Moves 0 stop .read := fun stop hpos hle =>
    .read (by decide) (by decide) (by decide) hcap hpos hle
      (hle.trans (by decide : 8192 ≤ 0 + READ_BUF_LEN))
  have hhole : ∀ off, (headOnlyJob 4096 (by decide)).fiemap.HoleBlock 8192 off → off < 16384 →
      off + (headOnlyJob 4096 (by decide)).fiemap.holeRun 8192 16384 off = 16384 →
      (headOnlyJob 4096 (by decide)).Moves off 16384 .hole := fun off hhole hlt hend => by
    have hmove := @Hashing.Moves.hole _ (headOnlyJob 4096 (by decide)) off hlt hhole
    rwa [show off + (headOnlyJob 4096 (by decide)).fiemap.holeRun
      (headOnlyJob 4096 (by decide)).blocksize (headOnlyJob 4096 (by decide)).filesize off = 16384
      from hend] at hmove
  have hways : ∀ stop, (headOnlyJob 4096 (by decide)).Moves 0 stop .read →
      (headOnlyJob 4096 (by decide)).Moves stop 16384 .hole → ∃ raw,
        (headOnlyJob 4096 (by decide)).Stores (headOnlyContent 4096) raw ∧
          raw.length = stop + 16 := by
    intro stop hread hhole
    have hway : (headOnlyJob 4096 (by decide)).Way (headOnlyContent 4096) 16384 _ :=
      .move (.move .start hread) hhole
    refine ⟨_, hway.stores, ?_⟩
    change List.length (_ ++ _) = _
    rw [List.length_append, Stride.feeds, length_raw_hole, List.nil_append, Stride.feeds,
      length_slice, Nat.sub_zero]
  obtain ⟨raw, hraw, hlen⟩ := hways 4096 (hread 4096 (by decide) (by decide))
    (hhole 4096 (by decide) (by decide) (by decide))
  obtain ⟨raw', hraw', hlen'⟩ := hways 8192 (hread 8192 (by decide) (by decide))
    (hhole 8192 (by decide) (by decide) (by decide))
  have hsame := h _ _ (fun x => headOnlyContent_eq_zero) raw raw' hraw hraw'
  rw [hsame, hlen'] at hlen
  omega

end Oans
