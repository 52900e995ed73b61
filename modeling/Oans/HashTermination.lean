import Oans.ScanResume

/-!
# Whether the hash loop ends

Nothing here looks at the bytes that are read, only at how many there are: a turn skips a hole
run, consumes a faked buffer or adds bytes to the buffer. It can do none of the three when less
than a block is left over and reaches the read cap already, and it skips ahead of bytes left over
when the block at the offset is a hole all the same. Neither happens on the block grid.
-/

namespace Oans

namespace Hashing

variable {δ : Type*} (job : Hashing δ)

structure Bounded (ctxt : ScanCtxt) (buffer : Buffer) : Prop where
  cap : ctxt.off < ctxt.readCap → job.IsReadCap ctxt.off ctxt.readCap
  fits : buffer.data ≠ [] → ctxt.off < job.filesize →
    ctxt.off + buffer.data.length ≤ ctxt.readCap ∨ job.blocksize ∣ ctxt.off
  inside : ctxt.off < job.filesize → ctxt.off + buffer.data.length ≤ job.filesize
  partial_block : job.options.doBlockHash = true → buffer.data.length < job.blocksize
  consumed : job.options.doBlockHash = false → buffer.data = []

/-- The bytes left over reach the next hole block, so there is nothing to read and no block to
hash. -/
structure Wedged (ctxt : ScanCtxt) (buffer : Buffer) : Prop where
  data : ¬ job.fiemap.HoleBlock job.blocksize ctxt.off
  reads : ¬ job.Fakes ctxt.off
  cached : ctxt.off < ctxt.readCap
  reached : ctxt.off + buffer.data.length = ctxt.readCap
  before_end : ctxt.readCap < job.filesize

/-- A hole run is skipped ahead of bytes left over, which then reach past the end of the file. -/
structure Overruns (ctxt : ScanCtxt) (buffer : Buffer) : Prop where
  hole : job.fiemap.HoleBlock job.blocksize ctxt.off
  lands : ctxt.off + job.fiemap.holeRun job.blocksize job.filesize ctxt.off < job.filesize
  past_end : job.filesize <
    ctxt.off + job.fiemap.holeRun job.blocksize job.filesize ctxt.off + buffer.data.length

variable {job} {ctxt : ScanCtxt} {buffer : Buffer}

theorem Bounded.of_ctxt {c c' : ScanCtxt} {b : Buffer} (h : job.Bounded c b) (hoff : c'.off = c.off)
    (hcap : c'.readCap = c.readCap) : job.Bounded c' b := by
  refine ⟨?_, ?_, ?_, h.partial_block, h.consumed⟩
  · rw [hoff, hcap]
    exact h.cap
  · rw [hoff, hcap]
    exact h.fits
  · rw [hoff]
    exact h.inside

theorem Bounded.doBlockHash (h : job.Bounded ctxt buffer) (hne : buffer.data ≠ []) :
    job.options.doBlockHash = true := by
  by_contra hb
  exact hne (h.consumed (by simpa using hb))

theorem Bounded.length_lt (h : job.Bounded ctxt buffer) : buffer.data.length < job.blocksize := by
  cases hb : job.options.doBlockHash with
  | true => exact h.partial_block hb
  | false =>
    rw [h.consumed hb]
    exact job.blocksize_pos

theorem add_blocksize_le {b m n : ℕ} (hm : b ∣ m) (hn : b ∣ n) (hlt : m < n) : m + b ≤ n := by
  obtain ⟨k, rfl⟩ := hm
  obtain ⟨l, rfl⟩ := hn
  have hkl : k < l := by
    by_contra hge
    have := Nat.mul_le_mul_left b (show l ≤ k by omega)
    omega
  have := Nat.mul_le_mul_left b (show k + 1 ≤ l from hkl)
  rw [Nat.mul_add, Nat.mul_one] at this
  exact this

theorem Bounded.le_cap {cap : ℕ} (h : job.Bounded ctxt buffer) (hlt : ctxt.off < job.filesize)
    (hcap : job.IsReadCap ctxt.off cap) : ctxt.off + buffer.data.length ≤ cap := by
  by_cases hne : buffer.data = []
  · rw [hne]
    exact hcap.lt.le
  have hlen := List.length_pos_iff.mpr hne
  rcases h.fits hne hlt with hbelow | hgrid
  · rwa [(h.cap (by omega)).unique hcap] at hbelow
  · rcases hcap.stop with rfl | ⟨hdvd, -⟩
    · exact h.inside hlt
    · have := add_blocksize_le hgrid hdvd hcap.lt
      have := h.length_lt
      omega

/-- Bytes that reach a cap before the end of the file were read up to this cap. -/
theorem Bounded.cached_of_reached {cap : ℕ} (h : job.Bounded ctxt buffer)
    (hlt : ctxt.off < job.filesize) (hcap : job.IsReadCap ctxt.off cap)
    (hreach : ctxt.off + buffer.data.length = cap) (hend : cap < job.filesize) :
    ctxt.off < ctxt.readCap ∧ ctxt.readCap = cap := by
  have hne : buffer.data ≠ [] := by
    intro hempty
    rw [hempty] at hreach
    have := hcap.lt
    simp only [List.length_nil] at hreach
    omega
  have hlen := List.length_pos_iff.mpr hne
  rcases h.fits hne hlt with hbelow | hgrid
  · have hoff : ctxt.off < ctxt.readCap := by omega
    exact ⟨hoff, (h.cap hoff).unique hcap⟩
  · exfalso
    rcases hcap.stop with rfl | ⟨hdvd, -⟩
    · omega
    · have := add_blocksize_le hgrid hdvd hcap.lt
      have := h.length_lt
      omega

end Hashing

namespace ScanEnv

variable {δ ω : Type*} (env : ScanEnv δ ω)

def ReadsAtMost : Prop := ∀ pos want data, env.pread pos want = some data → data.length ≤ want

inductive FillCounts (ctxt : ScanCtxt) (buffer : Buffer) : Fill → Prop
  | readError : FillCounts ctxt buffer .readError
  | faked (cursor : ℕ) (hfakes : env.Fakes ctxt.off) :
      FillCounts ctxt buffer
        (.filled (env.filesize ≤ ctxt.off + env.fakeLen) { ctxt with extentCursor := cursor }
          ⟨List.replicate env.fakeLen 0, true⟩)
  /-- the cap is reached, and no read is made -/
  | reached (cursor cap : ℕ) (hno : ¬ env.Fakes ctxt.off) (hcap : env.IsReadCap ctxt.off cap)
      (hreach : ctxt.off + buffer.data.length = cap) :
      FillCounts ctxt buffer
        (.filled (env.filesize ≤ cap) { ctxt with readCap := cap, extentCursor := cursor }
          ⟨buffer.data, false⟩)
  | shrunk (cursor cap : ℕ) :
      FillCounts ctxt buffer
        (.filled true { ctxt with readCap := cap, extentCursor := cursor } ⟨buffer.data, false⟩)
  | read (cursor cap : ℕ) (bytes : List UInt8) (hno : ¬ env.Fakes ctxt.off)
      (hcap : env.IsReadCap ctxt.off cap) (hne : bytes ≠ [])
      (hle : ctxt.off + buffer.data.length + bytes.length ≤ cap)
      (hread : env.pread (ctxt.off + buffer.data.length)
        (wantAt ctxt.off buffer.data.length cap) = some bytes) :
      FillCounts ctxt buffer
        (.filled (env.filesize ≤ ctxt.off + buffer.data.length + bytes.length)
          { ctxt with readCap := cap, extentCursor := cursor } ⟨buffer.data ++ bytes, false⟩)

variable {env} {ctxt : ScanCtxt} {buffer : Buffer}

theorem refreshReadCap_isReadCap
    (h : ctxt.off < ctxt.readCap → env.IsReadCap ctxt.off ctxt.readCap)
    (hlt : ctxt.off < env.filesize) (hdata : ¬ env.fiemap.HoleBlock env.blocksize ctxt.off) (cursor : ℕ) :
    ∃ cap, env.IsReadCap ctxt.off cap ∧ env.refreshReadCap { ctxt with extentCursor := cursor } =
      { ctxt with readCap := cap, extentCursor := cursor } := by
  by_cases hcap : ctxt.readCap ≤ ctxt.off
  · exact ⟨_, Fiemap.nextHoleBlock_isReadCap env.blocksize_pos cursor hlt hdata,
      by rw [refreshReadCap, if_pos hcap]⟩
  · exact ⟨ctxt.readCap, h (by omega), by rw [refreshReadCap, if_neg hcap]⟩

theorem fillBuffer_eq_readMore (env : ScanEnv δ ω) (ctxt : ScanCtxt) (buffer : Buffer)
    (h : ctxt.off < ctxt.readCap → env.IsReadCap ctxt.off ctxt.readCap)
    (hlt : ctxt.off < env.filesize) (hdata : ¬ env.fiemap.HoleBlock env.blocksize ctxt.off)
    (hno : ¬ env.Fakes ctxt.off) :
    ∃ cursor cap, env.IsReadCap ctxt.off cap ∧ env.fillBuffer ctxt buffer =
      env.readMore { ctxt with readCap := cap, extentCursor := cursor } buffer := by
  have hignored := env.fiemap.isAreaIgnored_fst ctxt.off env.fakeLen ctxt.extentCursor
  rw [fillBuffer]
  rcases harea : env.fiemap.isAreaIgnored ctxt.off env.fakeLen ctxt.extentCursor with
    ⟨ignored, cursor⟩
  rw [harea] at hignored
  subst hignored
  obtain ⟨cap, hcap, hrefresh⟩ := refreshReadCap_isReadCap h hlt hdata cursor
  refine ⟨cursor, cap, hcap, ?_⟩
  simp only [decide_eq_true_eq]
  rw [if_neg (by exact hno), hrefresh]

theorem fillBuffer_faked (buffer : Buffer) (hfakes : env.Fakes ctxt.off) :
    ∃ cursor, env.fillBuffer ctxt buffer =
    .filled (env.filesize ≤ ctxt.off + env.fakeLen) { ctxt with extentCursor := cursor }
      ⟨List.replicate env.fakeLen 0, true⟩ := by
  have hignored := env.fiemap.isAreaIgnored_fst ctxt.off env.fakeLen ctxt.extentCursor
  rw [fillBuffer]
  rcases harea : env.fiemap.isAreaIgnored ctxt.off env.fakeLen ctxt.extentCursor with
    ⟨ignored, cursor⟩
  rw [harea] at hignored
  subst hignored
  refine ⟨cursor, ?_⟩
  simp only [decide_eq_true_eq]
  rw [if_pos (by exact hfakes)]

theorem readMore_reached (h : env.Bounded ctxt buffer)
    (hreach : ctxt.off + buffer.data.length = ctxt.readCap) (hne : buffer.data ≠ []) :
    env.readMore ctxt buffer =
      .filled (env.filesize ≤ ctxt.readCap) ctxt ⟨buffer.data, false⟩ := by
  have hlen := h.length_lt
  have hroom := env.blocksize_le_readBufLen
  have hfit : ¬ READ_BUF_LEN < buffer.data.length := by omega
  rw [readMore]
  simp [hreach, hfit, hne]

theorem readMore_read (env : ScanEnv δ ω) (ctxt : ScanCtxt) (buffer : Buffer)
    (hle : ctxt.off + buffer.data.length ≤ ctxt.readCap)
    (hpos : 0 < wantAt ctxt.off buffer.data.length ctxt.readCap) {bytes : List UInt8}
    (hread : env.pread (ctxt.off + buffer.data.length)
      (wantAt ctxt.off buffer.data.length ctxt.readCap) = some bytes) (hne : bytes ≠ [])
    (hbytes : bytes.length ≤ wantAt ctxt.off buffer.data.length ctxt.readCap) :
    env.readMore ctxt buffer =
      .filled (env.filesize ≤ ctxt.off + buffer.data.length + bytes.length) ctxt
        ⟨buffer.data ++ bytes, false⟩ := by
  have hfit : ¬ READ_BUF_LEN < (buffer.data ++ bytes).length := by
    unfold wantAt at hbytes hpos
    rw [List.length_append]
    omega
  have happend : buffer.data ++ bytes ≠ [] := by simp [hne]
  have hwant : min (READ_BUF_LEN - buffer.data.length)
    (ctxt.readCap - (ctxt.off + buffer.data.length)) =
      wantAt ctxt.off buffer.data.length ctxt.readCap := rfl
  rw [readMore]
  dsimp only
  rw [if_neg (show ¬ ctxt.readCap < ctxt.off + buffer.data.length by omega), hwant, if_pos hpos,
    hread]
  simp only [hne, and_false, if_false, hfit, happend, or_false]

theorem fillBuffer_counts (hreads : env.ReadsAtMost) (h : env.Bounded ctxt buffer)
    (hlt : ctxt.off < env.filesize) (hdata : ¬ env.fiemap.HoleBlock env.blocksize ctxt.off) :
    env.FillCounts ctxt buffer (env.fillBuffer ctxt buffer) := by
  by_cases hfakes : env.Fakes ctxt.off
  · obtain ⟨cursor, heq⟩ := fillBuffer_faked buffer hfakes
    rw [heq]
    exact .faked cursor hfakes
  obtain ⟨cursor, cap, hcap, heq⟩ := env.fillBuffer_eq_readMore ctxt buffer h.cap hlt hdata hfakes
  have hle := h.le_cap hlt hcap
  have hlen := h.length_lt
  have hroom := env.blocksize_le_readBufLen
  rw [heq]
  by_cases hreach : ctxt.off + buffer.data.length = cap
  · have hne : buffer.data ≠ [] := by
      intro hempty
      rw [hempty] at hreach
      have := hcap.lt
      simp only [List.length_nil] at hreach
      omega
    have hb : env.Bounded { ctxt with readCap := cap, extentCursor := cursor } buffer :=
      ⟨fun _ => hcap, fun _ _ => Or.inl hle, h.inside, h.partial_block, h.consumed⟩
    rw [readMore_reached hb hreach hne]
    exact .reached cursor cap hfakes hcap hreach
  · have hpos : 0 < wantAt ctxt.off buffer.data.length cap := by
      unfold wantAt
      omega
    cases hread : env.pread (ctxt.off + buffer.data.length)
      (wantAt ctxt.off buffer.data.length cap) with
    | none =>
      have hno : env.readMore { ctxt with readCap := cap, extentCursor := cursor } buffer =
          .readError := by
        rw [readMore]
        dsimp only
        rw [if_neg (show ¬ cap < ctxt.off + buffer.data.length by omega)]
        rw [show min (READ_BUF_LEN - buffer.data.length)
          (cap - (ctxt.off + buffer.data.length)) = wantAt ctxt.off buffer.data.length cap from rfl,
          if_pos hpos, hread]
      rw [hno]
      exact .readError
    | some bytes =>
      have hbytes := hreads _ _ _ hread
      by_cases hempty : bytes = []
      · subst hempty
        have hno : env.readMore { ctxt with readCap := cap, extentCursor := cursor } buffer =
            .filled true { ctxt with readCap := cap, extentCursor := cursor }
              ⟨buffer.data, false⟩ := by
          rw [readMore]
          dsimp only
          rw [if_neg (show ¬ cap < ctxt.off + buffer.data.length by omega)]
          rw [show min (READ_BUF_LEN - buffer.data.length)
            (cap - (ctxt.off + buffer.data.length)) = wantAt ctxt.off buffer.data.length cap
              from rfl, if_pos hpos, hread]
          simp [hpos]
        rw [hno]
        exact .shrunk cursor cap
      · have hcaple : ctxt.off + buffer.data.length + bytes.length ≤ cap := by
          unfold wantAt at hbytes
          omega
        rw [env.readMore_read { ctxt with readCap := cap, extentCursor := cursor } buffer hle hpos hread
          hempty hbytes]
        exact .read cursor cap bytes hfakes hcap hempty hcaple hread

variable (env)

inductive Moves (s t : LoopState δ ω) : Prop
  | hole (hhole : env.fiemap.HoleBlock env.blocksize s.ctxt.off)
      (hoff : t.ctxt.off =
        s.ctxt.off + env.fiemap.holeRun env.blocksize env.filesize s.ctxt.off)
      (hcap : t.ctxt.readCap = s.ctxt.readCap) (hbuffer : t.buffer = s.buffer)
  | faked (hfakes : env.Fakes s.ctxt.off) (hoff : t.ctxt.off = s.ctxt.off + env.fakeLen)
      (hcap : t.ctxt.readCap = s.ctxt.readCap) (hbuffer : t.buffer.data = [])
  | read (cap stop : ℕ) (hdata : ¬ env.fiemap.HoleBlock env.blocksize s.ctxt.off)
      (hno : ¬ env.Fakes s.ctxt.off) (hcap : env.IsReadCap s.ctxt.off cap)
      (hhi : stop ≤ cap) (hin : stop < env.filesize)
      (hstop : stop = s.ctxt.off + s.buffer.data.length ∧ stop = cap ∨
        ∃ bytes, env.pread (s.ctxt.off + s.buffer.data.length)
            (wantAt s.ctxt.off s.buffer.data.length cap) = some bytes ∧ bytes ≠ [] ∧
          stop = s.ctxt.off + s.buffer.data.length + bytes.length)
      (hoff : t.ctxt.off = s.ctxt.off + env.consumes false s.ctxt.off stop)
      (hcap' : t.ctxt.readCap = cap)
      (hlen : t.buffer.data.length = stop - s.ctxt.off - env.consumes false s.ctxt.off stop)

variable {env} {s t : LoopState δ ω}

theorem le_of_stop {pos cap stop want : ℕ} (h : stop = pos ∧ stop = cap ∨
    ∃ bytes, env.pread pos want = some bytes ∧ bytes ≠ [] ∧ stop = pos + bytes.length) :
    pos ≤ stop ∧ (stop = pos → stop = cap) := by
  rcases h with ⟨heq, hcap⟩ | ⟨bytes, -, hne, heq⟩
  · exact ⟨heq.ge, fun _ => hcap⟩
  · have := List.length_pos_iff.mpr hne
    exact ⟨by omega, fun _ => by omega⟩

/-- The end of a turn from a filled buffer on. -/
theorem hashBuffer_moves {eof : Bool} {f : LoopState δ ω} (hhashes : f.hashes = s.hashes)
    (hworld : f.world = s.world)
    (hmoves : eof = false → ∀ t : LoopState δ ω,
      t.ctxt.off = f.ctxt.off + env.processed f.buffer → t.ctxt.readCap = f.ctxt.readCap →
      t.buffer.data = f.buffer.data.drop (env.processed f.buffer) → env.Moves s t) :
    match env.hashBuffer eof f with
    | .next t => env.DrainFails s t ∨ env.Moves s t
    | .leave _ => True
    | .abandon _ => True
    | .assertFailed => False := by
  have hdrain : ∀ t, env.DrainFails f t → env.DrainFails s t := by
    rintro t ⟨rows, hpos, hev⟩
    rw [hhashes, hworld] at hpos hev
    exact ⟨rows, hpos, hev⟩
  rcases env.hashBuffer_spec eof f with ⟨t, ht, -⟩ | ⟨t, ht | ht, hfails, -⟩ |
    ⟨f', ⟨hctxt, hbuf⟩, -, hflow⟩
  · rw [ht]
    trivial
  · rw [ht]
    exact Or.inl (hdrain t hfails)
  · rw [ht]
    trivial
  · cases eof with
    | true =>
      rw [if_pos rfl] at hflow
      rw [hflow]
      trivial
    | false =>
      rw [if_neg (by simp)] at hflow
      rw [hflow]
      cases hend : env.endPass (env.ackBytes f' (env.processed f.buffer)) with
      | next t =>
        obtain ⟨⟨htc, htb⟩, -⟩ := endPass_spec hend
        have hoff : t.ctxt.off = f.ctxt.off + env.processed f.buffer := by
          rw [htc, ackBytes_ctxt, hctxt]
        have hcap : t.ctxt.readCap = f.ctxt.readCap := by
          rw [htc, ackBytes_ctxt, hctxt]
        refine Or.inr (hmoves rfl t hoff hcap ?_)
        rw [htb, ackBytes_buffer, hbuf]
      | leave t => exact absurd hend (endPass_ne_leave _ _)
      | abandon t => trivial
      | assertFailed => exact absurd hend (endPass_ne_assertFailed _)

theorem processed_eq_consumes (env : ScanEnv δ ω) (data : List UInt8) (off stop : ℕ)
    (hstop : stop = off + data.length) : env.processed ⟨data, false⟩ = env.consumes false off stop := by
  have hlen : stop - off = data.length := by omega
  unfold Hashing.processed Hashing.consumes
  rw [hlen]
  simp

/-- A turn that skips no hole is what becomes of the filled buffer. -/
theorem csumPass_of_data (hlt : s.ctxt.off < env.filesize)
    (hdata : ¬ env.fiemap.HoleBlock env.blocksize s.ctxt.off) : ∃ cursor, env.csumPass s =
      match env.fillBuffer { s.ctxt with extentCursor := cursor } s.buffer with
      | .readError => .abandon { s with ctxt := { s.ctxt with extentCursor := cursor } }
      | .assertFailed => .assertFailed
      | .filled eof ctxt buffer => env.hashBuffer eof { s with ctxt := ctxt, buffer := buffer } := by
  have hfst := env.fiemap.holeRunLength_fst env.blocksize env.filesize s.ctxt.off
    s.ctxt.extentCursor
  have hpos := mt (env.fiemap.holeRun_pos_iff env.blocksize_pos hlt).mp hdata
  unfold csumPass
  rcases hrun : env.fiemap.holeRunLength env.blocksize env.filesize s.ctxt.off
    s.ctxt.extentCursor with ⟨holeLength, cursor⟩
  rw [hrun] at hfst
  simp only at hfst
  refine ⟨cursor, ?_⟩
  dsimp only
  exact if_neg (show ¬ holeLength ≠ 0 by omega)

theorem csumPass_of_hole (hlt : s.ctxt.off < env.filesize)
    (hhole : env.fiemap.HoleBlock env.blocksize s.ctxt.off) : ∃ t, env.csumPass s = .next t ∧
      t.ctxt.off = s.ctxt.off + env.fiemap.holeRun env.blocksize env.filesize s.ctxt.off ∧
      t.ctxt.readCap = s.ctxt.readCap ∧ t.buffer = s.buffer := by
  have hfst := env.fiemap.holeRunLength_fst env.blocksize env.filesize s.ctxt.off
    s.ctxt.extentCursor
  have hpos := (env.fiemap.holeRun_pos_iff env.blocksize_pos hlt).mpr hhole
  unfold csumPass
  rcases hrun : env.fiemap.holeRunLength env.blocksize env.filesize s.ctxt.off
    s.ctxt.extentCursor with ⟨holeLength, cursor⟩
  rw [hrun] at hfst
  simp only at hfst
  subst hfst
  dsimp only
  rw [if_pos (show env.fiemap.holeRun env.blocksize env.filesize s.ctxt.off ≠ 0 by omega)]
  exact ⟨_, rfl, rfl, rfl, rfl⟩

theorem csumPass_moves (hreads : env.ReadsAtMost) (h : env.Bounded s.ctxt s.buffer)
    (hlt : s.ctxt.off < env.filesize) :
    match env.csumPass s with
    | .next t => env.DrainFails s t ∨ env.Moves s t
    | .leave _ => True
    | .abandon _ => True
    | .assertFailed => False := by
  by_cases hhole : env.fiemap.HoleBlock env.blocksize s.ctxt.off
  · obtain ⟨t, heq, hoff, hcap, hbuffer⟩ := csumPass_of_hole hlt hhole
    rw [heq]
    exact Or.inr (.hole hhole hoff hcap hbuffer)
  · obtain ⟨cursor, heq⟩ := csumPass_of_data hlt hhole
    have hbounded : env.Bounded { s.ctxt with extentCursor := cursor } s.buffer :=
      h.of_ctxt rfl rfl
    rw [heq]
    have hfill := fillBuffer_counts hreads hbounded hlt hhole
    generalize env.fillBuffer { s.ctxt with extentCursor := cursor } s.buffer = filled at hfill
    cases hfill with
    | readError => trivial
    | faked cursor hfakes =>
      refine hashBuffer_moves rfl rfl fun _ t hoff hcap hdata => .faked hfakes ?_ hcap ?_
      · simpa [Hashing.processed] using hoff
      · simpa [Hashing.processed] using hdata
    | reached cursor cap hno hcap hreach =>
      refine hashBuffer_moves rfl rfl fun heof t hoff hcap' hdata => ?_
      have hend : cap < env.filesize := by simpa using heof
      have hproc := env.processed_eq_consumes s.buffer.data s.ctxt.off cap hreach.symm
      dsimp only at hoff hcap' hdata hreach
      rw [hproc] at hoff hdata
      refine .read cap cap hhole hno hcap le_rfl hend (Or.inl ⟨hreach.symm, rfl⟩) hoff hcap' ?_
      rw [hdata, List.length_drop]
      omega
    | shrunk cursor cap => exact hashBuffer_moves rfl rfl fun heof => by simp at heof
    | read cursor cap bytes hno hcap hne hle hread =>
      refine hashBuffer_moves rfl rfl fun heof t hoff hcap' hdata => ?_
      have hend : s.ctxt.off + s.buffer.data.length + bytes.length < env.filesize := by
        simpa using heof
      have hblen := List.length_pos_iff.mpr hne
      have hproc := env.processed_eq_consumes (s.buffer.data ++ bytes) s.ctxt.off
        (s.ctxt.off + s.buffer.data.length + bytes.length) (by rw [List.length_append]; omega)
      dsimp only at hoff hcap' hdata hle hread
      rw [hproc] at hoff hdata
      refine .read cap _ hhole hno hcap hle hend (Or.inr ⟨bytes, hread, hne, rfl⟩) hoff hcap' ?_
      rw [hdata, List.length_drop, List.length_append]
      omega

theorem Moves.bounded (hm : env.Moves s t) (h : env.Bounded s.ctxt s.buffer)
    (hlt : s.ctxt.off < env.filesize) (hover : ¬ env.Overruns s.ctxt s.buffer) :
    env.Bounded t.ctxt t.buffer := by
  cases hm with
  | hole hhole hoff hcap hbuffer =>
    have hrun := (env.fiemap.holeRun_pos_iff env.blocksize_pos hlt).mpr hhole
    refine ⟨fun hlt' => ?_, fun _ hin => Or.inr ?_, fun hin => ?_, ?_, ?_⟩
    · rw [hoff, hcap] at hlt'
      rw [hoff, hcap]
      exact (h.cap (by omega)).mono (by omega) hlt'
    · rw [hoff] at hin ⊢
      cases hnext : env.fiemap.nextExtent s.ctxt.off with
      | none =>
        simp only [Fiemap.holeRun, hnext] at hin
        omega
      | some e => exact Fiemap.dvd_add_holeRun hnext hrun
    · rw [hoff] at hin
      rw [hoff, hbuffer]
      by_contra hgt
      exact hover ⟨hhole, hin, by omega⟩
    · rw [hbuffer]
      exact h.partial_block
    · rw [hbuffer]
      exact h.consumed
  | faked hfakes hoff hcap hbuffer =>
    refine ⟨fun hlt' => ?_, fun hne => absurd hbuffer hne, fun hin => ?_, fun _ => ?_,
      fun _ => hbuffer⟩
    · rw [hoff, hcap] at hlt'
      rw [hoff, hcap]
      exact (h.cap (by omega)).mono (by omega) hlt'
    · rw [hbuffer]
      exact hin.le
    · rw [hbuffer]
      exact env.blocksize_pos
  | read cap stop hdata hno hcap hhi hin hstop hoff hcap' hlen =>
    have hle := env.consumes_le false s.ctxt.off stop
    obtain ⟨hlo, hnone⟩ := le_of_stop hstop
    refine ⟨fun hlt' => ?_, fun _ _ => Or.inl ?_, fun _ => ?_, fun hblock => ?_, fun hblock => ?_⟩
    · rw [hoff, hcap'] at hlt'
      rw [hoff, hcap']
      exact hcap.mono (by omega) hlt'
    · rw [hoff, hcap', hlen]
      omega
    · rw [hoff, hlen]
      omega
    · rw [hlen]
      simp only [Hashing.consumes, hblock, Bool.false_eq_true, Bool.true_eq_false, or_self, if_false]
      have hmod := Nat.div_add_mod' (stop - s.ctxt.off) env.blocksize
      have := Nat.mod_lt (stop - s.ctxt.off) env.blocksize_pos
      omega
    · rw [← List.length_eq_zero_iff, hlen]
      simp [Hashing.consumes, hblock]

theorem Moves.progress (hm : env.Moves s t) (h : env.Bounded s.ctxt s.buffer)
    (hlt : s.ctxt.off < env.filesize) (hwedge : ¬ env.Wedged s.ctxt s.buffer) :
    s.ctxt.off ≤ t.ctxt.off ∧
      s.ctxt.off + s.buffer.data.length < t.ctxt.off + t.buffer.data.length := by
  cases hm with
  | hole hhole hoff hcap hbuffer =>
    have hrun := (env.fiemap.holeRun_pos_iff env.blocksize_pos hlt).mpr hhole
    rw [hoff, hbuffer]
    omega
  | faked hfakes hoff hcap hbuffer =>
    have hfake := env.blocksize_le_fakeLen
    have hlen := h.length_lt
    rw [hoff, hbuffer, List.length_nil]
    omega
  | read cap stop hdata hno hcap hhi hin hstop hoff hcap' hlen =>
    have hle := env.consumes_le false s.ctxt.off stop
    obtain ⟨hlo, hnone⟩ := le_of_stop hstop
    have hne : stop ≠ s.ctxt.off + s.buffer.data.length := by
      intro heq
      have hreach : s.ctxt.off + s.buffer.data.length = cap := heq ▸ hnone heq
      obtain ⟨hcached, hsame⟩ := h.cached_of_reached hlt hcap hreach (by omega)
      exact hwedge ⟨hdata, hno, hcached, hreach.trans hsame.symm, by omega⟩
    rw [hoff, hlen]
    omega

section Run

variable (hreads : env.ReadsAtMost) (hquiet : env.FlushesQuietly)

include hreads hquiet

theorem moves_of_next (h : env.Bounded s.ctxt s.buffer) (hlt : s.ctxt.off < env.filesize)
    (hpass : env.csumPass s = .next t) : env.Moves s t := by
  have hspec := csumPass_moves hreads h hlt
  rw [hpass] at hspec
  exact hspec.resolve_left (hquiet.not_drainFails s t)

/-- While no turn before it starts wedged or overruns, a state that is reached is bounded. -/
theorem Reaches.bounded {start : LoopState δ ω} (hstart : env.Bounded start.ctxt start.buffer)
    (hreach : env.Reaches start t) (hover : ∀ u, env.Reaches start u → u.ctxt.off < env.filesize →
      ¬ env.Overruns u.ctxt u.buffer) : env.Bounded t.ctxt t.buffer := by
  induction hreach with
  | refl => exact hstart
  | turn head hlt hpass ih =>
    exact (moves_of_next hreads hquiet ih hlt hpass).bounded ih hlt (hover _ head hlt)

/-- The loop ends within as many turns as bytes are left, and no assertion fails. -/
theorem csumLoop_ends_of_moving {fuel : ℕ} (h : env.Bounded s.ctxt s.buffer)
    (hmoving : ∀ u, env.Reaches s u → u.ctxt.off < env.filesize →
      ¬ env.Wedged u.ctxt u.buffer ∧ ¬ env.Overruns u.ctxt u.buffer)
    (hfuel : env.filesize - (s.ctxt.off + s.buffer.data.length) + 1 < fuel) :
    ∃ flow, env.csumLoop fuel s = some flow ∧ flow ≠ .assertFailed := by
  induction fuel generalizing s with
  | zero => omega
  | succ fuel ih =>
    rw [csumLoop]
    by_cases hlt : s.ctxt.off < env.filesize
    · rw [if_pos hlt]
      have hspec := csumPass_moves hreads h hlt
      obtain ⟨hwedge, hover⟩ := hmoving s .refl hlt
      cases hpass : env.csumPass s with
      | next t =>
        have hm := moves_of_next hreads hquiet h hlt hpass
        obtain ⟨-, hprog⟩ := hm.progress h hlt hwedge
        have hb := hm.bounded h hlt hover
        by_cases hge : t.ctxt.off < env.filesize
        · have hin := hb.inside hge
          exact ih hb (fun u hu => hmoving u (hu.head hlt hpass)) (by omega)
        · refine ⟨.leave t, ?_, by simp⟩
          cases fuel with
          | zero => omega
          | succ fuel =>
            change env.csumLoop (fuel + 1) t = some (.leave t)
            rw [csumLoop, if_neg hge]
      | leave t => exact ⟨_, rfl, by simp⟩
      | abandon t => exact ⟨_, rfl, by simp⟩
      | assertFailed =>
        rw [hpass] at hspec
        exact hspec.elim
    · rw [if_neg hlt]
      exact ⟨_, rfl, by simp⟩

end Run

/-- An undisturbed turn that does not come to the end of the file is followed by another. -/
theorem Undisturbed.hashBuffer_next (hu : env.Undisturbed) (s : LoopState δ ω) :
    ∃ t, env.hashBuffer false s = .next t := by
  rcases hu.hashBuffer false s with hnext | ⟨t, hleave⟩
  · exact hnext
  · rcases env.hashBuffer_spec false s with ⟨u, hf, -⟩ | ⟨u, -, hf, -⟩ | ⟨f, -, -, hf⟩
    · rw [hf] at hleave
      cases hleave
    · exact absurd hf (hu.quiet.not_drainFails _ u)
    · rw [if_neg (by simp)] at hf
      exact absurd (hf.symm.trans hleave) (endPass_ne_leave _ _)

/-- A wedged turn of an undisturbed run leaves everything as it is. -/
theorem Undisturbed.csumPass_wedged (hu : env.Undisturbed) (hreads : env.ReadsAtMost)
    (h : env.Bounded s.ctxt s.buffer) (hlt : s.ctxt.off < env.filesize)
    (hw : env.Wedged s.ctxt s.buffer) : ∃ t, env.csumPass s = .next t ∧ t.ctxt.off = s.ctxt.off ∧
      t.ctxt.readCap = s.ctxt.readCap ∧ t.buffer.data.length = s.buffer.data.length := by
  have hcap := h.cap hw.cached
  have hlen := h.length_lt
  have hreach := hw.reached
  have hend := hw.before_end
  have hne : s.buffer.data ≠ [] := by
    intro hempty
    have := hw.cached
    rw [hempty, List.length_nil] at hreach
    omega
  have hblock := h.doBlockHash hne
  have hnext : ∃ t, env.csumPass s = .next t := by
    obtain ⟨cursor, heq⟩ := csumPass_of_data hlt hw.data
    have hb : env.Bounded { s.ctxt with extentCursor := cursor } s.buffer := h.of_ctxt rfl rfl
    obtain ⟨cursor', cap, hcap', hfill⟩ :=
      env.fillBuffer_eq_readMore _ _ hb.cap hlt hw.data hw.reads
    obtain rfl := hcap.unique hcap'
    rw [heq, hfill.trans (readMore_reached (hb.of_ctxt rfl rfl) hreach hne)]
    dsimp only
    rw [show decide (env.filesize ≤ s.ctxt.readCap) = false by simpa using hend]
    exact hu.hashBuffer_next _
  obtain ⟨t, hpass⟩ := hnext
  refine ⟨t, hpass, ?_⟩
  cases moves_of_next hreads hu.quiet h hlt hpass with
  | hole hhole => exact absurd hhole hw.data
  | faked hfakes => exact absurd hfakes hw.reads
  | read cap stop hdata hno hcap' hhi hin hstop hoff hcap'' hlen' =>
    obtain ⟨hlo, -⟩ := le_of_stop hstop
    clear hstop
    obtain rfl := hcap.unique hcap'
    obtain rfl : stop = s.ctxt.readCap := by omega
    have hconsumes : env.consumes false s.ctxt.off s.ctxt.readCap = 0 := by
      have hdiv : (s.ctxt.readCap - s.ctxt.off) / env.blocksize = 0 :=
        Nat.div_eq_of_lt (by omega)
      simp [Hashing.consumes, hblock, hdiv]
    rw [hconsumes] at hoff hlen'
    exact ⟨hoff, hcap'', by omega⟩

/-- From a wedged state an undisturbed loop never ends. -/
theorem Undisturbed.csumLoop_wedged (hu : env.Undisturbed) (hreads : env.ReadsAtMost) (fuel : ℕ)
    (h : env.Bounded s.ctxt s.buffer) (hlt : s.ctxt.off < env.filesize)
    (hw : env.Wedged s.ctxt s.buffer) : env.csumLoop fuel s = none := by
  induction fuel generalizing s with
  | zero => rfl
  | succ fuel ih =>
    obtain ⟨t, hpass, hoff, hcap, hlen⟩ := hu.csumPass_wedged hreads h hlt hw
    rw [ScanEnv.csumLoop, if_pos hlt, hpass]
    have hm := moves_of_next hreads hu.quiet h hlt hpass
    refine ih (hm.bounded h hlt fun ho => hw.data ho.hole) (by omega) ?_
    constructor
    · rw [hoff]
      exact hw.data
    · rw [hoff]
      exact hw.reads
    · rw [hoff, hcap]
      exact hw.cached
    · rw [hoff, hcap, hlen]
      exact hw.reached
    · rw [hcap]
      exact hw.before_end

theorem csumPass_past_end (hcap : s.ctxt.off < s.ctxt.readCap →
      env.IsReadCap s.ctxt.off s.ctxt.readCap) (hlt : s.ctxt.off < env.filesize)
    (hdata : ¬ env.fiemap.HoleBlock env.blocksize s.ctxt.off)
    (hlen : s.buffer.data.length < env.blocksize)
    (hpast : env.filesize < s.ctxt.off + s.buffer.data.length) :
    env.csumPass s = .assertFailed := by
  have hfake := env.blocksize_le_fakeLen
  have hno : ¬ env.Fakes s.ctxt.off := fun hf => by
    have := hf.2
    omega
  obtain ⟨cursor, heq⟩ := csumPass_of_data hlt hdata
  obtain ⟨cursor', cap, hcap', hfill⟩ := env.fillBuffer_eq_readMore
    { s.ctxt with extentCursor := cursor } s.buffer hcap hlt hdata hno
  have hle := hcap'.le
  have hfail : env.readMore { s.ctxt with readCap := cap, extentCursor := cursor' } s.buffer =
      .assertFailed := by
    rw [readMore]
    dsimp only at hle ⊢
    rw [if_pos (by omega)]
  rw [heq, hfill.trans hfail]

/-- A hole run that overruns ends where the assertion on the read cap fails. -/
theorem csumLoop_overruns (h : env.Bounded s.ctxt s.buffer) (hlt : s.ctxt.off < env.filesize)
    (ho : env.Overruns s.ctxt s.buffer) {fuel : ℕ} {flow : Flow (LoopState δ ω)}
    (hrun : env.csumLoop fuel s = some flow) : flow = .assertFailed := by
  obtain ⟨t, hpass, hoff, hcap, hbuffer⟩ := csumPass_of_hole hlt ho.hole
  have hpos := (env.fiemap.holeRun_pos_iff env.blocksize_pos hlt).mpr ho.hole
  have hlands := ho.lands
  obtain ⟨fuel', hrun'⟩ := (Reaches.turn .refl hlt hpass).csumLoop hrun
  -- the run ends at the block of a record
  have hdata : ¬ env.fiemap.HoleBlock env.blocksize
      (s.ctxt.off + env.fiemap.holeRun env.blocksize env.filesize s.ctxt.off) := by
    cases hnext : env.fiemap.nextExtent s.ctxt.off with
    | none =>
      simp only [Fiemap.holeRun, hnext] at hlands
      omega
    | some e =>
      have he := Fiemap.feEnd_pos (List.mem_of_find?_eq_some hnext)
      have hnear := lt_floorBlock_add env.blocksize_pos e.feLogical
      have hfloor := floorBlock_le env.blocksize e.feLogical
      have hrun : s.ctxt.off + env.fiemap.holeRun env.blocksize env.filesize s.ctxt.off =
          floorBlock env.blocksize e.feLogical := by
        simp only [Fiemap.holeRun, hnext] at hpos ⊢
        split_ifs at hpos ⊢ <;> omega
      rw [hrun]
      refine Fiemap.not_holeBlock_of_lt hnext ?_ ?_ hnear
      · omega
      · omega
  have hpast := ho.past_end
  rw [← hoff] at hdata hlands hpast
  rw [← hbuffer] at hpast
  have hlen : t.buffer.data.length < env.blocksize := by
    rw [hbuffer]
    exact h.length_lt
  have hfail : env.csumPass t = .assertFailed := by
    refine csumPass_past_end (fun hlt' => ?_) hlands hdata hlen hpast
    rw [hcap] at hlt' ⊢
    exact (h.cap (by omega)).mono (by omega) hlt'
  cases fuel' with
  | zero => simp [csumLoop] at hrun'
  | succ fuel' =>
    rw [csumLoop, if_pos hlands, hfail] at hrun'
    exact (Option.some.inj hrun').symm

/-- The loop comes to an end without an assertion failing, and every turn that another one follows
moves on or reads something. -/
def EndsFrom (env : ScanEnv δ ω) (s : LoopState δ ω) : Prop :=
  (∃ fuel flow, env.csumLoop fuel s = some flow ∧ flow ≠ .assertFailed) ∧
    ∀ t u, env.Reaches s t → t.ctxt.off < env.filesize → env.csumPass t = .next u →
      t.ctxt.off < u.ctxt.off ∨ t.buffer.data.length < u.buffer.data.length

theorem startState_bounded (env : ScanEnv δ ω) (resume : Option ScanCheckpoint) (w : ω) :
    env.Bounded (env.startState resume w).ctxt (env.startState resume w).buffer := by
  obtain ⟨hdata, hcap⟩ := env.startState_unread resume w
  refine ⟨fun hlt => by omega, fun hne => absurd hdata hne, fun hlt => ?_, fun _ => ?_,
    fun _ => hdata⟩
  · rw [hdata]
    exact hlt.le
  · rw [hdata]
    exact env.blocksize_pos

/-- From wherever a scan starts, whatever its reads return and however the file has changed, the
hash loop ends unless a turn starts wedged or overruns; and where nothing else stops it, it does
not end if one does. -/
theorem csumLoop_ends_iff (env : ScanEnv δ ω) (hreads : env.ReadsAtMost)
    (hquiet : env.FlushesQuietly) (resume : Option ScanCheckpoint) (w : ω) :
    ((∀ t, env.Reaches (env.startState resume w) t → t.ctxt.off < env.filesize →
        ¬ env.Wedged t.ctxt t.buffer ∧ ¬ env.Overruns t.ctxt t.buffer) →
      env.EndsFrom (env.startState resume w)) ∧
    (env.Undisturbed → env.EndsFrom (env.startState resume w) →
      ∀ t, env.Reaches (env.startState resume w) t → t.ctxt.off < env.filesize →
        ¬ env.Wedged t.ctxt t.buffer ∧ ¬ env.Overruns t.ctxt t.buffer) := by
  have hstart := env.startState_bounded resume w
  refine ⟨fun hmoving => ⟨?_, fun t u hreach hlt hpass => ?_⟩, ?_⟩
  · obtain ⟨flow, h⟩ := csumLoop_ends_of_moving hreads hquiet hstart hmoving (Nat.lt_succ_self _)
    exact ⟨_, flow, h⟩
  · have hb := hreach.bounded hreads hquiet hstart fun v hv hvlt => (hmoving v hv hvlt).2
    obtain ⟨hoff, hprog⟩ := (moves_of_next hreads hquiet hb hlt hpass).progress hb hlt
      (hmoving t hreach hlt).1
    omega
  · rintro hu ⟨⟨fuel, flow, hrun, hflow⟩, -⟩
    -- the first turn that is wrong decides
    have hnever : ∀ t, env.Reaches (env.startState resume w) t → env.Bounded t.ctxt t.buffer →
        t.ctxt.off < env.filesize →
        ¬ env.Wedged t.ctxt t.buffer ∧ ¬ env.Overruns t.ctxt t.buffer := by
      intro t hreach hb hlt
      obtain ⟨fuel', hrun'⟩ := hreach.csumLoop hrun
      refine ⟨fun hw => ?_, fun ho => hflow (csumLoop_overruns hb hlt ho hrun')⟩
      rw [hu.csumLoop_wedged hreads fuel' hb hlt hw] at hrun'
      cases hrun'
    intro t hreach hlt
    refine hnever t hreach ?_ hlt
    clear hlt
    induction hreach with
    | refl => exact hstart
    | turn head hlt hpass ih =>
      exact (moves_of_next hreads hquiet ih hlt hpass).bounded ih hlt (hnever _ head ih hlt).2

structure OnGrid (env : ScanEnv δ ω) (s : LoopState δ ω) : Prop where
  grid : env.options.doBlockHash = true → s.ctxt.off < env.filesize → env.blocksize ∣ s.ctxt.off
  below : s.buffer.data ≠ [] → s.ctxt.off < env.filesize →
    s.ctxt.off < s.ctxt.readCap ∧ s.ctxt.off + s.buffer.data.length ≤ s.ctxt.readCap

theorem OnGrid.moving (hg : env.OnGrid s) (h : env.Bounded s.ctxt s.buffer)
    (hlt : s.ctxt.off < env.filesize) :
    ¬ env.Wedged s.ctxt s.buffer ∧ ¬ env.Overruns s.ctxt s.buffer := by
  have hlen := h.length_lt
  by_cases hne : s.buffer.data = []
  · refine ⟨fun hw => ?_, fun ho => ?_⟩
    · have hreach := hw.reached
      have := hw.cached
      rw [hne, List.length_nil] at hreach
      omega
    · have hpast := ho.past_end
      have := ho.lands
      rw [hne, List.length_nil] at hpast
      omega
  · have hgrid := hg.grid (h.doBlockHash hne) hlt
    obtain ⟨hcached, -⟩ := hg.below hne hlt
    have hcap := h.cap hcached
    refine ⟨fun hw => ?_, fun ho => hcap.no_hole _ le_rfl hcached hgrid ho.hole⟩
    rcases hcap.stop with heq | ⟨hdvd, -⟩
    · have := hw.before_end
      omega
    · have := Hashing.add_blocksize_le hgrid hdvd hcached
      have := hw.reached
      omega

theorem Moves.onGrid (hm : env.Moves s t) (hg : env.OnGrid s) (h : env.Bounded s.ctxt s.buffer)
    (hlt : s.ctxt.off < env.filesize) : env.OnGrid t := by
  cases hm with
  | hole hhole hoff hcap hbuffer =>
    have hempty : s.buffer.data = [] := by
      by_contra hne
      obtain ⟨hcached, -⟩ := hg.below hne hlt
      exact (h.cap hcached).no_hole _ le_rfl hcached (hg.grid (h.doBlockHash hne) hlt) hhole
    have hrun := (env.fiemap.holeRun_pos_iff env.blocksize_pos hlt).mpr hhole
    refine ⟨fun _ hin => ?_, fun hne => absurd (hbuffer ▸ hempty) hne⟩
    rw [hoff] at hin ⊢
    cases hnext : env.fiemap.nextExtent s.ctxt.off with
    | none =>
      simp only [Fiemap.holeRun, hnext] at hin
      omega
    | some e => exact Fiemap.dvd_add_holeRun hnext hrun
  | faked hfakes hoff hcap hbuffer =>
    refine ⟨fun hblock _ => ?_, fun hne => absurd hbuffer hne⟩
    rw [hoff]
    exact Nat.dvd_add (hg.grid hblock hlt) env.dvd_fakeLen
  | read cap stop hdata hno hcap hhi hin hstop hoff hcap' hlen =>
    refine ⟨fun hblock _ => ?_, fun hne _ => ?_⟩
    · rw [hoff]
      refine Nat.dvd_add (hg.grid hblock hlt) ?_
      simp only [Hashing.consumes, hblock, Bool.false_eq_true, Bool.true_eq_false, or_self, if_false]
      exact Nat.dvd_mul_left _ _
    · have hpos := List.length_pos_iff.mpr hne
      rw [hoff, hcap']
      omega

/-- A scan that starts on the block grid, and every scan without block hashing, ends. -/
theorem csumLoop_ends_of_grid (hreads : env.ReadsAtMost) (hquiet : env.FlushesQuietly)
    (resume : Option ScanCheckpoint) (w : ω) (hgrid : env.options.doBlockHash = true →
      env.blocksize ∣ (env.startState resume w).ctxt.off) :
    env.EndsFrom (env.startState resume w) := by
  obtain ⟨hdata, -⟩ := env.startState_unread resume w
  have hstart := env.startState_bounded resume w
  have hinv : ∀ t, env.Reaches (env.startState resume w) t →
      env.Bounded t.ctxt t.buffer ∧ env.OnGrid t := by
    intro t hreach
    induction hreach with
    | refl => exact ⟨hstart, fun hblock _ => hgrid hblock, fun hne => absurd hdata hne⟩
    | turn head hlt hpass ih =>
      have hm := moves_of_next hreads hquiet ih.1 hlt hpass
      exact ⟨hm.bounded ih.1 hlt (ih.2.moving ih.1 hlt).2, hm.onGrid ih.2 ih.1 hlt⟩
  refine (csumLoop_ends_iff env hreads hquiet resume w).1 fun t hreach hlt => ?_
  exact (hinv t hreach).2.moving (hinv t hreach).1 hlt

end ScanEnv

/-- Bytes that stay inside one data record go to its digest, and no row is made. -/
theorem Hashing.extentRows_inside {δ : Type*} (job : Hashing δ) (fuel : ℕ) {off stop : ℕ} {e : FiemapExtent}
    (hnext : job.fiemap.nextExtent off = some e) (hle : e.feLogical ≤ off) (hlt : off < stop)
    (hend : stop < e.feEnd) (hsize : e.feEnd ≤ job.filesize) (hskip : e.skipped = false)
    (hfuel : 0 < fuel) (buf : List UInt8) (csum : Option (List UInt8)) :
    job.extentRows stop fuel off buf csum =
      (some (csum.getD [] ++ buf.take (stop - off)), []) := by
  obtain ⟨fuel, rfl⟩ : ∃ n, fuel = n + 1 := ⟨fuel - 1, by omega⟩
  have hno : ¬ (off < e.feLogical ∧ job.options.oldHoleDigests = false) := by omega
  have hstop : off + (stop - off) = stop := by omega
  have hopen : ¬ stop + (e.feEnd - job.filesize) = e.feEnd := by omega
  rw [extentRows, if_pos hlt, hnext]
  dsimp only
  rw [if_neg hno, if_pos hend, hskip, hstop, if_neg hopen]
  cases fuel <;> simp [extentRows]

section Example

/-- Eleven blocks of data, nine of hole and a last partial block of data. -/
def gapFile : FileToScan where
  filesize := 1970176
  mtime := 0
  fiemap := ⟨[⟨0, 4194304, 1081344, 0⟩, ⟨1966080, 8388608, 4096, 0⟩], by simp,
    by simp [FiemapExtent.feEnd]⟩

def checkpointKeeper : Hashfile Unit (Option ScanCheckpoint) where
  flushBlockHashes hs w :=
    (0, { hs with blocks := [], blocksFlushed := hs.blocksFlushed + hs.blocks.length }, w)
  storeCheckpoint hs cp _ := (0, { hs with blocks := [], extents := [] }, some cp)
  batchLost _ := false

def gapScan (doBlockHash interrupted : Bool) : ScanEnv Unit (Option ScanCheckpoint) where
  options := ⟨ninetySixKiB, doBlockHash, false, false, false⟩
  file := gapFile
  pacing := ⟨true, 64 * 1024, 2 ^ 30, 0⟩
  pread := fullReads fun _ => 0
  interrupted _ := interrupted
  xxh _ := ()
  hashfile := checkpointKeeper

theorem gapScan_readsAtMost (b i : Bool) : (gapScan b i).ReadsAtMost := by
  intro pos want data h
  obtain rfl : Slice.slice (fun _ => 0) pos (pos + want) = data := by
    simpa [gapScan, fullReads] using h
  simp

theorem gapScan_undisturbed (b : Bool) : (gapScan b false).Undisturbed where
  reads pos want hwant _ := by
    refine ⟨_, rfl, ?_⟩
    rw [← List.length_pos_iff, Slice.length_slice]
    omega
  flushes _ _ := rfl
  running _ := rfl
  kept _ := rfl
  no_stop := rfl

theorem gapScan_isReadCap (b i : Bool) {off : ℕ} (h : off < 1081344) :
    (gapScan b i).IsReadCap off 1081344 where
  lt := h
  le := by
    change 1081344 ≤ 1970176
    decide
  stop := Or.inr ⟨by change 98304 ∣ 1081344; decide, by
    change gapFile.fiemap.HoleBlock 98304 1081344
    decide⟩
  no_hole c _ hlt _ := by
    have hnext : gapFile.fiemap.nextExtent 0 = some ⟨0, 4194304, 1081344, 0⟩ := by decide
    exact Fiemap.not_holeBlock_of_lt hnext (Nat.zero_le c) hlt (by
      change 0 < c + 98304
      omega)

theorem gapScan_data (b i : Bool) {off : ℕ} (h : off < 1081344) :
    ¬ (gapScan b i).fiemap.HoleBlock (gapScan b i).blocksize off ∧ ¬ (gapScan b i).Fakes off := by
  have hnext : gapFile.fiemap.nextExtent 0 = some ⟨0, 4194304, 1081344, 0⟩ := by decide
  refine ⟨Fiemap.not_holeBlock_of_lt hnext (Nat.zero_le off) h ?_, fun hf => ?_⟩
  · change 0 < off + 98304
    omega
  · have hskip := hf.1.1 ⟨0, 4194304, 1081344, 0⟩ List.mem_cons_self (by
      have hfake : (gapScan b i).fakeLen = 983040 := by
        change READ_BUF_LEN - READ_BUF_LEN % 98304 = 983040
        decide
      rw [hfake]
      simp only [FiemapExtent.Overlaps, FiemapExtent.feEnd]
      omega)
    exact absurd hskip (by decide)

theorem gapScan_csumPass (b i : Bool) {s : LoopState Unit (Option ScanCheckpoint)}
    (hoff : s.ctxt.off < 1081344) (hcap : s.ctxt.readCap = 0) (hdata : s.buffer.data = []) :
    ∃ cursor bytes, bytes.length = wantAt s.ctxt.off 0 1081344 ∧
      (gapScan b i).csumPass s = (gapScan b i).hashBuffer false { s with
        ctxt := { s.ctxt with readCap := 1081344, extentCursor := cursor }
        buffer := ⟨bytes, false⟩ } := by
  have hlt : s.ctxt.off < (gapScan b i).filesize := by
    change s.ctxt.off < 1970176
    omega
  obtain ⟨hhole, hno⟩ := gapScan_data b i hoff
  have hcap' := gapScan_isReadCap b i hoff
  have hwant : 0 < wantAt s.ctxt.off 0 1081344 ∧
      s.ctxt.off + wantAt s.ctxt.off 0 1081344 ≤ 1081344 := by
    unfold wantAt READ_BUF_LEN
    omega
  obtain ⟨cursor, heq⟩ := ScanEnv.csumPass_of_data hlt hhole
  obtain ⟨cursor', cap, hcap₁, hfill⟩ := (gapScan b i).fillBuffer_eq_readMore
    { s.ctxt with extentCursor := cursor } s.buffer (fun h => absurd h (by dsimp only; omega)) hlt
    hhole hno
  obtain rfl := hcap'.unique hcap₁
  obtain ⟨bytes, hbytes, hlen⟩ : ∃ bytes, (gapScan b i).pread (s.ctxt.off + s.buffer.data.length)
      (wantAt s.ctxt.off s.buffer.data.length 1081344) = some bytes ∧
        bytes.length = wantAt s.ctxt.off 0 1081344 := by
    rw [hdata]
    exact ⟨_, rfl, (Slice.length_slice _ _ _).trans (Nat.add_sub_cancel_left _ _)⟩
  have hread := (gapScan b i).readMore_read
    { s.ctxt with readCap := 1081344, extentCursor := cursor' } s.buffer
    (by rw [hdata]; exact hoff.le) (by rw [hdata]; exact hwant.1) hbytes
    (by rw [← List.length_pos_iff, hlen]; exact hwant.1) (by rw [hdata]; exact hlen.le)
  have hmore : ¬ (gapScan b i).filesize ≤ s.ctxt.off + bytes.length := by
    change ¬ 1970176 ≤ _
    omega
  refine ⟨cursor', bytes, hlen, ?_⟩
  rw [heq, hfill.trans hread, hdata]
  simp [hmore]

theorem gapFile_nextExtent {off : ℕ} (h : off < 1081344) :
    gapFile.fiemap.nextExtent off = some ⟨0, 4194304, 1081344, 0⟩ :=
  Fiemap.nextExtent_congr (show gapFile.fiemap.nextExtent 0 = _ by decide) (Nat.zero_le off) h

/-- A read buffer from the start of the file leaves the digest of the first record open. -/
theorem gapScan_ackBytes {s : LoopState Unit (Option ScanCheckpoint)} (hoff : s.ctxt.off = 0) :
    ((gapScan false true).ackBytes s 1048576).ctxt.off = 1048576 ∧
      ∃ ext, ((gapScan false true).ackBytes s 1048576).ctxt.extentCsum = some ext := by
  have hack := (gapScan false true).ackBytes_ctxt s 1048576
  have hext := (gapScan false true).extentRows_inside 1048576
    (gapFile_nextExtent (show 0 < 1081344 by decide)) (Nat.le_refl 0) (show 0 < 1048576 by decide)
    (by decide) (by decide) (by decide) (by decide) s.buffer.data s.ctxt.extentCsum
  have hcsum : ((gapScan false true).extentsAfter 0 s.buffer.data 1048576 s.ctxt.extentCsum).1 =
      some (s.ctxt.extentCsum.getD [] ++ s.buffer.data.take 1048576) := by
    unfold Hashing.extentsAfter
    rw [if_neg (by decide), Nat.zero_add, hext, Nat.sub_zero]
  rw [hoff, hcsum] at hack
  exact ⟨congrArg ScanCtxt.off hack, _, congrArg ScanCtxt.extentCsum hack⟩

/-- A signal at the end of the first read buffer leaves a checkpoint there. -/
theorem gapScan_endPass {s : LoopState Unit (Option ScanCheckpoint)} {ext : List UInt8}
    (hoff : s.ctxt.off = 1048576) (hext : s.ctxt.extentCsum = some ext)
    (henabled : s.checkpointsEnabled = true) (hlast : s.lastCheckpoint = 0) :
    ∃ t fed, (gapScan false true).endPass s = .abandon t ∧
      t.world = some ⟨1048576, 1970176, 0, fed, some (0, 1081344, ext), false⟩ := by
  have hnext : (gapScan false true).fiemap.nextExtent s.ctxt.off =
      some ⟨0, 4194304, 1081344, 0⟩ := by
    rw [hoff]
    exact gapFile_nextExtent (by decide)
  have hmoved : s.lastCheckpoint < s.ctxt.off := by
    rw [hlast, hoff]
    decide
  refine ⟨_, s.ctxt.fileCsum, ScanEnv.endPass_of_interrupted rfl rfl henabled hmoved, ?_⟩
  refine (ScanEnv.writeCheckpoint_world (s := { s with passes := s.passes + 1 }) hext hnext).trans ?_
  dsimp only
  rw [hoff]
  rfl

/-- Without block hashing the scan consumes the whole buffer, and a signal then leaves a checkpoint
behind it. -/
theorem gapScan_interrupted {f : LoopState Unit (Option ScanCheckpoint)} (hoff : f.ctxt.off = 0)
    (hlen : f.buffer.data.length = 1048576) (henabled : f.checkpointsEnabled = true)
    (hlast : f.lastCheckpoint = 0) :
    ∃ t fed ext, (gapScan false true).hashBuffer false f = .abandon t ∧
      t.world = some ⟨1048576, 1970176, 0, fed, some (0, 1081344, ext), false⟩ := by
  have hproc : (gapScan false true).processBlocks f.ctxt f.buffer f.hashes f.world =
      (1048576, f.ctxt, f.hashes, f.world) := by
    unfold ScanEnv.processBlocks
    rw [if_pos (Or.inl (by rfl)), hlen]
    rfl
  unfold ScanEnv.hashBuffer
  rw [hproc]
  dsimp only
  rw [if_neg (by decide), if_neg (by decide), show (1048576 : ℤ).toNat = 1048576 from rfl]
  obtain ⟨he, hl⟩ := (gapScan false true).ackBytes_checkpoints
    { f with scannedBytes := f.scannedBytes + 1048576 } 1048576
  obtain ⟨hoff', ext, hext⟩ := gapScan_ackBytes
    (s := { f with scannedBytes := f.scannedBytes + 1048576 }) hoff
  obtain ⟨t, fed, ht, hworld⟩ := gapScan_endPass hoff' hext (he.trans henabled) (hl.trans hlast)
  exact ⟨t, fed, ext, ht, hworld⟩

/-- Without block hashing the first pass takes a whole read buffer, and a signal then leaves a
checkpoint at its end, which is no block boundary. -/
theorem gapScan_checkpoint : ∃ t cp, (gapScan false true).csumLoop 1
      ((gapScan false true).startState none none) = some (.abandon t) ∧ t.world = some cp ∧
    cp.loff = 1048576 ∧ (gapScan true false).resumeUsable cp = true ∧
    (gapScan true false).adoptResume cp = true := by
  obtain ⟨cursor, bytes, hlen, hpass⟩ := gapScan_csumPass false true
    (s := (gapScan false true).startState none none) (by decide) rfl rfl
  have hlt : ((gapScan false true).startState none none).ctxt.off < (gapScan false true).filesize := by
    decide
  have hwant : wantAt ((gapScan false true).startState none none).ctxt.off 0 1081344 = 1048576 := by
    decide
  rw [hwant] at hlen
  obtain ⟨t, fed, ext, ht, hworld⟩ := gapScan_interrupted
    (f := { (gapScan false true).startState none none with
      ctxt := { ((gapScan false true).startState none none).ctxt with
        readCap := 1081344, extentCursor := cursor }
      buffer := ⟨bytes, false⟩ }) rfl hlen rfl rfl
  refine ⟨t, _, ?_, hworld, rfl, ?_, ?_⟩
  · rw [ScanEnv.csumLoop, if_pos hlt, hpass, ht]
  · simp [Hashing.resumeUsable, gapScan, gapFile, Hashing.filesize]
  · have hnext : gapFile.fiemap.nextExtent 1048576 = some ⟨0, 4194304, 1081344, 0⟩ := by decide
    have hget := gapFile.fiemap.getExtent_fst 1048576 0
    rw [hnext] at hget
    unfold Hashing.adoptResume
    rw [show (gapScan true false).fiemap = gapFile.fiemap from rfl, hget]
    simp

/-- The scan that resumes there with block hashing reads up to the next hole block, which is less
than a block away, and never moves again. -/
theorem gapScan_wedged {cp : ScanCheckpoint} (hoff : cp.loff = 1048576)
    (husable : (gapScan true false).resumeUsable cp = true)
    (hadopt : (gapScan true false).adoptResume cp = true) (w : Option ScanCheckpoint) (fuel : ℕ) :
    (gapScan true false).csumLoop fuel ((gapScan true false).startState (some cp) w) = none := by
  have hstart : ((gapScan true false).startState (some cp) w).ctxt.off = 1048576 := by
    simp [ScanEnv.startState, husable, hadopt, hoff]
  obtain ⟨hdata, hcap⟩ := (gapScan true false).startState_unread (some cp) w
  have hlt : ((gapScan true false).startState (some cp) w).ctxt.off <
      (gapScan true false).filesize := by
    rw [hstart]
    decide
  have hb := (gapScan true false).startState_bounded (some cp) w
  obtain ⟨cursor, bytes, -, hpass⟩ :=
    gapScan_csumPass true false (by rw [hstart]; decide) hcap hdata
  obtain ⟨t, ht⟩ := (gapScan_undisturbed true).hashBuffer_next _
  rw [ht] at hpass
  have hm := ScanEnv.moves_of_next (gapScan_readsAtMost true false) (gapScan_undisturbed true).quiet
    hb hlt hpass
  obtain ⟨hhole, hno⟩ := gapScan_data true false (show 1048576 < 1081344 by decide)
  have hbt := hm.bounded hb hlt fun ho => hhole (hstart ▸ ho.hole)
  cases fuel with
  | zero => rfl
  | succ fuel =>
    rw [ScanEnv.csumLoop, if_pos hlt, hpass]
    cases hm with
    | hole hhole' => exact absurd (hstart ▸ hhole') hhole
    | faked hfakes => exact absurd (hstart ▸ hfakes) hno
    | read cap stop _ _ hcap' hhi hin hstop hoff' hcap'' hlen =>
      rw [hstart] at hcap' hstop hoff' hlen
      obtain rfl := (gapScan_isReadCap true false (show 1048576 < 1081344 by decide)).unique hcap'
      -- the read is full
      obtain rfl : stop = 1081344 := by
        rcases hstop with ⟨-, rfl⟩ | ⟨bytes, hread, -, rfl⟩
        · rfl
        · rw [hdata] at hread ⊢
          obtain rfl := Option.some.inj hread
          simp [wantAt, READ_BUF_LEN]
      have hconsumes : (gapScan true false).consumes false 1048576 1081344 = 0 := by decide
      rw [hconsumes] at hoff' hlen
      have hwedged : (gapScan true false).Wedged t.ctxt t.buffer := by
        constructor
        · rwa [hoff']
        · rwa [hoff']
        · rw [hoff', hcap'']
          decide
        · rw [hoff', hcap'', hlen]
        · rw [hcap'']
          decide
      refine (gapScan_undisturbed true).csumLoop_wedged (gapScan_readsAtMost true false) fuel hbt ?_
        hwedged
      rw [hoff']
      decide

/-- A scan without block hashing writes a checkpoint from which one with block hashing, whose reads
are all full and which nothing disturbs, never ends. -/
theorem gapScan_never_ends : ∃ t cp, (gapScan false true).csumLoop 1
      ((gapScan false true).startState none none) = some (.abandon t) ∧ t.world = some cp ∧
    (gapScan true false).resumeUsable cp = true ∧ (gapScan true false).adoptResume cp = true ∧
    (gapScan true false).Undisturbed ∧
    ¬ (gapScan true false).EndsFrom ((gapScan true false).startState (some cp) (some cp)) := by
  obtain ⟨t, cp, hrun, hworld, hoff, husable, hadopt⟩ := gapScan_checkpoint
  refine ⟨t, cp, hrun, hworld, husable, hadopt, gapScan_undisturbed true, ?_⟩
  rintro ⟨⟨fuel, flow, hends, -⟩, -⟩
  rw [gapScan_wedged hoff husable hadopt] at hends
  cases hends

theorem csumLoop_ends_iff_gapScan :
    (∀ t, (gapScan true false).Reaches ((gapScan true false).startState none none) t →
        t.ctxt.off < 1970176 → ¬ (gapScan true false).Wedged t.ctxt t.buffer ∧
          ¬ (gapScan true false).Overruns t.ctxt t.buffer) ↔
      (gapScan true false).EndsFrom ((gapScan true false).startState none none) :=
  ⟨(ScanEnv.csumLoop_ends_iff (gapScan true false) (gapScan_readsAtMost _ _)
      (gapScan_undisturbed true).quiet none none).1,
    (ScanEnv.csumLoop_ends_iff (gapScan true false) (gapScan_readsAtMost _ _)
      (gapScan_undisturbed true).quiet none none).2 (gapScan_undisturbed true)⟩

end Example

end Oans
