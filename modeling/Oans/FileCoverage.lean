import Oans.FileEnd

/-!
# What the file checksum covers

A scan that ends at the file size has fed the file checksum every byte of the file, in order: as
the byte itself, or under a hole descriptor that lies in a hole. Faked zeroes stand only where no
record without skip flags reaches.
-/

namespace Oans

open Slice

def ReadsAsZero (fm : Fiemap) (content : ℕ → UInt8) : Prop :=
  ∀ p, fm.Hole p ∨ (∃ e ∈ fm.fmExtents, e.Holds p ∧ e.unwritten = true) → content p = 0

/-- The items cover `[a, b)` in order, without gap or overlap: bytes are the file's, and every
position under a descriptor is in a hole. -/
def Covers (fm : Fiemap) (content : ℕ → UInt8) : ℕ → List Fed → ℕ → Prop
  | a, [], b => a = b
  | a, .bytes data :: rest, b =>
    data = slice content a (a + data.length) ∧ Covers fm content (a + data.length) rest b
  | a, .hole off len :: rest, b =>
    off = a ∧ (∀ p, a ≤ p → p < a + len → fm.Hole p) ∧ Covers fm content (a + len) rest b

theorem Covers.append {fm : Fiemap} {content : ℕ → UInt8} {a m b : ℕ} {items rest : List Fed}
    (h : Covers fm content a items m) (hrest : Covers fm content m rest b) :
    Covers fm content a (items ++ rest) b := by
  induction items generalizing a with
  | nil =>
    cases h
    exact hrest
  | cons item items ih =>
    cases item with
    | bytes data => exact ⟨h.1, ih h.2⟩
    | hole off len => exact ⟨h.1, h.2.1, ih h.2.2⟩

theorem covers_bytes {fm : Fiemap} {content : ℕ → UInt8} {a b : ℕ} (h : a ≤ b) :
    Covers fm content a [.bytes (slice content a b)] b := by
  simp only [Covers, length_slice]
  rw [show a + (b - a) = b by omega]
  exact ⟨rfl, rfl⟩

namespace ScanEnv

variable {δ ω : Type*} {env : ScanEnv δ ω} {content : ℕ → UInt8}

theorem content_eq_zero_of_fakes {off p : ℕ} (h : env.Fakes off) (hzero : ReadsAsZero env.fiemap content)
    (hinline : env.fakeLen ≤ env.filesize → ∀ e ∈ env.fiemap.fmExtents, e.inline = false)
    (hle : off ≤ p) (hlt : p < off + env.fakeLen) : content p = 0 := by
  apply hzero
  by_cases hhole : env.fiemap.Hole p
  · exact Or.inl hhole
  · obtain ⟨e, he, hp⟩ : ∃ e ∈ env.fiemap.fmExtents, e.Holds p := by
      simpa [Fiemap.Hole] using hhole
    have hskip := h.1.1 e he (Fiemap.overlaps_iff.mpr ⟨p, hle, hlt, hp⟩)
    have hfit := h.2
    rw [FiemapExtent.skipped_eq_or, hinline (by omega) e he, Bool.false_or] at hskip
    exact Or.inr ⟨e, he, hp, hskip⟩

/-- One turn extends what is covered up to the new offset. -/
theorem Turn.covers {eof : Bool} {s t : LoopState δ ω} {emit : Rows δ}
    (h : env.Turn content eof s t emit)
    (hzero : ReadsAsZero env.fiemap content)
    (hinline : env.fakeLen ≤ env.filesize → ∀ e ∈ env.fiemap.fmExtents, e.inline = false)
    (hcovers : Covers env.fiemap content 0 s.ctxt.fileCsum s.ctxt.off) :
    Covers env.fiemap content 0 t.ctxt.fileCsum t.ctxt.off := by
  cases h with
  | hole hhole hctxt hbuffer =>
    rw [hctxt]
    exact hcovers.append ⟨rfl, fun p hle hlt => Fiemap.hole_of_holeRun hle hlt, rfl⟩
  | faked hdata hfakes heof hctxt hbuffer =>
    rw [hctxt]
    have hslice : List.replicate env.fakeLen 0 =
        slice content s.ctxt.off (s.ctxt.off + env.fakeLen) := by
      rw [slice_eq_replicate fun p hle hlt => content_eq_zero_of_fakes hfakes hzero hinline hle hlt]
      congr 1
      omega
    rw [hslice]
    exact hcovers.append (covers_bytes (by omega))
  | read hdata hno hcap hlo hhi hread heof hctxt hbuffer =>
    rw [hctxt]
    exact hcovers.append (covers_bytes (by omega))

/-- A faked buffer lies outside every record without skip flags. -/
theorem fakes_of_fillBuffer {ctxt ctxt' : ScanCtxt} {buffer filled : Buffer} {eof : Bool}
    (h : env.fillBuffer ctxt buffer = .filled eof ctxt' filled) (hfaked : filled.faked = true) :
    env.Fakes ctxt.off := by
  have hignored := env.fiemap.isAreaIgnored_fst ctxt.off env.fakeLen ctxt.extentCursor
  rw [fillBuffer] at h
  rcases harea : env.fiemap.isAreaIgnored ctxt.off env.fakeLen ctxt.extentCursor with
    ⟨ignored, cursor⟩
  rw [harea] at hignored h
  simp only at hignored h
  by_cases hfakes : env.Fakes ctxt.off
  · exact hfakes
  · have hcond : ¬ (ignored = true ∧ ctxt.off + env.fakeLen ≤ env.filesize) := by
      rw [hignored, decide_eq_true_eq]
      exact hfakes
    rw [if_neg hcond, readMore] at h
    simp only at h
    split at h
    · cases h
    · split at h
      · cases h
      · split_ifs at h
        · cases h
          cases hfaked
        · cases h
          cases hfaked

/-- Every scan from offset 0 that ends at the file size has fed the file checksum the whole file,
and no buffer is ever faked over a record without skip flags. -/
theorem fileCsum_covers (env : ScanEnv δ ω) (content : ℕ → UInt8) (w : ω) (fuel : ℕ)
    (r : LoopState δ ω) (hreads : env.ReadsFrom content) (hquiet : env.FlushesQuietly)
    (hzero : ReadsAsZero env.fiemap content)
    (hinline : env.fakeLen ≤ env.filesize → ∀ e ∈ env.fiemap.fmExtents, e.inline = false)
    (hrun : env.csumLoop fuel (env.freshState w) = some (.leave r))
    (hoff : r.ctxt.off = env.filesize) :
    Covers env.fiemap content 0 r.ctxt.fileCsum env.filesize ∧
      ∀ ctxt buffer eof ctxt' filled,
        env.fillBuffer ctxt buffer = .filled eof ctxt' filled → filled.faked = true →
        ∀ e ∈ env.fiemap.fmExtents,
          e.Overlaps ctxt.off (ctxt.off + env.fakeLen) → e.skipped = true := by
  have hcovers : ∀ t, env.Reaches (env.freshState w) t →
      env.Sound content t.ctxt t.buffer ∧
        Covers env.fiemap content 0 t.ctxt.fileCsum t.ctxt.off := by
    intro t hreach
    induction hreach with
    | refl => exact ⟨env.freshState_sound content w, rfl⟩
    | turn _ hlt hpass ih =>
      obtain ⟨emit, hturn, -⟩ := turn_of_next hreads hquiet ih.1 hlt hpass
      exact ⟨hturn.sound ih.1 hlt, hturn.covers hzero hinline ih.2⟩
  constructor
  · rw [← hoff]
    cases csumLoop_ends hrun with
    | done hreach hge => exact (hcovers r hreach).2
    | pass hreach hlt hpass hlast =>
      have hu := hcovers _ hreach
      obtain ⟨emit, hturn, -⟩ := turn_of_leave hreads hquiet hu.1 hlt hpass
      exact hturn.covers hzero hinline hu.2
  · intro ctxt buffer eof ctxt' filled hfill hfaked
    exact (fakes_of_fillBuffer hfill hfaked).1.1

end ScanEnv

theorem sparseFile_readsAsZero : ReadsAsZero sparseFile.fiemap sparseContent := by
  intro p hp
  by_contra hne
  have hlt : p < 4096 := by
    by_contra hge
    exact hne (if_neg hge)
  have hholds : (⟨0, 4096, 4096, 0⟩ : FiemapExtent).Holds p := ⟨Nat.zero_le p, by
    simpa [FiemapExtent.feEnd] using hlt⟩
  rcases hp with hhole | ⟨e, he, hep, hunw⟩
  · exact hhole _ (by simp [sparseFile]) hholds
  · simp only [sparseFile, List.mem_cons, List.not_mem_nil, or_false] at he
    rcases he with rfl | rfl
    · exact absurd hunw (by decide)
    · have := hep.1
      simp only at this
      omega

theorem fileCsum_covers_sparseFile :
    ∃ r, Covers sparseFile.fiemap sparseContent 0 r.ctxt.fileCsum 12288 ∧
      ∃ fuel, (plainScan fourKiB sparseFile sparseContent).csumLoop fuel
        ((plainScan fourKiB sparseFile sparseContent).freshState ()) = some (.leave r) := by
  have hreads := plainScan_readsFrom fourKiB sparseFile sparseContent
  have hrun := plainScan_undisturbed fourKiB sparseFile sparseContent
  obtain ⟨fuel, r, hloop⟩ := hrun.leaves hreads (ScanEnv.freshState_sound _ sparseContent ())
  have hoff := ScanEnv.off_eq_of_no_late_record hreads hrun hloop (by decide)
  exact ⟨r, (ScanEnv.fileCsum_covers _ sparseContent () fuel r hreads hrun.quiet
    sparseFile_readsAsZero (by decide) hloop hoff).1, fuel, hloop⟩

/-- One inline extent of 960 KiB: ten blocks of 96 KiB, and less than a read buffer. -/
def inlineFile : FileToScan where
  filesize := 983040
  mtime := 0
  fiemap := ⟨[⟨0, 0, 983040, FIEMAP_EXTENT_DATA_INLINE ||| FIEMAP_EXTENT_LAST⟩],
    by simp, by simp⟩

def inlineContent (p : ℕ) : UInt8 := if p < 983040 then 1 else 0

theorem inlineFile_readsAsZero : ReadsAsZero inlineFile.fiemap inlineContent := by
  intro p hp
  by_contra hne
  have hlt : p < 983040 := by
    by_contra hge
    exact hne (if_neg hge)
  rcases hp with hhole | ⟨e, he, -, hunw⟩
  · refine hhole _ (List.mem_singleton_self _) ⟨Nat.zero_le p, ?_⟩
    simpa [FiemapExtent.feEnd] using hlt
  · simp only [inlineFile, List.mem_singleton] at he
    subst he
    exact absurd hunw (by decide)

/-- With a block size that does not divide the read buffer, a buffer is faked in a file shorter
than the read buffer, over inline data. -/
theorem inlineFile_faked : ¬ ∀ (env : ScanEnv Unit Unit) (content : ℕ → UInt8) (w : Unit)
    (fuel : ℕ) (r : LoopState Unit Unit), env.ReadsFrom content → env.FlushesQuietly →
    ReadsAsZero env.fiemap content →
    (READ_BUF_LEN ≤ env.filesize → ∀ e ∈ env.fiemap.fmExtents, e.inline = false) →
    env.csumLoop fuel (env.freshState w) = some (.leave r) → r.ctxt.off = env.filesize →
    Covers env.fiemap content 0 r.ctxt.fileCsum env.filesize := by
  intro h
  have hreads := plainScan_readsFrom ninetySixKiB inlineFile inlineContent
  have hrun := plainScan_undisturbed ninetySixKiB inlineFile inlineContent
  generalize henv : plainScan ninetySixKiB inlineFile inlineContent = env at hreads hrun
  have hfakes : env.Fakes 0 := by
    subst henv
    decide
  have hsize : env.filesize = env.fakeLen := by
    subst henv
    decide
  have hzero : ReadsAsZero env.fiemap inlineContent := by
    subst henv
    exact inlineFile_readsAsZero
  have hsmall : env.filesize < READ_BUF_LEN := by
    subst henv
    decide
  have hlt : (env.freshState ()).ctxt.off < env.filesize := by
    rw [hsize]
    exact env.blocksize_pos.trans_le env.blocksize_le_fakeLen
  have hsound := env.freshState_sound inlineContent ()
  -- the first turn fakes the whole file
  have hdata : ¬ env.fiemap.HoleBlock env.blocksize 0 := by
    subst henv
    decide
  obtain ⟨r, hpass⟩ : ∃ r, env.csumPass (env.freshState ()) = .leave r := by
    rcases hrun.csumPass hreads hsound hlt with ⟨t, ht⟩ | h
    · obtain ⟨emit, hturn, -⟩ := ScanEnv.turn_of_next hreads hrun.quiet hsound hlt ht
      cases hturn with
      | hole hhole => exact absurd hhole hdata
      | faked _ _ heof =>
        rw [hsize] at heof
        simp [ScanEnv.freshState] at heof
      | read _ hno => exact absurd hfakes hno
    · exact h
  have hloop : env.csumLoop 1 (env.freshState ()) = some (.leave r) := by
    rw [ScanEnv.csumLoop, if_pos hlt, hpass]
  obtain ⟨emit, hturn, -⟩ := ScanEnv.turn_of_leave hreads hrun.quiet hsound hlt hpass
  have hcovers := h env inlineContent () 1 r hreads hrun.quiet hzero (fun hle => by omega) hloop
    (hturn.off_eq hrun.reads hsound hlt)
  cases hturn with
  | read _ hno => exact absurd hfakes hno
  | faked _ _ _ hctxt _ =>
    rw [hctxt] at hcovers
    have hbytes : List.replicate env.fakeLen 0 = slice inlineContent 0 env.fakeLen := by
      have := hcovers.1
      rwa [List.length_replicate, Nat.zero_add] at this
    have hpos : 0 < env.fakeLen := by
      rwa [← hsize]
    have hone : (1 : UInt8) ∈ List.replicate env.fakeLen 0 := by
      rw [hbytes, mem_slice]
      exact ⟨0, le_rfl, hpos, by decide⟩
    exact absurd (List.eq_of_mem_replicate hone) (by decide)

end Oans
