import Oans.ExactRows
import Oans.InodeScan
import Oans.ScanSessions

/-!
# The recheck of rows from older binaries

A binary that hashes holes begins the digest of a record in the gap before it, if it reads that gap.
A gap behind a record without skip flags that starts and ends on the block grid is never read: reads
stop where it starts, and the hole run there ends where it ends. `hole_read_before()` asks for
exactly such gaps, so what the recheck lets pass is right, but for records past the end of the file,
which it does not ask about.
-/

namespace Oans

open Savepoint Slice

def FILE_UNWRITTEN_CHECKED : ℕ := 0x0004

def FILE_EOF_EXTENT_CHECKED : ℕ := 0x0008

def FILE_HOLE_EXTENT_CHECKED : ℕ := 0x0010

namespace Fiemap

variable (fm : Fiemap)

def rowRefusedAt (b size flags i : ℕ) (e : FiemapExtent) : Bool :=
  (decide (flags &&& FILE_HOLE_EXTENT_CHECKED = 0) && !e.skipped &&
      decide (e.feLogical < size) && fm.holeReadBefore b i) ||
    if e.unwritten then decide (flags &&& FILE_UNWRITTEN_CHECKED = 0)
    else decide (flags &&& FILE_EOF_EXTENT_CHECKED = 0) && !e.hasFlags FIEMAP_EXTENT_LAST &&
      decide (e.feLogical < size) && decide (size < e.feEnd)

def scanRowOk (b size flags : ℕ) : Bool :=
  !(List.range fm.fmExtents.length).any fun i =>
    (fm.fmExtents[i]?).any (fm.rowRefusedAt b size flags i)

def HoleReadBefore (b : ℕ) (e : FiemapExtent) : Prop :=
  ∃ i, fm.fmExtents[i]? = some e ∧ fm.holeReadBefore b i = true

variable {fm} {b : ℕ} {e : FiemapExtent}

theorem scanRowOk_eq_false {size flags : ℕ} (he : e.skipped = false) (hin : e.feLogical < size)
    (hhole : fm.HoleReadBefore b e) (hflags : flags &&& FILE_HOLE_EXTENT_CHECKED = 0) :
    fm.scanRowOk b size flags = false := by
  obtain ⟨i, hi, hread⟩ := hhole
  have hlt : i < fm.fmExtents.length := (List.getElem?_eq_some_iff.mp hi).1
  have hrefused : fm.rowRefusedAt b size flags i e = true := by
    simp [rowRefusedAt, he, hin, hread, hflags]
  rw [scanRowOk, Bool.not_eq_false', List.any_eq_true]
  exact ⟨i, List.mem_range.mpr hlt, by rw [hi]; exact hrefused⟩

/-- The gap before a record that `hole_read_before()` does not hold of, where there is one, lies on
the block grid behind the start of the file or a record without skip flags. -/
theorem gap_of_not_holeReadBefore {p : ℕ} (hnext : fm.nextExtent p = some e)
    (hgap : p < e.feLogical) (hclean : ¬ fm.HoleReadBefore b e) :
    ∃ g, g ≤ p ∧ b ∣ g ∧ b ∣ e.feLogical ∧
      (∀ q, g ≤ q → q < e.feEnd → fm.nextExtent q = some e) ∧
      (g = 0 ∨ ∃ d ∈ fm.fmExtents, d.skipped = false ∧ d.feEnd = g) := by
  have he := nextExtent_mem hnext
  have hsorted := List.pairwise_iff_getElem.mp fm.sorted
  obtain ⟨i, hlt, hi⟩ := List.mem_iff_getElem.mp he
  have hi? : fm.fmExtents[i]? = some e := List.getElem?_eq_some_iff.mpr ⟨hlt, hi⟩
  have hnot : fm.holeReadBefore b i = false := by
    by_contra hread
    exact hclean ⟨i, hi?, by simpa using hread⟩
  unfold holeReadBefore at hnot
  rw [hi?] at hnot
  dsimp only at hnot
  -- a record that ends behind the one before it is `e` or starts behind it
  have hfirst : ∀ g, (∀ j (hj : j < i), fm.fmExtents[j].feEnd ≤ g) → ∀ q, g ≤ q → q < e.feEnd →
      fm.nextExtent q = some e := by
    refine fun g hends q hgq hq => nextExtent_eq_some he hq fun d hd hqd => ?_
    obtain ⟨j, hjlt, rfl⟩ := List.mem_iff_getElem.mp hd
    rcases Nat.lt_trichotomy j i with hji | rfl | hij
    · have := hends j hji
      omega
    · exact hi ▸ le_rfl
    · have hafter := hsorted i j hlt hjlt hij
      rw [hi] at hafter
      have := feEnd_pos he
      omega
  cases i with
  | zero =>
    simp only [lt_self_iff_false, if_false, Option.elim_none, Nat.zero_mod, ne_eq,
      not_true_eq_false, decide_false, Bool.false_or, Bool.or_false, Bool.and_eq_false_imp,
      decide_eq_true_eq, decide_eq_false_iff_not, not_not] at hnot
    exact ⟨0, Nat.zero_le p, Nat.dvd_zero b, Nat.dvd_of_mod_eq_zero (hnot (by omega)),
      hfirst 0 fun j hj => absurd hj (Nat.not_lt_zero j), Or.inl rfl⟩
  | succ j =>
    have hjlt : j < fm.fmExtents.length := by omega
    generalize hd : fm.fmExtents[j] = d at *
    have hd? : fm.fmExtents[j]? = some d := List.getElem?_eq_some_iff.mpr ⟨hjlt, hd⟩
    have hde : d.feEnd ≤ e.feLogical := by
      have := hsorted j (j + 1) hjlt hlt (Nat.lt_succ_self j)
      rwa [hd, hi] at this
    have hdmem : d ∈ fm.fmExtents := hd ▸ List.getElem_mem hjlt
    have hdp : d.feEnd ≤ p := by
      have hdpos := feEnd_pos hdmem
      have hepos := feEnd_pos he
      rcases nextExtent_order hnext d hdmem with hend | rfl | hafter <;> omega
    simp only [Nat.zero_lt_succ, if_true, Nat.add_sub_cancel, hd?, Option.elim_some,
      Bool.and_eq_false_imp, decide_eq_true_eq, Bool.or_eq_false_iff, decide_eq_false_iff_not,
      ne_eq, not_not] at hnot
    obtain ⟨⟨hskip, hstart⟩, hend⟩ := hnot (by omega)
    refine ⟨d.feEnd, hdp, Nat.dvd_of_mod_eq_zero hstart, Nat.dvd_of_mod_eq_zero hend,
      hfirst _ fun k hk => ?_, Or.inr ⟨d, hdmem, hskip, rfl⟩⟩
    rcases Nat.lt_or_ge k j with hkj | hjk
    · have := hsorted k j (by omega) hjlt hkj
      have := feEnd_pos hdmem
      rw [hd] at *
      omega
    · obtain rfl : k = j := by omega
      rw [hd]

theorem eq_of_feLogical_eq {d : FiemapExtent} (hd : d ∈ fm.fmExtents) (he : e ∈ fm.fmExtents)
    (h : d.feLogical = e.feLogical) : d = e := by
  have hsorted := List.pairwise_iff_getElem.mp fm.sorted
  have hdpos := feEnd_pos hd
  have hepos := feEnd_pos he
  obtain ⟨i, hi, rfl⟩ := List.mem_iff_getElem.mp hd
  obtain ⟨j, hj, rfl⟩ := List.mem_iff_getElem.mp he
  rcases Nat.lt_trichotomy i j with hij | rfl | hji
  · have := hsorted i j hi hj hij
    omega
  · rfl
  · have := hsorted j i hj hi hji
    omega

theorem holeBlock_of_dvd {off : ℕ} (hnext : fm.nextExtent off = some e)
    (hoff : b ∣ off) (hend : b ∣ e.feLogical) (hlt : off < e.feLogical) : fm.HoleBlock b off := by
  have hle : off + b ≤ e.feLogical := by
    obtain ⟨k, rfl⟩ := hoff
    obtain ⟨m, hm⟩ := hend
    rw [hm] at hlt ⊢
    have := Nat.lt_of_mul_lt_mul_left hlt
    rw [← Nat.mul_succ]
    exact Nat.mul_le_mul_left b this
  simp [HoleBlock, blockIsHole, hnext, hle]

end Fiemap

namespace Hashing

variable {δ : Type*} (job : Hashing δ) (content : ℕ → UInt8)

def Vouched (e : FiemapExtent) : Prop := ¬ job.fiemap.HoleReadBefore job.blocksize e

def GapsOnGrid (off : ℕ) : Prop :=
  ∀ e, job.fiemap.nextExtent off = some e → e.skipped = false → job.Vouched e →
    off < e.feLogical → job.blocksize ∣ off

/-- The row is that of a record that starts in the file, and right if the record is vouched for. -/
def RowIn (row : ExtentCsum δ) : Prop :=
  ∃ e ∈ job.fiemap.fmExtents, e.skipped = false ∧ e.feLogical < job.filesize ∧
    job.RowOf content job.Vouched e row

/-- The last byte of the file is in a hole, and a record without skip flags follows it past the
end. -/
def LateTail : Prop :=
  ∃ e, job.fiemap.nextExtent (job.filesize - 1) = some e ∧ e.skipped = false ∧
    job.filesize ≤ e.feLogical

structure Traced (p : Progress) (rows : Rows δ) : Prop where
  gaps : job.GapsOnGrid p.off
  digest : job.options.onlyWholeFiles = false →
    job.DigestAt content job.Vouched p.off p.extentCsum
  whole : job.options.onlyWholeFiles = true → p.extentCsum = none
  rows : ∀ row ∈ rows.extents, job.RowIn content row

variable {job content}

theorem holeHashed_of_holeReadBefore {off : ℕ} {e : FiemapExtent} (hdata : e.skipped = false)
    (hlt : e.feLogical < off) (hhole : job.fiemap.HoleReadBefore job.blocksize e) :
    job.holeHashed off = true := by
  obtain ⟨i, hi, hread⟩ := hhole
  obtain ⟨hilt, hie⟩ := List.getElem?_eq_some_iff.mp hi
  have hsorted := List.pairwise_iff_getElem.mp job.fiemap.sorted
  -- the records up to this one all start below `off`
  have hbefore : ∀ j ∈ List.range (i + 1),
      ((job.fiemap.fmExtents[j]?).any fun x => decide (x.feLogical < off)) = true := by
    intro j hj
    have hji := List.mem_range.mp hj
    have hjlt : j < job.fiemap.fmExtents.length := by omega
    rw [List.getElem?_eq_getElem hjlt, Option.any_some, decide_eq_true_eq]
    rcases Nat.eq_or_lt_of_le (Nat.le_of_lt_succ hji) with rfl | hlt'
    · rwa [hie]
    · have hend := hsorted j i hjlt hilt hlt'
      have := Fiemap.feEnd_pos (List.getElem_mem hjlt)
      rw [hie] at hend
      omega
  unfold holeHashed
  rw [List.any_eq_true]
  refine ⟨i, ?_, by simp [hi, hdata, hread]⟩
  obtain ⟨n, hn⟩ : ∃ n, job.fiemap.fmExtents.length = i + 1 + n :=
    ⟨job.fiemap.fmExtents.length - (i + 1), by omega⟩
  rw [hn, List.range_add, List.takeWhile_append_of_pos hbefore]
  exact List.mem_append_left _ (List.mem_range.mpr (Nat.lt_succ_self i))

theorem adoptResume_of_holeReadBefore {cp : ScanCheckpoint} {e : FiemapExtent}
    (hold : cp.v1 = true) (hdata : e.skipped = false) (hlt : e.feLogical < cp.loff)
    (hhole : job.fiemap.HoleReadBefore job.blocksize e) : job.adoptResume cp = false := by
  unfold adoptResume
  rw [if_pos ⟨hold, holeHashed_of_holeReadBefore hdata hlt hhole⟩]

end Hashing

namespace ScanEnv

variable {δ ω : Type*} {env : ScanEnv δ ω} {content : ℕ → UInt8} {s t : LoopState δ ω}
  {rows emit : Rows δ}

/-- A turn that is no hole run meets no byte of a gap before a record that is vouched for. -/
theorem Turn.meets_no_gap {eof : Bool} (h : env.Turn content eof s t emit)
    (hsound : env.Sound content s.ctxt s.buffer) (hgrid : env.GapsOnGrid s.ctxt.off)
    (hdata : ¬ env.fiemap.HoleBlock env.blocksize s.ctxt.off) {p : ℕ} {e : FiemapExtent}
    (hlo : s.ctxt.off ≤ p) (hhi : p < t.ctxt.off) (hnext : env.fiemap.nextExtent p = some e)
    (hskip : e.skipped = false) (hvouched : env.Vouched e) : e.feLogical ≤ p := by
  by_contra hgap
  push Not at hgap
  obtain ⟨g, hgp, hg, hend, hsame, hstart⟩ :=
    Fiemap.gap_of_not_holeReadBefore hnext hgap hvouched
  have hepos := Fiemap.feEnd_pos (Fiemap.nextExtent_mem hnext)
  have hholeAt : ∀ q, g ≤ q → q < e.feLogical → env.blocksize ∣ q →
      env.fiemap.HoleBlock env.blocksize q := fun q hgq hq hdvd =>
    Fiemap.holeBlock_of_dvd (hsame q hgq (by omega)) hdvd hend hq
  rcases Nat.lt_or_ge s.ctxt.off g with hbefore | hin
  · rcases hstart with rfl | ⟨d, hd, hdskip, rfl⟩
    · exact absurd hbefore (Nat.not_lt_zero _)
    cases h with
    | hole hhole => exact hdata hhole
    | faked _ hfakes heof hctxt hbuffer =>
      -- the faked buffer would cover the end of the record before the gap
      rw [hctxt] at hhi
      dsimp only at hhi
      have hdpos := Fiemap.feEnd_pos hd
      have hover : d.Overlaps s.ctxt.off (s.ctxt.off + env.fakeLen) :=
        Fiemap.overlaps_iff.mpr ⟨d.feEnd - 1, by omega, by omega, by omega, by omega⟩
      rw [hfakes.1.1 d hd hover] at hdskip
      cases hdskip
    | @read _ _ _ cap stop _ hno hcap hslo hshi hread heof hctxt hbuffer =>
      -- and a read stops where the gap begins
      have hle := env.consumes_le eof s.ctxt.off stop
      rw [hctxt] at hhi
      dsimp only at hhi
      have hbelow := hsound.le_cap hcap
      have hstop : stop ≤ cap := by
        unfold wantAt at hshi
        omega
      exact hcap.no_hole d.feEnd hbefore.le (by omega) hg (hholeAt d.feEnd le_rfl (by omega) hg)
  · exact hdata (hholeAt s.ctxt.off hin (by omega)
      (hgrid e (hsame _ hin (by omega)) hskip hvouched (by omega)))

/-- A turn that is not the last makes rows only if it ends below the end of the file. -/
theorem Turn.inside (h : env.Turn content false s t emit) :
    env.fiemap.HoleBlock env.blocksize s.ctxt.off ∧ emit = ∅ ∧
        t.ctxt.extentCsum = s.ctxt.extentCsum ∧ t.ctxt.off = s.ctxt.off +
          env.fiemap.holeRun env.blocksize env.filesize s.ctxt.off ∨
      ¬ env.fiemap.HoleBlock env.blocksize s.ctxt.off ∧ t.ctxt.off < env.filesize := by
  cases h with
  | hole hhole hctxt hbuffer =>
    rw [hctxt]
    exact Or.inl ⟨hhole, rfl, rfl, rfl⟩
  | faked hdata hfakes heof hctxt hbuffer =>
    have hlt : ¬ env.filesize ≤ s.ctxt.off + env.fakeLen := by simpa using heof
    rw [hctxt]
    exact Or.inr ⟨hdata, by simpa using hlt⟩
  | @read _ _ _ cap stop hdata hno hcap hlo hhi hread heof hctxt hbuffer =>
    have hlt : ¬ (env.filesize ≤ stop ∨ stop = s.ctxt.off + s.buffer.data.length) := by
      simpa using heof
    have hle := env.consumes_le false s.ctxt.off stop
    rw [hctxt]
    refine Or.inr ⟨hdata, ?_⟩
    dsimp only
    omega

theorem Turn.whole {eof : Bool} (h : env.Turn content eof s t emit)
    (hwhole : env.options.onlyWholeFiles = true) :
    emit.extents = [] ∧ t.ctxt.extentCsum = s.ctxt.extentCsum := by
  cases h with
  | hole hhole hctxt hbuffer =>
    rw [hctxt]
    exact ⟨rfl, rfl⟩
  | faked hdata hfakes heof hctxt hbuffer =>
    rw [hctxt]
    simp [Hashing.extentsAfter, hwhole]
  | read hdata hno hcap hlo hhi hread heof hctxt hbuffer =>
    rw [hctxt]
    simp [Hashing.extentsAfter, hwhole]

theorem Turn.gapsOnGrid (h : env.Turn content false s t emit)
    (hsound : env.Sound content s.ctxt s.buffer) (hlt : s.ctxt.off < env.filesize)
    (hgrid : env.GapsOnGrid s.ctxt.off) : env.GapsOnGrid t.ctxt.off := by
  intro e hnext hskip hvouched hgap
  rcases h.inside with ⟨hhole, -, -, hoff⟩ | ⟨hdata, -⟩
  · have hrun := (env.fiemap.holeRun_pos_iff env.blocksize_pos hlt).mpr hhole
    cases hfirst : env.fiemap.nextExtent s.ctxt.off with
    | none =>
      have := Fiemap.nextExtent_eq_none hfirst e (Fiemap.nextExtent_mem hnext)
      have := Fiemap.nextExtent_lt hnext
      omega
    | some d =>
      rw [hoff]
      exact Fiemap.dvd_add_holeRun hfirst hrun
  · obtain ⟨g, hgp, hg, hend, hsame, -⟩ := Fiemap.gap_of_not_holeReadBefore hnext hgap hvouched
    have hepos := Fiemap.feEnd_pos (Fiemap.nextExtent_mem hnext)
    have hmono := h.off_mono
    by_cases hmoved : s.ctxt.off = t.ctxt.off
    · rw [← hmoved] at hnext hgap ⊢
      exact hgrid e hnext hskip hvouched hgap
    · rcases Nat.eq_or_lt_of_le hgp with rfl | hgt
      · exact hg
      · have := h.meets_no_gap hsound hgrid hdata (show s.ctxt.off ≤ t.ctxt.off - 1 by omega)
          (by omega) (hsame _ (by omega) (by omega)) hskip hvouched
        omega

end ScanEnv

namespace Hashing

variable {δ ω : Type*} {env : ScanEnv δ ω} {content : ℕ → UInt8} {s t : LoopState δ ω}
  {rows emit : Rows δ}

theorem RowsOf.rowIn {off stop : ℕ} {new : List (ExtentCsum δ)}
    (h : env.RowsOf content env.Vouched off stop new)
    (hlate : stop = env.filesize → ¬ env.LateTail) : ∀ row ∈ new, env.RowIn content row := by
  intro row hrow
  obtain ⟨e, he, hdata, hin | ⟨hstop, hnext⟩, hof⟩ := h.rowOf row hrow
  · exact ⟨e, he, hdata, hin, hof⟩
  · rcases Nat.lt_or_ge e.feLogical env.filesize with hin | hpast
    · exact ⟨e, he, hdata, hin, hof⟩
    · rw [hstop] at hnext
      exact absurd ⟨e, hnext, hdata, hpast⟩ (hlate hstop)

/-- The rows of a turn in a traced scan. -/
theorem Traced.rowsOf {eof : Bool} (h : env.Traced content s.progress rows)
    (hturn : env.Turn content eof s t emit) (hsound : env.Sound content s.ctxt s.buffer)
    (hextents : env.options.onlyWholeFiles = false) (hin : t.ctxt.off ≤ env.filesize) :
    env.DigestAt content env.Vouched t.ctxt.off t.ctxt.extentCsum ∧
      env.RowsOf content env.Vouched s.ctxt.off t.ctxt.off emit.extents :=
  hturn.extents hextents hin
    (fun hdata _ _ _ hlo hhi hnext => hturn.meets_no_gap hsound h.gaps hdata hlo hhi hnext)
    (h.digest hextents)

theorem Traced.turn (h : env.Traced content s.progress rows)
    (hturn : env.Turn content false s t emit) (hsound : env.Sound content s.ctxt s.buffer)
    (hlt : s.ctxt.off < env.filesize) : env.Traced content t.progress (rows ++ emit) := by
  have hgaps := hturn.gapsOnGrid hsound hlt h.gaps
  have hrows : ∀ row ∈ (rows ++ emit).extents, row ∈ rows.extents ∨ row ∈ emit.extents :=
    fun row hrow => List.mem_append.mp hrow
  cases hwhole : env.options.onlyWholeFiles with
  | true =>
    obtain ⟨hemit, hcsum⟩ := hturn.whole hwhole
    refine ⟨hgaps, fun hext => ?_, fun hw => hcsum.trans (h.whole hw), fun row hrow => ?_⟩
    · rw [hwhole] at hext
      cases hext
    · rcases hrows row hrow with hrow | hrow
      · exact h.rows row hrow
      · rw [hemit] at hrow
        exact absurd hrow List.not_mem_nil
  | false =>
    have hnotWhole : env.options.onlyWholeFiles = true → t.ctxt.extentCsum = none := fun hw => by
      rw [hwhole] at hw
      cases hw
    rcases hturn.inside with ⟨hhole, rfl, hcsum, hoff⟩ | ⟨-, hin⟩
    · refine ⟨hgaps, fun hext => ?_, hnotWhole, fun row hrow => ?_⟩
      · change env.DigestAt content env.Vouched t.ctxt.off t.ctxt.extentCsum
        rw [hcsum, hoff]
        exact (h.digest hext).of_holeRun hhole
      · exact (hrows row hrow).elim (h.rows row) fun hrow => absurd hrow List.not_mem_nil
    · obtain ⟨hdigest, hof⟩ := h.rowsOf hturn hsound hwhole hin.le
      refine ⟨hgaps, fun _ => hdigest, hnotWhole, fun row hrow => ?_⟩
      exact (hrows row hrow).elim (h.rows row) (hof.rowIn (fun hend => by omega) row)

theorem Traced.makes {base : Rows δ} (h : env.Traced content s.progress base)
    (hmakes : env.Makes content s t rows) (hsound : env.Sound content s.ctxt s.buffer) :
    env.Traced content t.progress (base ++ rows) := by
  induction hmakes with
  | refl => rwa [Rows.append_empty]
  | turn head hlt hturn ih =>
    rw [← Rows.append_assoc]
    exact ih.turn hturn (head.sound hsound) hlt

theorem ScannedTo.traced {job : Hashing δ} {p : Progress} (h : job.ScannedTo content p rows) :
    job.Traced content p rows := by
  refine h.invariant ⟨?_, fun _ => .of_none_begun fun _ _ _ _ => Nat.zero_le _, fun _ => rfl,
    fun _ hrow => absurd hrow List.not_mem_nil⟩ ?_
  · intro e _ _ _ _
    exact Nat.dvd_zero _
  · rintro scan s t rows emit rfl hsound hlt hturn htraced
    exact htraced.turn hturn hsound hlt

/-- The rows of a scan that comes to the end of the file, if the last byte is not read into a record
past the end. -/
theorem Traced.finishes {base : Rows δ} (h : env.Traced content s.progress base)
    (hfinishes : env.Finishes content s t rows) (hsound : env.Sound content s.ctxt s.buffer)
    (hend : t.ctxt.off = env.filesize)
    (hlate : env.options.onlyWholeFiles = false → env.LateTail → ∀ u v, env.Reaches s u →
      u.ctxt.off < env.filesize → env.csumPass u ≠ .leave v) :
    ∀ row ∈ (base ++ rows).extents, env.RowIn content row := by
  cases hfinishes with
  | done head hge => exact (h.makes head hsound).rows
  | @last u _ rows emit head hlt hturn hreach hpass =>
    have htraced := h.makes head hsound
    intro row hrow
    rw [← Rows.append_assoc] at hrow
    rcases List.mem_append.mp hrow with hrow | hrow
    · exact htraced.rows row hrow
    cases hwhole : env.options.onlyWholeFiles with
    | true =>
      rw [(hturn.whole hwhole).1] at hrow
      exact absurd hrow List.not_mem_nil
    | false =>
      exact (htraced.rowsOf hturn (head.sound hsound) hwhole hend.le).2.rowIn
        (fun _ htail => hlate hwhole htail u t hreach hlt hpass) row hrow

/-- A row with a wrong digest lies behind a hole that may have been read. -/
theorem RowIn.holeReadBefore {job : Hashing δ} {row : ExtentCsum δ} {e : FiemapExtent}
    (h : job.RowIn content row) (he : e ∈ job.fiemap.fmExtents) (hloff : row.loff = e.feLogical)
    (hwrong : row.digest ≠ (job.extentRow content e).digest) : e.skipped = false ∧
      e.feLogical < job.filesize ∧ job.fiemap.HoleReadBefore job.blocksize e := by
  obtain ⟨d, hd, hdata, hin, hof⟩ := h
  obtain rfl := Fiemap.eq_of_feLogical_eq hd he (hof.loff.symm.trans hloff)
  exact ⟨hdata, hin, not_not.mp fun hvouched => hwrong (hof.digest hvouched)⟩

theorem Traced.holeReadBefore {job : Hashing δ} {p : Progress} {cp : ScanCheckpoint}
    {e : FiemapExtent} {csum : List UInt8} (h : job.Traced content p rows)
    (hcp : job.checkpointAt p = some cp) (hin : p.off < job.filesize)
    (he : e ∈ job.fiemap.fmExtents) (hstate : cp.extState = some (e.feLogical, e.feLength, csum))
    (hlt : e.feLogical < p.off) (hwrong : csum ≠ slice content e.feLogical p.off) :
    e.skipped = false ∧ job.fiemap.HoleReadBefore job.blocksize e := by
  rcases p with ⟨off, fileCsum, _ | held⟩
  · obtain rfl := Option.some.inj hcp
    cases hstate
  obtain ⟨d, hnext, rfl⟩ := Option.map_eq_some_iff.mp hcp
  obtain ⟨hlog, hstate⟩ := Prod.ext_iff.mp (Option.some.inj hstate)
  obtain ⟨-, hheld⟩ := Prod.ext_iff.mp hstate
  dsimp only at hlog hheld hin hlt hwrong hnext
  obtain rfl := Fiemap.eq_of_feLogical_eq (Fiemap.nextExtent_mem hnext) he hlog
  subst hheld
  have hextents : job.options.onlyWholeFiles = false := by
    by_contra hwhole
    exact absurd (h.whole (by simpa using hwhole)) (by simp)
  have hdigest := h.digest hextents
  have hdata : d.skipped = false := by
    by_contra hskip
    exact absurd (hdigest.outside hin d hnext (Or.inl (by simpa using hskip))) (by simp)
  exact ⟨hdata, not_not.mp fun hvouched =>
    hwrong (Option.some.inj (hdigest.inside hin d hnext hdata hvouched hlt))⟩

end Hashing

namespace FileScan

variable {δ : Type*}

end FileScan

/-- A hole that ends inside a block, and data behind it up to the end of the file. -/
def oldGapFile : FileToScan where
  filesize := 4104
  mtime := 0
  fiemap := ⟨[⟨4100, 8192, 4092, FIEMAP_EXTENT_LAST⟩], by simp, by simp⟩

def oldGapScan : FileScan (List UInt8) :=
  { tailScan with
    options := ⟨fourKiB, true, false, false, true⟩
    file := oldGapFile }

theorem oldGapScan_stores : ∃ w', oldGapScan.csumWholeFile 3 none (.opened .empty) =
    some (.stored w') ∧ w'.view.extents = [⟨4100, 8192, 4092, [6, 7, 8, 9, 10, 11, 12, 13]⟩] :=
  ⟨_, rfl, rfl⟩

/-- One byte, all hole, and a record past the end that starts in the same block. -/
def lateFile : FileToScan where
  filesize := 1
  mtime := 0
  fiemap := ⟨[⟨4096, 4096, 4096, FIEMAP_EXTENT_LAST⟩], by simp, by simp⟩

def lateScan : FileScan (List UInt8) :=
  { tailScan with
    options := ⟨eightKiB, false, false, false, true⟩
    file := lateFile
    pread := fullReads fun _ => 0 }

end Oans
