import Oans.HashRuns

/-!
# Where the hash loop ends

A file that nothing disturbs leaves the loop, and at the file size unless a hole run took the
offset past it. `hole_run_length()` runs a hole without a record behind it to the file size; a
hole with a record behind it is floored to that record's block, which lies past the end of the
file when the record was preallocated there.
-/

namespace Oans

open Slice

namespace ScanEnv

variable {δ ω : Type*}

/-- The hole run at `off` goes to the block of a record that starts past the end of the file. -/
def RunsPastEof (env : ScanEnv δ ω) (off : ℕ) : Prop :=
  ∃ e, env.fiemap.nextExtent off = some e ∧ off + env.blocksize ≤ e.feLogical ∧
    env.filesize < floorBlock env.blocksize e.feLogical

variable {env : ScanEnv δ ω} {content : ℕ → UInt8} {s t : LoopState δ ω}
  {emit : Rows δ}

theorem RunsPastEof.off_lt (h : env.RunsPastEof s.ctxt.off)
    (hturn : env.Turn content false s t emit) : env.filesize < t.ctxt.off := by
  obtain ⟨e, hnext, hfar, hpast⟩ := h
  have hhole : env.fiemap.HoleBlock env.blocksize s.ctxt.off := by
    unfold Fiemap.HoleBlock Fiemap.blockIsHole
    simpa [hnext] using hfar
  cases hturn with
  | hole _ hctxt hbuffer =>
    rw [hctxt]
    simp only [Fiemap.holeRun, hnext, hfar, if_true]
    omega
  | faked hdata => exact absurd hhole hdata
  | read hdata => exact absurd hhole hdata

/-- A turn that is not the last comes to the end of the file exactly, unless it runs past it. -/
theorem Turn.off_le (h : env.Turn content false s t emit) (hsound : env.Sound content s.ctxt s.buffer)
    (hlt : s.ctxt.off < env.filesize) (hpast : ¬ env.RunsPastEof s.ctxt.off) :
    t.ctxt.off ≤ env.filesize := by
  cases h with
  | hole hhole hctxt hbuffer =>
    rw [hctxt]
    simp only
    cases hnext : env.fiemap.nextExtent s.ctxt.off with
    | none =>
      simp only [Fiemap.holeRun, hnext]
      omega
    | some e =>
      have hfar : s.ctxt.off + env.blocksize ≤ e.feLogical := by
        unfold Fiemap.HoleBlock Fiemap.blockIsHole at hhole
        simpa [hnext] using hhole
      have hfloor : floorBlock env.blocksize e.feLogical ≤ env.filesize := by
        by_contra hgt
        exact hpast ⟨e, hnext, hfar, by omega⟩
      simp only [Fiemap.holeRun, hnext, hfar, if_true]
      omega
  | faked hdata hfakes heof hctxt hbuffer =>
    rw [hctxt]
    exact hfakes.2
  | @read _ _ _ cap stop hdata hno hcap hlo hhi hread heof hctxt hbuffer =>
    have hle := env.consumes_le false s.ctxt.off stop
    have hbelow := hsound.le_cap hcap
    have hcaple := hcap.le
    rw [hctxt]
    unfold wantAt at hhi
    simp only
    omega

theorem RunsPastEof.holeBlock {off : ℕ} (h : env.RunsPastEof off) :
    env.fiemap.HoleBlock env.blocksize off := by
  obtain ⟨e, hnext, hfar, -⟩ := h
  unfold Fiemap.HoleBlock Fiemap.blockIsHole
  simpa [hnext] using hfar

section Leaves

variable {w : ω} {fuel : ℕ} {r : LoopState δ ω} (hreads : env.ReadsFrom content)
  (hrun : env.Undisturbed) (hloop : env.csumLoop fuel (env.freshState w) = some (.leave r))

include hreads hrun hloop

theorem off_eq_of_never_past (hnever : ∀ t, env.Reaches (env.freshState w) t →
    t.ctxt.off < env.filesize → ¬ env.RunsPastEof t.ctxt.off) : r.ctxt.off = env.filesize := by
  have hsound : ∀ t, env.Reaches (env.freshState w) t → env.Sound content t.ctxt t.buffer :=
    fun t ht => ht.sound hreads hrun.quiet (env.freshState_sound content w)
  cases csumLoop_ends hloop with
  | done hreach hge =>
    have hle : r.ctxt.off ≤ env.filesize := by
      cases hreach with
      | refl => simp [freshState]
      | turn hhead hlt hpass =>
        obtain ⟨emit, hturn, -⟩ := turn_of_next hreads hrun.quiet (hsound _ hhead) hlt hpass
        exact hturn.off_le (hsound _ hhead) hlt (hnever _ hhead hlt)
    omega
  | pass hreach hlt hpass hlast =>
    obtain ⟨emit, hturn, -⟩ := turn_of_leave hreads hrun.quiet (hsound _ hreach) hlt hpass
    exact hturn.off_eq hrun.reads (hsound _ hreach) hlt

/-- The run goes on from such a state by its hole run, and ends past the end of the file. -/
theorem off_gt_of_past (ht : env.Reaches (env.freshState w) t) (hlt : t.ctxt.off < env.filesize)
    (hpast : env.RunsPastEof t.ctxt.off) : env.filesize < r.ctxt.off := by
  have hsound := ht.sound hreads hrun.quiet (env.freshState_sound content w)
  obtain ⟨fuel', hrest⟩ := ht.csumLoop hloop
  rcases hrun.csumPass hreads hsound hlt with ⟨u, hu⟩ | ⟨u, hu⟩
  · obtain ⟨emit, hturn, -⟩ := turn_of_next hreads hrun.quiet hsound hlt hu
    have hfar := hpast.off_lt hturn
    obtain ⟨fuel'', hend⟩ := (Reaches.refl.turn hlt hu).csumLoop hrest
    cases fuel'' with
    | zero => simp [ScanEnv.csumLoop] at hend
    | succ n =>
      rw [ScanEnv.csumLoop, if_neg (by omega)] at hend
      cases hend
      exact hfar
  · obtain ⟨emit, hturn, -⟩ := turn_of_leave hreads hrun.quiet hsound hlt hu
    cases hturn with
    | faked hdata => exact absurd hpast.holeBlock hdata
    | read hdata => exact absurd hpast.holeBlock hdata

end Leaves

/-- No record that starts in a block past the end of the file: every scan ends at its size. -/
theorem off_eq_of_no_late_record {w : ω} {fuel : ℕ} {r : LoopState δ ω}
    (hreads : env.ReadsFrom content) (hrun : env.Undisturbed)
    (hloop : env.csumLoop fuel (env.freshState w) = some (.leave r))
    (hlate : ∀ e ∈ env.fiemap.fmExtents,
      floorBlock env.blocksize e.feLogical ≤ env.filesize) : r.ctxt.off = env.filesize := by
  refine off_eq_of_never_past hreads hrun hloop fun t _ _ hpast => ?_
  obtain ⟨e, hnext, -, hgt⟩ := hpast
  have := hlate e (Fiemap.nextExtent_mem hnext)
  omega

/-- A hole block of the grid that runs past the end of the file is never jumped over where no
buffer is faked, so the file never ends at its size. -/
theorem off_ne_of_late_record {w : ω} {fuel c : ℕ} {r : LoopState δ ω}
    (hreads : env.ReadsFrom content) (hrun : env.Undisturbed)
    (hloop : env.csumLoop fuel (env.freshState w) = some (.leave r))
    (hplain : ∀ e ∈ env.fiemap.fmExtents, e.skipped = false) (hlt : c < env.filesize)
    (hdvd : env.blocksize ∣ c) (hpast : env.RunsPastEof c) : r.ctxt.off ≠ env.filesize := by
  intro hoff
  have hnever : ∀ t, env.Reaches (env.freshState w) t → t.ctxt.off < env.filesize →
      ¬ env.RunsPastEof t.ctxt.off := by
    intro t ht hlt hpast
    have := off_gt_of_past hreads hrun hloop ht hlt hpast
    omega
  have hfakes : ∀ off, ¬ env.Fakes off := by
    rintro off ⟨⟨hall, e, he, hover⟩, -⟩
    have hskip := hall e he hover
    rw [hplain e he] at hskip
    cases hskip
  have hcaple : ∀ off cap, off ≤ c → env.IsReadCap off cap → cap ≤ c := by
    intro off cap hle hcap
    by_contra hgt
    exact hcap.no_hole c hle (by omega) hdvd hpast.holeBlock
  have hsound : ∀ t, env.Reaches (env.freshState w) t → env.Sound content t.ctxt t.buffer :=
    fun t ht => ht.sound hreads hrun.quiet (env.freshState_sound content w)
  have hreadle : ∀ eof s t emit, env.Sound content s.ctxt s.buffer → s.ctxt.off ≤ c →
      ¬ env.fiemap.HoleBlock env.blocksize s.ctxt.off → env.Turn content eof s t emit →
      t.ctxt.off ≤ c := by
    intro eof s t emit hs hle hdata hturn
    cases hturn with
    | hole hhole => exact absurd hhole hdata
    | faked _ hf => exact absurd hf (hfakes _)
    | @read _ _ _ cap stop _ _ hcap hlo hhi _ _ hctxt =>
      have := hcaple _ _ hle hcap
      have := hs.le_cap hcap
      have := env.consumes_le eof s.ctxt.off stop
      rw [hctxt]
      unfold wantAt at hhi
      simp only
      omega
  have hbound : ∀ t, env.Reaches (env.freshState w) t → t.ctxt.off ≤ c := by
    intro t ht
    induction ht with
    | refl => exact Nat.zero_le c
    | @turn s u hhead hslt hpass ih =>
      obtain ⟨emit, hturn, -⟩ := turn_of_next hreads hrun.quiet (hsound _ hhead) hslt hpass
      by_cases hhole : env.fiemap.HoleBlock env.blocksize s.ctxt.off
      · obtain ⟨e, hnext, hfar, hgt⟩ := hpast
        cases hturn with
        | faked hdata => exact absurd hhole hdata
        | read hdata => exact absurd hhole hdata
        | hole _ hctxt =>
          rw [hctxt]
          simp only
          cases hd : env.fiemap.nextExtent s.ctxt.off with
          | none =>
            have := Fiemap.nextExtent_eq_none hd e (Fiemap.nextExtent_mem hnext)
            have := Fiemap.nextExtent_lt hnext
            omega
          | some d =>
            have hdfar : s.ctxt.off + env.blocksize ≤ d.feLogical := by
              unfold Fiemap.HoleBlock Fiemap.blockIsHole at hhole
              simpa [hd] using hhole
            simp only [Fiemap.holeRun, hd, hdfar, if_true]
            by_cases hend : d.feEnd ≤ c
            · have := floorBlock_le env.blocksize d.feLogical
              have := Fiemap.feEnd_pos (Fiemap.nextExtent_mem hd)
              omega
            · -- the same record follows `c`, so this run goes past the end already
              have hsame := Fiemap.nextExtent_congr hd ih (by omega)
              rw [hnext] at hsame
              cases hsame
              exact absurd ⟨e, hd, hdfar, hgt⟩ (hnever s hhead hslt)
      · exact hreadle _ _ _ _ (hsound _ hhead) ih hhole hturn
  cases csumLoop_ends hloop with
  | done hreach hge =>
    have := hbound r hreach
    omega
  | @pass t _ hreach hslt hpass hlast =>
    obtain ⟨emit, hturn, -⟩ := turn_of_leave hreads hrun.quiet (hsound _ hreach) hslt hpass
    have hdata : ¬ env.fiemap.HoleBlock env.blocksize t.ctxt.off := by
      cases hturn with
      | faked hdata => exact hdata
      | read hdata => exact hdata
    have := hreadle _ _ _ _ (hsound _ hreach) (hbound t hreach) hdata hturn
    omega

end ScanEnv

/-- One byte in a hole, and an extent preallocated wholly past it. -/
def preallocatedFile : FileToScan where
  filesize := 1
  mtime := 0
  fiemap := ⟨[⟨8192, 0, 4096, FIEMAP_EXTENT_UNWRITTEN ||| FIEMAP_EXTENT_LAST⟩],
    by simp, by simp⟩

def sparseFile : FileToScan where
  filesize := 12288
  mtime := 0
  fiemap := ⟨[⟨0, 4096, 4096, 0⟩, ⟨8192, 8192, 4096, FIEMAP_EXTENT_UNWRITTEN⟩],
    by simp, by simp [FiemapExtent.feEnd]⟩

def sparseContent (p : ℕ) : UInt8 := if p < 4096 then 1 else 0

end Oans
