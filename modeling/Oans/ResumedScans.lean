import Oans.FailedWrites
import Oans.HoleRecheck

/-!
# Interrupted and resumed scans

With reads that return all they are asked for, what a turn does depends on how far the scan has
come alone: the bytes that were left over are read again. So scans that carry on from each other's
checkpoints make the turns of one scan, and what an interrupted one leaves behind its last
checkpoint is taken away before the next starts.
-/

namespace Oans

open Savepoint Slice

variable {δ : Type*}

def Hashing.stride (job : Hashing δ) (content : ℕ → UInt8) (p : Progress) :
    Bool × Progress × Rows δ :=
  let r := job.advance (fullReads content) ⟨p, []⟩
  (r.1, r.2.1.progress, r.2.2)

def Hashing.BelowEnd (job : Hashing δ) (p : Progress) : Prop := p.off < job.filesize

/-- Turns of one scan from the start of the file lead to `p`, and make `rows`. -/
def Hashing.Passes (job : Hashing δ) (content : ℕ → UInt8) (p : Progress) (rows : Rows δ) : Prop :=
  ∃ emitted, Stepping.Path job.BelowEnd (job.stride content) .zero p emitted ∧
    rows = Rows.joined emitted

theorem Rows.joined_append (emitted emitted' : List (Rows δ)) :
    Rows.joined (emitted ++ emitted') = Rows.joined emitted ++ Rows.joined emitted' := by
  induction emitted' using List.reverseRecOn with
  | nil => rw [List.append_nil]; exact (Rows.append_empty _).symm
  | append_singleton emitted' r ih =>
    rw [← List.append_assoc, Rows.joined, List.foldl_append]
    change Rows.joined (emitted ++ emitted') ++ r = _
    rw [ih, Rows.append_assoc, Rows.joined, Rows.joined, Rows.joined, List.foldl_append]
    rfl

namespace Hashing

variable {job : Hashing δ} {content : ℕ → UInt8} {p : Progress}

theorem stride_hole (hhole : job.fiemap.HoleBlock job.blocksize p.off) :
    job.stride content p = (false, ⟨p.off + job.fiemap.holeRun job.blocksize job.filesize p.off,
      p.fileCsum ++ [.hole p.off (job.fiemap.holeRun job.blocksize job.filesize p.off)],
      p.extentCsum⟩, ∅) := by
  unfold stride advance
  rw [if_pos hhole]

theorem stride_faked (hdata : ¬ job.fiemap.HoleBlock job.blocksize p.off)
    (hfakes : job.Fakes p.off) : job.stride content p =
      (decide (job.filesize ≤ p.off + job.fakeLen),
        ⟨p.off + job.fakeLen, p.fileCsum ++ [.bytes (List.replicate job.fakeLen 0)],
          (job.extentsAfter p.off (List.replicate job.fakeLen 0) job.fakeLen p.extentCsum).1⟩,
        ⟨[], (job.extentsAfter p.off (List.replicate job.fakeLen 0) job.fakeLen
          p.extentCsum).2.reduceOption⟩) := by
  unfold stride advance
  rw [if_neg hdata, if_pos hfakes]

/-- A full read ends at the read cap or with the buffer. -/
theorem stride_read {cap stop : ℕ} {eof : Bool} (hlt : p.off < job.filesize)
    (hdata : ¬ job.fiemap.HoleBlock job.blocksize p.off) (hno : ¬ job.Fakes p.off)
    (hcap : job.IsReadCap p.off cap) (hstop : stop = p.off + min READ_BUF_LEN (cap - p.off))
    (heof : eof = decide (job.filesize ≤ stop)) : job.stride content p =
      (eof, ⟨p.off + job.consumes eof p.off stop,
          p.fileCsum ++ [.bytes (slice content p.off (p.off + job.consumes eof p.off stop))],
          (job.extentsAfter p.off (slice content p.off stop) (job.consumes eof p.off stop)
            p.extentCsum).1⟩,
        ⟨job.turnRows eof p.off ⟨slice content p.off stop, false⟩,
          (job.extentsAfter p.off (slice content p.off stop) (job.consumes eof p.off stop)
            p.extentCsum).2.reduceOption⟩) := by
  have hcap' := Fiemap.nextHoleBlock_isReadCap job.blocksize_pos 0 hlt hdata
  have hread : 0 < READ_BUF_LEN := by decide
  have hcaplt := hcap.lt
  have hle := job.consumes_le eof p.off stop
  have hlen : p.off + (slice content p.off stop).length = stop := by
    rw [length_slice]
    omega
  have hnil : ¬ slice content p.off stop = [] := by
    rw [← List.length_eq_zero_iff, length_slice]
    omega
  unfold stride advance
  rw [if_neg hdata, if_neg hno, hcap'.unique hcap]
  simp only [List.length_nil, Nat.add_zero, fullReads, wantAt, Nat.sub_zero, ← hstop,
    List.nil_append, hlen, hnil, or_false, ← heof]
  rw [slice_take content _ (show p.off + job.consumes eof p.off stop ≤ stop by omega)]

end Hashing

namespace ScanEnv

variable {ω : Type*} {env : ScanEnv δ ω} {content : ℕ → UInt8} {s t : LoopState δ ω}
  {base rows emit : Rows δ}

structure ReadsFully (env : ScanEnv δ ω) (content : ℕ → UInt8) : Prop where
  reads : env.ReadsFrom content
  full : ∀ pos want, pos + want ≤ env.filesize →
    env.pread pos want = some (slice content pos (pos + want))

theorem Turn.stride {eof : Bool} (h : env.Turn content eof s t emit)
    (hfull : env.ReadsFully content) (hsound : env.Sound content s.ctxt s.buffer)
    (hlt : s.ctxt.off < env.filesize) :
    env.stride content s.progress = (eof, t.progress, emit) := by
  cases h with
  | hole hhole hctxt hbuffer =>
    rw [LoopState.progress, Hashing.stride_hole hhole, LoopState.progress, hctxt]
  | faked hdata hfakes heof hctxt hbuffer =>
    rw [LoopState.progress, Hashing.stride_faked hdata hfakes, LoopState.progress, hctxt, heof]
  | @read _ _ _ cap stop hdata hno hcap hlo hhi hread heof hctxt hbuffer =>
    have hwant := hsound.want_pos hlt hcap
    have hroom := hsound.length_le
    have hbelow := hsound.le_cap hcap
    have hcaple := hcap.le
    -- the bytes left over are read again
    have hstop : stop = s.ctxt.off + min READ_BUF_LEN (cap - s.ctxt.off) := by
      have hall := hfull.full (s.ctxt.off + s.buffer.data.length)
        (wantAt s.ctxt.off s.buffer.data.length cap) (by unfold wantAt; omega)
      have hlen := congrArg List.length (Option.some.inj (hread.symm.trans hall))
      rw [length_slice, length_slice] at hlen
      unfold wantAt at hlen hhi
      omega
    have heof' : eof = decide (env.filesize ≤ stop) := by
      rw [heof, decide_eq_decide]
      unfold wantAt at hwant
      omega
    rw [@Hashing.stride_read _ env.toHashing content s.progress _ _ _ hlt hdata hno hcap hstop
      heof', LoopState.progress, LoopState.progress, hctxt]

theorem Makes.strides (h : env.Makes content s t rows) (hfull : env.ReadsFully content)
    (hsound : env.Sound content s.ctxt s.buffer) : ∃ emitted,
    Stepping.Path env.BelowEnd (env.stride content) s.progress t.progress emitted ∧
      rows = Rows.joined emitted := by
  induction h with
  | refl => exact ⟨[], .refl, rfl⟩
  | turn head hlt hturn ih =>
    obtain ⟨emitted, hpath, rfl⟩ := ih
    refine ⟨_, hpath.snoc hlt (hturn.stride hfull (head.sound hsound) hlt), ?_⟩
    rw [Rows.joined_append]
    rfl

theorem Finishes.strides (h : env.Finishes content s t rows) (hfull : env.ReadsFully content)
    (hsound : env.Sound content s.ctxt s.buffer) : ∃ emitted,
    Stepping.Evaluates env.BelowEnd (env.stride content) s.progress t.progress emitted ∧
      rows = Rows.joined emitted := by
  cases h with
  | done head hge =>
    obtain ⟨emitted, hpath, rfl⟩ := head.strides hfull hsound
    refine ⟨_, hpath.evaluates (.stop fun hlt => ?_), by rw [List.append_nil]⟩
    exact absurd hlt (Nat.not_lt.mpr hge)
  | last head hlt hturn =>
    obtain ⟨emitted, hpath, rfl⟩ := head.strides hfull hsound
    refine ⟨_, hpath.evaluates (.last hlt (hturn.stride hfull (head.sound hsound) hlt)), ?_⟩
    rw [Rows.joined_append]
    rfl

theorem Makes.passes (h : env.Makes content s t rows) (hfull : env.ReadsFully content)
    (hsound : env.Sound content s.ctxt s.buffer) (hbase : env.Passes content s.progress base) :
    env.Passes content t.progress (base ++ rows) := by
  obtain ⟨emitted, hpath, rfl⟩ := hbase
  obtain ⟨emitted', hpath', rfl⟩ := h.strides hfull hsound
  exact ⟨_, hpath.trans hpath', (Rows.joined_append _ _).symm⟩

/-- A scan that comes to the end has made the rows of one scan. -/
theorem Finishes.completes (h : env.Finishes content s t rows) (hfull : env.ReadsFully content)
    (hsound : env.Sound content s.ctxt s.buffer) (hbase : env.Passes content s.progress base) :
    ∃ emitted, Stepping.Evaluates env.BelowEnd (env.stride content) .zero t.progress emitted ∧
      base ++ rows = Rows.joined emitted := by
  obtain ⟨emitted, hpath, rfl⟩ := hbase
  obtain ⟨emitted', heval, rfl⟩ := h.strides hfull hsound
  exact ⟨_, hpath.evaluates heval, (Rows.joined_append _ _).symm⟩

end ScanEnv

/-! ### Extent rows stand below the offset -/

namespace Hashing

variable {job : Hashing δ}

theorem extentRows_loff {stop : ℕ} (hstop : stop < job.filesize) (fuel fileOff : ℕ)
    (buf : List UInt8) (csum : Option (List UInt8)) :
    ∀ row ∈ (job.extentRows stop fuel fileOff buf csum).2.reduceOption, row.loff < stop := by
  induction fuel generalizing fileOff buf csum with
  | zero => exact fun _ h => absurd h List.not_mem_nil
  | succ fuel ih =>
    rw [extentRows]
    by_cases hlt : fileOff < stop
    swap
    · rw [if_neg hlt]
      exact fun _ h => absurd h List.not_mem_nil
    rw [if_pos hlt]
    cases hnext : job.fiemap.nextExtent fileOff with
    | none => exact fun _ h => absurd h List.not_mem_nil
    | some e =>
      have hpos := Fiemap.feEnd_pos (Fiemap.nextExtent_mem hnext)
      by_cases hgap : fileOff < e.feLogical ∧ job.options.oldHoleDigests = false
      · dsimp only
        rw [if_pos hgap]
        exact ih _ _ _
      dsimp only
      rw [if_neg hgap]
      generalize htoAdd : (if stop < e.feEnd then stop - fileOff else e.feEnd - fileOff) = toAdd
      by_cases hclose : fileOff + toAdd + (e.feEnd - job.filesize) = e.feEnd
      · have hin : e.feLogical < stop := by
          split_ifs at htoAdd <;> omega
        rw [if_pos hclose]
        intro row hrow
        by_cases hskip : e.skipped = true
        · simp only [hskip, if_true, List.reduceOption_cons_of_none] at hrow
          exact ih _ _ _ row hrow
        · simp only [hskip, if_false, Bool.false_eq_true, List.reduceOption_cons_of_some] at hrow
          rcases List.mem_cons.mp hrow with rfl | hrow
          · exact hin
          · exact ih _ _ _ row hrow
      · rw [if_neg hclose]
        exact ih _ _ _

end Hashing

namespace ScanEnv

variable {ω : Type*} {env : ScanEnv δ ω} {content : ℕ → UInt8} {s t : LoopState δ ω}
  {base rows emit : Rows δ}

theorem Turn.extents_loff (h : env.Turn content false s t emit) :
    ∀ row ∈ emit.extents, row.loff < t.ctxt.off := by
  have hbelow : ∀ (off : ℕ) (data : List UInt8) (n : ℕ) (csum : Option (List UInt8)),
      off + n < env.filesize →
      ∀ row ∈ (env.extentsAfter off data n csum).2.reduceOption, row.loff < off + n := by
    intro off data n csum hlt
    unfold Hashing.extentsAfter
    split_ifs
    · exact fun _ h => absurd h List.not_mem_nil
    · exact Hashing.extentRows_loff hlt _ _ _ _
  rcases h.inside with ⟨-, rfl, -⟩ | ⟨-, hin⟩
  · exact fun _ h => absurd h List.not_mem_nil
  cases h with
  | hole => exact fun _ h => absurd h List.not_mem_nil
  | faked hdata hfakes heof hctxt hbuffer =>
    rw [hctxt] at hin ⊢
    exact hbelow _ _ _ _ hin
  | read hdata hno hcap hlo hhi hread heof hctxt hbuffer =>
    rw [hctxt] at hin ⊢
    exact hbelow _ _ _ _ hin

end ScanEnv

theorem Hashing.ScannedTo.extentsBelow {job : Hashing δ} {content : ℕ → UInt8} {p : Progress}
    {rows : Rows δ} (h : job.ScannedTo content p rows) :
    ∀ row ∈ rows.extents, row.loff < p.off := by
  refine @Hashing.ScannedTo.invariant _ _ _ _ _
    (fun p rows => ∀ row ∈ rows.extents, row.loff < p.off) h
    (fun _ h => absurd h List.not_mem_nil) ?_
  intro scan s t rows emit _ _ _ hturn hbelow row hrow
  rcases List.mem_append.mp hrow with hrow | hrow
  · exact (hbelow row hrow).trans_le hturn.off_mono
  · exact hturn.extents_loff row hrow

end Oans
