import Oans.HashRuns

/-!
# What the block rows hold

With block hashing every turn begins on the block grid, and the bytes it reads up to lie below the
first hole block of the grid. So each whole block it hashes reaches a record, and a block is hashed
by the one turn that consumes it.
-/

namespace Oans

open Slice

theorem Fiemap.holeBlock_iff {fm : Fiemap} {b off : ℕ} (hb : 0 < b) : fm.HoleBlock b off ↔
    ∀ e ∈ fm.fmExtents, ¬ e.Overlaps off (off + b) := by
  unfold HoleBlock blockIsHole FiemapExtent.Overlaps
  cases hnext : fm.nextExtent off with
  | none =>
    refine iff_of_true rfl fun e he => ?_
    have := nextExtent_eq_none hnext e he
    omega
  | some e =>
    simp only [decide_eq_true_eq]
    have hend := nextExtent_lt hnext
    have hpos := feEnd_pos (nextExtent_mem hnext)
    constructor
    · intro hfar d hd
      rcases nextExtent_order hnext d hd with h | rfl | h <;> omega
    · intro h
      have := h e (nextExtent_mem hnext)
      omega

theorem isBlockZeroed_iff {block : List UInt8} (hlen : 0 < block.length) :
    isBlockZeroed block = true ↔ ∀ b ∈ block, b = 0 := by
  have hsame : ∀ l : List UInt8, ∀ a, (a :: l).dropLast = l → ∀ b ∈ l, b = a := by
    intro l
    induction l with
    | nil => exact fun _ _ _ h => absurd h List.not_mem_nil
    | cons c l ih =>
      intro a h b hb
      rw [List.dropLast_cons_cons, List.cons.injEq] at h
      obtain ⟨rfl, h⟩ := h
      rcases List.mem_cons.mp hb with rfl | hb
      · rfl
      · exact ih a h b hb
  unfold isBlockZeroed
  cases block with
  | nil => simp at hlen
  | cons a l =>
    simp only [Bool.and_eq_true, beq_iff_eq, List.tail_cons, List.all_eq_true]
    constructor
    · rintro ⟨hfirst, hshift⟩ b hb
      have ha : a = 0 := hfirst a (by simp)
      rcases List.mem_cons.mp hb with rfl | hb
      · exact ha
      · rw [hsame l a hshift b hb, ha]
    · intro hzero
      have hrep : a :: l = List.replicate (l.length + 1) 0 :=
        List.eq_replicate_iff.mpr ⟨rfl, hzero⟩
      refine ⟨fun b hb => hzero b (List.mem_of_mem_take hb), ?_⟩
      rw [hrep, List.dropLast_replicate]
      rw [List.replicate_succ, List.cons.injEq] at hrep
      exact hrep.2.symm

/-- A block that starts below a point of the grid ends there at the latest. -/
theorem block_le_of_lt {b k m : ℕ} (h : k * b < b * m) : (k + 1) * b ≤ b * m := by
  rw [Nat.mul_comm] at h
  rw [Nat.mul_comm]
  exact Nat.mul_le_mul_left b (Nat.lt_of_mul_lt_mul_left h)

namespace Hashing

variable {δ : Type*} (job : Hashing δ) (content : ℕ → UInt8)

def BlockReaches (skipped : Bool) (k : ℕ) : Prop :=
  ∃ e ∈ job.fiemap.fmExtents, e.skipped = skipped ∧
    e.Overlaps (k * job.blocksize) ((k + 1) * job.blocksize)

instance (skipped : Bool) (k : ℕ) : Decidable (job.BlockReaches skipped k) :=
  inferInstanceAs (Decidable (∃ e ∈ job.fiemap.fmExtents, _ ∧ FiemapExtent.Overlaps _ _ _))

/-- Block `k` gets a row: a whole one if it reaches a record without skip flags and, with
`skipZeroes`, is not all zero; the last partial one if it reaches any record. -/
def HasBlockRow (k : ℕ) : Prop :=
  if (k + 1) * job.blocksize ≤ job.filesize then
    job.BlockReaches false k ∧ ¬ (job.options.skipZeroes = true ∧
      ∀ b ∈ slice content (k * job.blocksize) ((k + 1) * job.blocksize), b = 0)
  else job.BlockReaches false k ∨ job.BlockReaches true k

instance (k : ℕ) : Decidable (job.HasBlockRow content k) :=
  inferInstanceAs (Decidable (if (k + 1) * job.blocksize ≤ job.filesize then
    job.BlockReaches false k ∧ ¬ (_ ∧ ∀ b ∈ slice content _ _, b = 0) else _ ∨ _))

def blockRow (k : ℕ) : BlockCsum δ :=
  ⟨k * job.blocksize, job.xxh (slice content (k * job.blocksize)
    (min ((k + 1) * job.blocksize) job.filesize))⟩

def blocksIn (a b : ℕ) : List (BlockCsum δ) :=
  ((List.range' a (b - a)).filter fun k => decide (job.HasBlockRow content k)).map
    (job.blockRow content)

/-- How many blocks `[0, off)` reaches. -/
def blockCount (off : ℕ) : ℕ := (off + job.blocksize - 1) / job.blocksize

variable {job content}

theorem blocksIn_self (a : ℕ) : job.blocksIn content a a = [] := by
  simp [blocksIn]

theorem blocksIn_append {a m b : ℕ} (ham : a ≤ m) (hmb : m ≤ b) :
    job.blocksIn content a m ++ job.blocksIn content m b = job.blocksIn content a b := by
  unfold blocksIn
  rw [← List.map_append, ← List.filter_append, show List.range' m (b - m) =
    List.range' (a + 1 * (m - a)) (b - m) by rw [Nat.one_mul, Nat.add_sub_cancel' ham],
    List.range'_append, show m - a + (b - m) = b - a by omega]

theorem blocksIn_succ (k : ℕ) : job.blocksIn content k (k + 1) =
    if job.HasBlockRow content k then [job.blockRow content k] else [] := by
  unfold blocksIn
  rw [Nat.add_sub_cancel_left, List.range'_one, List.filter_singleton]
  split_ifs <;> simp_all

theorem blocksIn_eq_nil {a b : ℕ} (h : ∀ k, a ≤ k → k < b → ¬ job.HasBlockRow content k) :
    job.blocksIn content a b = [] := by
  unfold blocksIn
  rw [List.map_eq_nil_iff, List.filter_eq_nil_iff]
  intro k hk
  rw [List.mem_range'_1] at hk
  simpa using h k hk.1 (by omega)

theorem blockCount_mul (job : Hashing δ) (k : ℕ) : job.blockCount (k * job.blocksize) = k := by
  have hpos := job.blocksize_pos
  unfold blockCount
  rw [show k * job.blocksize + job.blocksize - 1 = job.blocksize - 1 + k * job.blocksize by omega,
    Nat.add_mul_div_right _ _ hpos, Nat.div_eq_of_lt (by omega), Nat.zero_add]

theorem lt_blockCount {k off : ℕ} : k < job.blockCount off ↔ k * job.blocksize < off := by
  have hpos := job.blocksize_pos
  unfold blockCount
  rw [← Nat.succ_le_iff, Nat.le_div_iff_mul_le hpos, Nat.succ_mul]
  omega

theorem blockCount_mono {a b : ℕ} (h : a ≤ b) : job.blockCount a ≤ job.blockCount b :=
  Nat.div_le_div_right (by omega)

theorem mem_blocksIn {a b : ℕ} {row : BlockCsum δ} : row ∈ job.blocksIn content a b ↔
    ∃ k, a ≤ k ∧ k < b ∧ job.HasBlockRow content k ∧ row = job.blockRow content k := by
  simp only [blocksIn, List.mem_map, List.mem_filter, List.mem_range'_1, decide_eq_true_eq]
  constructor
  · rintro ⟨k, ⟨hk, hrow⟩, rfl⟩
    exact ⟨k, hk.1, by omega, hrow, rfl⟩
  · rintro ⟨k, hlo, hhi, hrow, rfl⟩
    exact ⟨k, ⟨⟨hlo, by omega⟩, hrow⟩, rfl⟩

theorem blocksIn_nodup (a b : ℕ) : ((job.blocksIn content a b).map BlockCsum.loff).Nodup := by
  unfold blocksIn
  rw [List.map_map]
  refine List.Nodup.map ?_ (List.Nodup.filter _ List.nodup_range')
  intro k m h
  exact Nat.eq_of_mul_eq_mul_right job.blocksize_pos h

/-- A whole block that reaches a record is hashed exactly if it gets a row. -/
theorem keepsBlock_iff {k : ℕ} (hwhole : (k + 1) * job.blocksize ≤ job.filesize)
    (hdata : ¬ job.fiemap.HoleBlock job.blocksize (k * job.blocksize)) :
    job.KeepsBlock (k * job.blocksize)
        (slice content (k * job.blocksize) ((k + 1) * job.blocksize)) ↔
      job.HasBlockRow content k := by
  have hpos := job.blocksize_pos
  have hnext : k * job.blocksize + job.blocksize = (k + 1) * job.blocksize := by
    rw [Nat.succ_mul]
  have hlen : 0 < (slice content (k * job.blocksize) ((k + 1) * job.blocksize)).length := by
    rw [length_slice]
    omega
  obtain ⟨e, he, hover⟩ : ∃ e ∈ job.fiemap.fmExtents,
      e.Overlaps (k * job.blocksize) ((k + 1) * job.blocksize) := by
    rw [Fiemap.holeBlock_iff hpos, hnext] at hdata
    push Not at hdata
    exact hdata
  unfold KeepsBlock HasBlockRow BlockReaches
  rw [if_pos hwhole, isBlockZeroed_iff hlen, hnext]
  refine and_congr_left' ?_
  unfold Fiemap.AreaIgnored
  constructor
  · intro h
    by_contra hnone
    push Not at hnone
    exact h ⟨fun d hd hdover => by_contra fun hdata =>
      hnone d hd (by simpa using hdata) hdover, e, he, hover⟩
  · rintro ⟨d, hd, hdata, hdover⟩ ⟨hall, -⟩
    rw [hall d hd hdover] at hdata
    cases hdata

/-- The whole blocks of a buffer that lies in the file and below the next hole block. -/
theorem blockRows_eq {stop : ℕ} (n k : ℕ) (hstop : (k + n) * job.blocksize ≤ stop)
    (hin : (k + n) * job.blocksize ≤ job.filesize)
    (hdata : ∀ j, k ≤ j → j < k + n →
      ¬ job.fiemap.HoleBlock job.blocksize (j * job.blocksize)) :
    job.blockRows n (k * job.blocksize) (slice content (k * job.blocksize) stop) =
      job.blocksIn content k (k + n) := by
  induction n generalizing k with
  | zero => rw [blockRows, Nat.add_zero, blocksIn_self]
  | succ n ih =>
    have hnext : k * job.blocksize + job.blocksize = (k + 1) * job.blocksize := by
      rw [Nat.succ_mul]
    have hle : (k + 1) * job.blocksize ≤ (k + (n + 1)) * job.blocksize :=
      Nat.mul_le_mul_right _ (by omega)
    have hrest := ih (k + 1) (by rwa [Nat.add_right_comm]) (by rwa [Nat.add_right_comm])
      fun j hlo hhi => hdata j (by omega) (by omega)
    rw [blockRows, slice_take content _ (by omega), slice_drop content _ (by omega), hnext, hrest,
      ← blocksIn_append (show k ≤ k + 1 by omega) (show k + 1 ≤ k + (n + 1) by omega),
      show k + 1 + n = k + (n + 1) by omega, blocksIn_succ, blockRow,
      Nat.min_eq_left (show (k + 1) * job.blocksize ≤ job.filesize by omega)]
    congr 1
    exact if_congr (keepsBlock_iff (by omega) (hdata k le_rfl (by omega))) rfl rfl

theorem hasBlockRow_of_partial {k : ℕ} (hpart : job.filesize < (k + 1) * job.blocksize)
    (hdata : ¬ job.fiemap.HoleBlock job.blocksize (k * job.blocksize)) :
    job.HasBlockRow content k := by
  rw [Fiemap.holeBlock_iff job.blocksize_pos, ← Nat.succ_mul] at hdata
  push Not at hdata
  obtain ⟨e, he, hover⟩ := hdata
  unfold HasBlockRow
  rw [if_neg (by omega)]
  cases hskip : e.skipped with
  | true => exact Or.inr ⟨e, he, hskip, hover⟩
  | false => exact Or.inl ⟨e, he, hskip, hover⟩

theorem not_hasBlockRow {k : ℕ} (h : ∀ e ∈ job.fiemap.fmExtents,
    ¬ e.Overlaps (k * job.blocksize) ((k + 1) * job.blocksize)) : ¬ job.HasBlockRow content k := by
  have hnone : ∀ skipped, ¬ job.BlockReaches skipped k := by
    rintro skipped ⟨e, he, -, hover⟩
    exact h e he hover
  unfold HasBlockRow
  split_ifs
  · exact fun hrow => hnone false hrow.1
  · exact fun hrow => hrow.elim (hnone false) (hnone true)

theorem not_hasBlockRow_of_holeRun {off k : ℕ}
    (hhole : job.fiemap.HoleBlock job.blocksize off) (hoff : off ≤ k * job.blocksize)
    (hlt : k * job.blocksize < off + job.fiemap.holeRun job.blocksize job.filesize off) :
    ¬ job.HasBlockRow content k := by
  refine not_hasBlockRow fun d hd hover => ?_
  unfold Fiemap.HoleBlock Fiemap.blockIsHole at hhole
  unfold Fiemap.holeRun at hlt
  unfold FiemapExtent.Overlaps at hover
  cases hnext : job.fiemap.nextExtent off with
  | none =>
    have := Fiemap.nextExtent_eq_none hnext d hd
    omega
  | some e =>
    have hfar : off + job.blocksize ≤ e.feLogical := by simpa [hnext] using hhole
    have hle := floorBlock_le job.blocksize e.feLogical
    have hpos := Fiemap.feEnd_pos (Fiemap.nextExtent_mem hnext)
    rw [hnext] at hlt
    simp only [hfar, if_true] at hlt
    -- a block that starts below the record's own block ends there at the latest
    obtain ⟨m, hm⟩ := dvd_floorBlock job.blocksize e.feLogical
    have hblock := block_le_of_lt (show k * job.blocksize < job.blocksize * m by omega)
    rcases Fiemap.nextExtent_order hnext d hd with h | rfl | h <;> omega

/-- The blocks of a faked buffer reach records with skip flags only. -/
theorem Fakes.not_hasBlockRow {off k : ℕ} (h : job.Fakes off) (hdvd : job.blocksize ∣ off)
    (hoff : off ≤ k * job.blocksize) (hlt : k * job.blocksize < off + job.fakeLen) :
    ¬ job.HasBlockRow content k := by
  obtain ⟨m, hm⟩ := Nat.dvd_add hdvd job.dvd_fakeLen
  have hblock := block_le_of_lt (show k * job.blocksize < job.blocksize * m by omega)
  have hfit := h.2
  unfold HasBlockRow
  rw [if_pos (by omega)]
  rintro ⟨⟨e, he, hdata, hover⟩, -⟩
  rw [h.1.1 e he (by unfold FiemapExtent.Overlaps at hover ⊢; omega)] at hdata
  cases hdata

end Hashing

namespace ScanEnv

variable {δ ω : Type*} {env : ScanEnv δ ω} {content : ℕ → UInt8} {s t : LoopState δ ω}
  {emit : Rows δ}

/-- A turn stages the rows of the blocks it consumes. -/
theorem Turn.blocks {eof : Bool} (h : env.Turn content eof s t emit)
    (hblock : env.options.doBlockHash = true) (hsound : env.Sound content s.ctxt s.buffer)
    (hlt : s.ctxt.off < env.filesize) (hin : t.ctxt.off ≤ env.filesize)
    (hend : eof = true → t.ctxt.off = env.filesize) :
    emit.blocks = env.blocksIn content (env.blockCount s.ctxt.off)
      (env.blockCount t.ctxt.off) := by
  obtain ⟨k, hk⟩ := hsound.grid hblock hlt
  rw [Nat.mul_comm] at hk
  cases h with
  | hole hhole hctxt hbuffer =>
    rw [hctxt]
    refine (Hashing.blocksIn_eq_nil fun j hlo hhi => ?_).symm
    rw [hk, Hashing.blockCount_mul] at hlo
    exact Hashing.not_hasBlockRow_of_holeRun hhole (hk ▸ Nat.mul_le_mul_right _ hlo)
      (Hashing.lt_blockCount.mp hhi)
  | faked hdata hfakes heof hctxt hbuffer =>
    rw [hctxt]
    refine (Hashing.blocksIn_eq_nil fun j hlo hhi => ?_).symm
    rw [hk, Hashing.blockCount_mul] at hlo
    exact hfakes.not_hasBlockRow (hk ▸ ⟨k, Nat.mul_comm _ _⟩) (hk ▸ Nat.mul_le_mul_right _ hlo)
      (Hashing.lt_blockCount.mp hhi)
  | @read _ _ _ cap stop hdata hno hcap hlo hhi hread heof hctxt hbuffer =>
    have hbelow := hsound.le_cap hcap
    have hcaple := hcap.le
    have hstop : stop ≤ cap := by
      unfold wantAt at hhi
      omega
    have hdata : ∀ j, k ≤ j → j * env.blocksize < stop →
        ¬ env.fiemap.HoleBlock env.blocksize (j * env.blocksize) := fun j hkj hj =>
      hcap.no_hole _ (hk ▸ Nat.mul_le_mul_right _ hkj) (by omega) (Nat.dvd_mul_left _ _)
    rw [hctxt] at hin hend ⊢
    simp only at hin hend ⊢
    generalize hn : (stop - s.ctxt.off) / env.blocksize = n
    have hmod := Nat.div_add_mod' (stop - s.ctxt.off) env.blocksize
    have hrem := Nat.mod_lt (stop - s.ctxt.off) env.blocksize_pos
    rw [hn] at hmod
    have hsum : (k + n) * env.blocksize = k * env.blocksize + n * env.blocksize := Nat.add_mul ..
    have hprocessed : env.processed ⟨slice content s.ctxt.off stop, false⟩ =
        n * env.blocksize := by
      simp [Hashing.processed, hblock, hn]
    have hwhole : env.bufferRows s.ctxt.off ⟨slice content s.ctxt.off stop, false⟩ =
        env.blocksIn content k (k + n) := by
      simp only [Hashing.bufferRows, hblock, Bool.true_eq_false, Bool.false_eq_true, or_self,
        if_false, length_slice, hn]
      rw [hk]
      refine Hashing.blockRows_eq n k (by omega) (by omega) fun j hlo hhi => hdata j hlo ?_
      have := Nat.mul_lt_mul_of_pos_right hhi env.blocksize_pos
      omega
    rw [Hashing.turnRows, hwhole, hprocessed, length_slice, hk, Hashing.blockCount_mul]
    cases eof with
    | false =>
      have hconsumes : env.consumes false (k * env.blocksize) stop = n * env.blocksize := by
        simp [Hashing.consumes, hblock, ← hk, hn]
      simp [hconsumes, ← hsum, Hashing.blockCount_mul]
    | true =>
      have hend := hend rfl
      have hconsumes : env.consumes true (k * env.blocksize) stop = stop - k * env.blocksize := by
        simp [Hashing.consumes]
      rw [hk, hconsumes] at hend
      have hstopEq : stop = env.filesize := by omega
      rw [hconsumes, hend]
      by_cases hpart : n * env.blocksize < stop - k * env.blocksize
      · -- the last partial block
        have hlast : env.filesize < (k + n + 1) * env.blocksize := by
          rw [Nat.succ_mul]
          omega
        have hcount : env.blockCount env.filesize = k + n + 1 := by
          refine Nat.le_antisymm (not_lt.mp fun h => ?_) (Hashing.lt_blockCount.mpr (by omega))
          have := Hashing.lt_blockCount.mp h
          omega
        have hrow : env.HasBlockRow content (k + n) :=
          Hashing.hasBlockRow_of_partial hlast (hdata (k + n) (by omega) (by omega))
        rw [if_pos ⟨rfl, hpart⟩, hcount, ← Hashing.blocksIn_append (show k ≤ k + n by omega)
          (show k + n ≤ k + n + 1 by omega), Hashing.blocksIn_succ, if_pos hrow, Hashing.blockRow,
          slice_drop content _ (by omega), ← hsum, Nat.min_eq_right hlast.le, hstopEq]
      · have hcount : env.blockCount env.filesize = k + n := by
          rw [show env.filesize = (k + n) * env.blocksize by omega, Hashing.blockCount_mul]
        rw [if_neg (fun h => hpart h.2), List.append_nil, hcount]

end ScanEnv

end Oans
