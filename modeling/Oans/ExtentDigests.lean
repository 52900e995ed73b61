import Oans.HashRuns

/-!
# What the extent rows hold

The digest of a record begins at its first byte, grows with every turn that consumes some of it and
is closed at its end or at the end of the file. A binary that hashed holes may begin a digest in the
gap before the record, so what follows is stated for the records that are vouched for: all of them,
or those behind no gap that can have been read.
-/

namespace Oans

open Slice

/-- Of a list sorted by a key, the elements up to a bound and those from it on to another. -/
theorem filter_between_append {α : Type*} {l : List α} {key : α → ℕ} {a m b : ℕ}
    (hsorted : l.Pairwise fun d e => key d ≤ key e) (ham : a ≤ m) (hmb : m ≤ b) :
    (l.filter fun e => decide (a < key e ∧ key e ≤ m)) ++
      (l.filter fun e => decide (m < key e ∧ key e ≤ b)) =
      l.filter fun e => decide (a < key e ∧ key e ≤ b) := by
  induction l with
  | nil => rfl
  | cons d l ih =>
    obtain ⟨hafter, hrest⟩ := List.pairwise_cons.mp hsorted
    have ih := ih hrest
    rcases Nat.lt_or_ge m (key d) with hgt | hle
    · -- nothing behind it is at or below the middle
      have hnone : (l.filter fun e => decide (a < key e ∧ key e ≤ m)) = [] := by
        refine List.filter_eq_nil_iff.mpr fun e he => ?_
        have := hafter e he
        simp only [decide_eq_true_eq]
        omega
      rw [hnone, List.nil_append] at ih
      have hin : (a < key d ∧ key d ≤ b) ↔ (m < key d ∧ key d ≤ b) := by omega
      have hout : ¬ (a < key d ∧ key d ≤ m) := by omega
      simp only [List.filter_cons, decide_eq_true_eq, hin, if_neg hout, hnone, List.nil_append, ih]
    · have hin : (a < key d ∧ key d ≤ b) ↔ (a < key d ∧ key d ≤ m) := by omega
      have hout : ¬ (m < key d ∧ key d ≤ b) := by omega
      simp only [List.filter_cons, decide_eq_true_eq, hin, if_neg hout]
      split_ifs
      · rw [List.cons_append, ih]
      · exact ih

namespace Hashing

variable {δ : Type*} (job : Hashing δ) (content : ℕ → UInt8) (clean : FiemapExtent → Prop)

def closesAt (e : FiemapExtent) : ℕ := min e.feEnd job.filesize

def dataExtents : List FiemapExtent :=
  job.fiemap.fmExtents.filter fun e => !e.skipped && decide (e.feLogical < job.filesize)

def closedIn (a b : ℕ) : List FiemapExtent :=
  job.dataExtents.filter fun e => decide (a < job.closesAt e ∧ job.closesAt e ≤ b)

/-- The row of a record: the digest is that of the file's bytes from its start to its end or to the
end of the file. -/
def extentRow (e : FiemapExtent) : ExtentCsum δ :=
  ⟨e.feLogical, e.fePhysical, e.feLength, job.xxh (slice content e.feLogical (job.closesAt e))⟩

structure RowOf (e : FiemapExtent) (row : ExtentCsum δ) : Prop where
  loff : row.loff = e.feLogical
  poff : row.poff = e.fePhysical
  len : row.len = e.feLength
  digest : clean e → row.digest = (job.extentRow content e).digest

/-- The digest in progress at `p` is that of the head of the record, if it is vouched for; outside
of such a record there is none. -/
structure DigestAt (p : ℕ) (csum : Option (List UInt8)) : Prop where
  outside : p < job.filesize → ∀ e, job.fiemap.nextExtent p = some e →
    e.skipped = true ∨ clean e ∧ p ≤ e.feLogical → csum = none
  inside : p < job.filesize → ∀ e, job.fiemap.nextExtent p = some e → e.skipped = false →
    clean e → e.feLogical < p → csum = some (slice content e.feLogical p)

/-- The buffer `buf` holds at `off` the file's bytes up to `stop`, as far as they lie in records
without skip flags. -/
def HoldsData (off stop : ℕ) (buf : List UInt8) : Prop :=
  ∀ e ∈ job.fiemap.fmExtents, e.skipped = false → ∀ a b, off ≤ a → a ≤ b → b ≤ stop →
    e.feLogical ≤ a → b ≤ e.feEnd → (buf.drop (a - off)).take (b - a) = slice content a b

/-- A binary that hashes holes meets no byte of the gap before a record that is vouched for. -/
def LeavesGaps (off stop : ℕ) : Prop :=
  job.options.oldHoleDigests = true → ∀ p e, off ≤ p → p < stop →
    job.fiemap.nextExtent p = some e → e.skipped = false → clean e → e.feLogical ≤ p

variable {job content clean}

theorem mem_dataExtents {e : FiemapExtent} : e ∈ job.dataExtents ↔
    e ∈ job.fiemap.fmExtents ∧ e.skipped = false ∧ e.feLogical < job.filesize := by
  simp [dataExtents]

theorem lt_closesAt {e : FiemapExtent} (he : e ∈ job.dataExtents) :
    e.feLogical < job.closesAt e := by
  obtain ⟨hmem, -, hlt⟩ := mem_dataExtents.mp he
  have := Fiemap.feEnd_pos hmem
  unfold closesAt
  omega

theorem dataExtents_sorted (job : Hashing δ) :
    job.dataExtents.Pairwise fun d e => job.closesAt d ≤ job.closesAt e := by
  refine List.Pairwise.imp_of_mem (fun {d e} _ he h => ?_)
    (job.fiemap.sorted.sublist List.filter_sublist)
  have := Fiemap.feEnd_pos (mem_dataExtents.mp he).1
  unfold closesAt
  omega

theorem dataExtents_nodup (job : Hashing δ) : job.dataExtents.Nodup := by
  refine List.Pairwise.imp_of_mem (fun {d e} hd _ h => ?_)
    (job.fiemap.sorted.sublist List.filter_sublist)
  rintro rfl
  have := Fiemap.feEnd_pos (mem_dataExtents.mp hd).1
  omega

theorem closedIn_append (job : Hashing δ) {a m b : ℕ} (ham : a ≤ m) (hmb : m ≤ b) :
    job.closedIn a m ++ job.closedIn m b = job.closedIn a b :=
  filter_between_append job.dataExtents_sorted ham hmb

theorem closedIn_eq_nil {a b : ℕ}
    (h : ∀ e ∈ job.dataExtents, a < job.closesAt e → b < job.closesAt e) :
    job.closedIn a b = [] := by
  refine List.filter_eq_nil_iff.mpr fun e he => ?_
  have := h e he
  simp only [decide_eq_true_eq]
  omega

theorem closedIn_eq_singleton {a b : ℕ} {e : FiemapExtent} (he : e ∈ job.dataExtents)
    (hlo : a < job.closesAt e) (hhi : job.closesAt e ≤ b)
    (h : ∀ d ∈ job.dataExtents, d ≠ e → a < job.closesAt d → b < job.closesAt d) :
    job.closedIn a b = [e] := by
  have hcongr : job.closedIn a b = job.dataExtents.filter (· == e) := by
    refine List.filter_congr fun d hd => ?_
    by_cases hde : d = e
    · subst hde
      simp [hlo, hhi]
    · have := h d hd hde
      simp only [decide_eq_false_iff_not, beq_eq_false_iff_ne.mpr hde]
      omega
  rw [hcongr, List.filter_beq, List.count_eq_one_of_mem job.dataExtents_nodup he]
  rfl

theorem HoldsData.drop {off stop n : ℕ} {buf : List UInt8}
    (h : job.HoldsData content off stop buf) :
    job.HoldsData content (off + n) stop (buf.drop n) := by
  intro e he hdata a b hoff hab hstop hstart hend
  rw [List.drop_drop, show n + (a - (off + n)) = a - off by omega]
  exact h e he hdata a b (by omega) hab hstop hstart hend

theorem LeavesGaps.mono {off off' stop : ℕ} (h : job.LeavesGaps clean off stop)
    (hle : off ≤ off') : job.LeavesGaps clean off' stop :=
  fun hold p e hp => h hold p e (by omega)

theorem holdsData_slice {off stop : ℕ} (fm : ℕ) (hle : stop ≤ fm) :
    job.HoldsData content off stop (slice content off fm) := by
  intro e _ _ a b hoff hab hstop _ _
  rw [slice_drop content _ (show off + (a - off) ≤ fm by omega),
    slice_take content _ (show off + (a - off) + (b - a) ≤ fm by omega)]
  congr 1 <;> omega

/-- Nothing is closed before the next record without a row is left behind. -/
theorem closedIn_before {off stop : ℕ} {e : FiemapExtent}
    (hnext : job.fiemap.nextExtent off = some e)
    (hshort : e ∈ job.dataExtents → stop < job.closesAt e) (hle : stop ≤ e.feEnd) :
    job.closedIn off stop = [] := by
  refine closedIn_eq_nil fun d hd hlt => ?_
  have hdpos := lt_closesAt hd
  have := Fiemap.feEnd_pos (Fiemap.nextExtent_mem hnext)
  rcases Fiemap.nextExtent_order hnext d (mem_dataExtents.mp hd).1 with hend | rfl | hafter
  · unfold closesAt at hlt
    omega
  · exact hshort hd
  · omega

/-- The next record's own closing is the only one up to it. -/
theorem closedIn_closing {off stop : ℕ} {e : FiemapExtent}
    (hnext : job.fiemap.nextExtent off = some e) (he : e ∈ job.dataExtents)
    (hlt : off < job.closesAt e) (hstop : stop = job.closesAt e) : job.closedIn off stop = [e] := by
  refine closedIn_eq_singleton he hlt hstop.ge fun d hd hne hdlt => ?_
  have hdpos := lt_closesAt hd
  rcases Fiemap.nextExtent_order hnext d (mem_dataExtents.mp hd).1 with hend | rfl | hafter
  · unfold closesAt at hdlt
    omega
  · exact absurd rfl hne
  · unfold closesAt at hstop
    omega

/-- The rows are those of records without skip flags: the ones that are closed here, and in a
binary that hashes holes perhaps one that starts behind the end of the file. -/
structure RowsOf (job : Hashing δ) (content : ℕ → UInt8) (clean : FiemapExtent → Prop)
    (off stop : ℕ) (rows : List (ExtentCsum δ)) : Prop where
  rowOf : ∀ row ∈ rows, ∃ e ∈ job.fiemap.fmExtents, e.skipped = false ∧
    (e.feLogical < job.filesize ∨ stop = job.filesize ∧
      job.fiemap.nextExtent (stop - 1) = some e) ∧ job.RowOf content clean e row
  exact : job.options.oldHoleDigests = false →
    List.Forall₂ (job.RowOf content clean) (job.closedIn off stop) rows

theorem RowsOf.nil {off stop : ℕ} (h : job.closedIn off stop = []) :
    job.RowsOf content clean off stop [] :=
  ⟨fun _ h => absurd h List.not_mem_nil, fun _ => by rw [h]; exact .nil⟩

/-- A stretch in which nothing is closed may be left out. -/
theorem RowsOf.of_closedIn_nil {off m stop : ℕ} {rows : List (ExtentCsum δ)}
    (h : job.RowsOf content clean m stop rows) (hnil : job.closedIn off m = [])
    (hle : off ≤ m) (hle' : m ≤ stop) : job.RowsOf content clean off stop rows where
  rowOf := h.rowOf
  exact hnew := by
    rw [← closedIn_append job hle hle', hnil]
    exact h.exact hnew

theorem RowsOf.cons {off m stop : ℕ} {e : FiemapExtent} {row : ExtentCsum δ}
    {rows : List (ExtentCsum δ)} (h : job.RowsOf content clean m stop rows)
    (hnext : job.fiemap.nextExtent off = some e) (hdata : e.skipped = false)
    (hrow : job.RowOf content clean e row) (hlt : off < m) (hm : m = job.closesAt e)
    (hle : m ≤ stop) (hstop : stop ≤ job.filesize)
    (hstart : job.options.oldHoleDigests = false → e.feLogical ≤ off) :
    job.RowsOf content clean off stop (row :: rows) where
  rowOf r hr := by
    rcases List.mem_cons.mp hr with rfl | hr
    · refine ⟨e, Fiemap.nextExtent_mem hnext, hdata, ?_, hrow⟩
      have := Fiemap.feEnd_pos (Fiemap.nextExtent_mem hnext)
      unfold closesAt at hm
      rcases Nat.lt_or_ge e.feLogical job.filesize with hin | hlate
      · exact Or.inl hin
      · exact Or.inr ⟨by omega, Fiemap.nextExtent_congr hnext (by omega) (by omega)⟩
    · exact h.rowOf r hr
  exact hnew := by
    have hstart := hstart hnew
    have he : e ∈ job.dataExtents :=
      mem_dataExtents.mpr ⟨Fiemap.nextExtent_mem hnext, hdata, by omega⟩
    rw [← closedIn_append job hlt.le hle, closedIn_closing hnext he (by omega) hm]
    exact .cons hrow (h.exact hnew)

namespace DigestAt

variable {p q : ℕ} {csum : Option (List UInt8)} {e : FiemapExtent}

/-- Up to the start of the next record nothing changes. -/
theorem of_gap (h : job.DigestAt content clean p csum) (hpq : p ≤ q)
    (hnext : job.fiemap.nextExtent p = some e) (hgap : q ≤ e.feLogical) :
    job.DigestAt content clean q csum := by
  have hpos := Fiemap.feEnd_pos (Fiemap.nextExtent_mem hnext)
  have hsame := Fiemap.nextExtent_congr hnext hpq (by omega)
  refine ⟨fun hlt d hd hout => ?_, fun _ d hd _ _ hin => ?_⟩
  · obtain rfl := Option.some.inj (hsame.symm.trans hd)
    exact h.outside (by omega) e hnext (hout.imp_right fun hc => ⟨hc.1, by omega⟩)
  · obtain rfl := Option.some.inj (hsame.symm.trans hd)
    omega

theorem of_none (hnext : job.fiemap.nextExtent p = none) (hpq : p ≤ q) :
    job.DigestAt content clean q csum := by
  have hnone : ∀ d, job.fiemap.nextExtent q ≠ some d := fun d hd => by
    have := Fiemap.nextExtent_eq_none hnext d (Fiemap.nextExtent_mem hd)
    have := Fiemap.nextExtent_lt hd
    omega
  exact ⟨fun _ d hd => absurd hd (hnone d), fun _ d hd => absurd hd (hnone d)⟩

/-- No digest is in progress where no record that is vouched for has begun. -/
theorem of_none_begun (h : q < job.filesize → ∀ d, job.fiemap.nextExtent q = some d →
    d.skipped = false → q ≤ d.feLogical) : job.DigestAt content clean q none := by
  refine ⟨fun _ _ _ _ => rfl, fun hlt d hd hdata _ hin => ?_⟩
  have := h hlt d hd hdata
  omega

/-- Where a record is closed the next digest has not begun. -/
theorem of_closed (hnext : job.fiemap.nextExtent p = some e) (hpq : p ≤ q)
    (hclosed : q = job.closesAt e) : job.DigestAt content clean q none := by
  refine of_none_begun fun hlt d hd _ => ?_
  have hdlt := Fiemap.nextExtent_lt hd
  unfold closesAt at hclosed
  rcases Fiemap.nextExtent_order hnext d (Fiemap.nextExtent_mem hd) with hend | rfl | hafter
  · omega
  · omega
  · omega

theorem of_skipped (hnext : job.fiemap.nextExtent p = some e) (hskip : e.skipped = true)
    (hpq : p ≤ q) (hq : q ≤ e.feEnd) : job.DigestAt content clean q none := by
  refine of_none_begun fun _ d hd hdata => ?_
  have hdlt := Fiemap.nextExtent_lt hd
  rcases Fiemap.nextExtent_order hnext d (Fiemap.nextExtent_mem hd) with hend | rfl | hafter
  · omega
  · rw [hskip] at hdata
    cases hdata
  · omega

/-- Inside a record without skip flags its digest has grown by what was consumed of it. -/
theorem of_data (h : job.DigestAt content clean p csum) (hlt : p < q)
    (hfile : q ≤ job.filesize) (hnext : job.fiemap.nextExtent p = some e)
    (hdata : e.skipped = false) (hclean : clean e) (hstart : e.feLogical ≤ p) :
    some (csum.getD [] ++ slice content p q) = some (slice content e.feLogical q) := by
  rcases Nat.eq_or_lt_of_le hstart with heq | hin
  · rw [h.outside (by omega) e hnext (Or.inr ⟨hclean, heq.ge⟩), heq]
    rfl
  · rw [h.inside (by omega) e hnext hdata hclean hin, Option.getD_some,
      slice_append content hin.le hlt.le]

end DigestAt

/-- `process_extents()` on `[off, stop)`: the digest in progress stays right, and the rows are those
of the records closed there. -/
theorem extentRows_spec {stop : ℕ} (fuel off : ℕ) (buf : List UInt8) (csum : Option (List UInt8))
    (hfuel : stop - off ≤ fuel) (hle : off ≤ stop) (hstop : stop ≤ job.filesize)
    (hgaps : job.LeavesGaps clean off stop) (hbuf : job.HoldsData content off stop buf)
    (hcsum : job.DigestAt content clean off csum) :
    job.DigestAt content clean stop (job.extentRows stop fuel off buf csum).1 ∧
      job.RowsOf content clean off stop (job.extentRows stop fuel off buf csum).2.reduceOption := by
  induction fuel generalizing off buf csum with
  | zero =>
    obtain rfl : off = stop := by omega
    exact ⟨hcsum, .nil (closedIn_eq_nil fun _ _ h => h)⟩
  | succ fuel ih =>
    rw [extentRows]
    by_cases hlt : off < stop
    swap
    · obtain rfl : off = stop := by omega
      rw [if_neg hlt]
      exact ⟨hcsum, .nil (closedIn_eq_nil fun _ _ h => h)⟩
    rw [if_pos hlt]
    cases hnext : job.fiemap.nextExtent off with
    | none =>
      refine ⟨.of_none hnext hle, .nil (closedIn_eq_nil fun d hd h => ?_)⟩
      have := Fiemap.nextExtent_eq_none hnext d (mem_dataExtents.mp hd).1
      unfold closesAt at h
      omega
    | some e =>
      have hpos := Fiemap.feEnd_pos (Fiemap.nextExtent_mem hnext)
      have hend := Fiemap.nextExtent_lt hnext
      by_cases hgap : off < e.feLogical ∧ job.options.oldHoleDigests = false
      · -- the gap is stepped over
        simp only [hgap, and_self, if_true]
        generalize hn : min (e.feLogical - off) (stop - off) = n
        obtain ⟨hdigest, hrows⟩ := ih (off + n) (buf.drop n) csum (by omega) (by omega)
          (hgaps.mono (by omega)) hbuf.drop (hcsum.of_gap (by omega) hnext (by omega))
        refine ⟨hdigest, hrows.of_closedIn_nil (closedIn_before hnext (fun he => ?_) (by omega))
          (by omega) (by omega)⟩
        have := lt_closesAt he
        omega
      · simp only [hgap, if_false]
        generalize hn : (if stop < e.feEnd then stop - off else e.feEnd - off) = n
        have hpart : off + n = min stop e.feEnd := by
          split_ifs at hn <;> omega
        have hcloses : off + n + (e.feEnd - job.filesize) = e.feEnd ↔
            off + n = job.closesAt e := by
          unfold closesAt
          omega
        have hlo : off < off + n := by omega
        have hhi : off + n ≤ stop := by omega
        cases hskip : e.skipped with
        | true =>
          obtain rfl := hcsum.outside (by omega) e hnext (Or.inl hskip)
          obtain ⟨hdigest, hrows⟩ := ih (off + n) (buf.drop n) none (by omega) hhi
            (hgaps.mono (by omega)) hbuf.drop (.of_skipped hnext hskip hlo.le (by omega))
          have hnil : job.closedIn off (off + n) = [] := closedIn_before hnext (fun he => by
            rw [(mem_dataExtents.mp he).2.1] at hskip
            cases hskip) (by omega)
          have hrows := hrows.of_closedIn_nil hnil hlo.le hhi
          simp only [if_true]
          split_ifs
          · exact ⟨hdigest, hrows⟩
          · exact ⟨hdigest, hrows⟩
        | false =>
          simp only [Bool.false_eq_true, if_false, Option.getD_some]
          have hstart : clean e → e.feLogical ≤ off := fun hclean => by
            cases hold : job.options.oldHoleDigests with
            | true => exact hgaps hold off e le_rfl hlt hnext hskip hclean
            | false =>
              by_contra hbefore
              exact hgap ⟨by omega, hold⟩
          have htake : clean e → buf.take n = slice content off (off + n) := fun hclean => by
            have := hbuf e (Fiemap.nextExtent_mem hnext) hskip off (off + n) le_rfl hlo.le hhi
              (hstart hclean) (by omega)
            rwa [Nat.sub_self, List.drop_zero, Nat.add_sub_cancel_left] at this
          have hgrown : clean e →
              csum.getD [] ++ buf.take n = slice content e.feLogical (off + n) := fun hclean => by
            rw [htake hclean]
            exact Option.some.inj (hcsum.of_data hlo (by omega) hnext hskip hclean (hstart hclean))
          by_cases hclosed : off + n = job.closesAt e
          · rw [if_pos (hcloses.mpr hclosed)]
            obtain ⟨hdigest, hrows⟩ := ih (off + n) (buf.drop n) none (by omega) hhi
              (hgaps.mono (by omega)) hbuf.drop (.of_closed hnext hlo.le hclosed)
            refine ⟨hdigest, hrows.cons hnext hskip ⟨rfl, rfl, rfl, fun hclean => ?_⟩ hlo hclosed
              hhi hstop fun hnew => ?_⟩
            · rw [hgrown hclean, hclosed, extentRow]
            · by_contra hbefore
              exact hgap ⟨by omega, hnew⟩
          · rw [if_neg (mt hcloses.mp hclosed)]
            have hinside : off + n < e.feEnd ∧ off + n < job.filesize := by
              unfold closesAt at hclosed
              omega
            have hsame := Fiemap.nextExtent_congr hnext hlo.le hinside.1
            have hopen : job.DigestAt content clean (off + n)
                (some (csum.getD [] ++ buf.take n)) := by
              refine ⟨fun _ d hd hout => ?_, fun _ d hd _ hclean _ => ?_⟩
              · obtain rfl := Option.some.inj (hsame.symm.trans hd)
                rcases hout with hout | ⟨hclean, hout⟩
                · rw [hskip] at hout
                  cases hout
                · have := hstart hclean
                  omega
              · obtain rfl := Option.some.inj (hsame.symm.trans hd)
                rw [hgrown hclean]
            obtain ⟨hdigest, hrows⟩ := ih (off + n) (buf.drop n) _ (by omega) hhi
              (hgaps.mono (by omega)) hbuf.drop hopen
            have hnil : job.closedIn off (off + n) = [] := by
              refine closedIn_before hnext (fun _ => ?_) (by omega)
              unfold closesAt
              omega
            exact ⟨hdigest, hrows.of_closedIn_nil hnil hlo.le hhi⟩

/-- A faked buffer lies outside the records without skip flags. -/
theorem Fakes.holdsData {off : ℕ} (h : job.Fakes off) (buf : List UInt8) :
    job.HoldsData content off (off + job.fakeLen) buf := by
  intro e he hdata a b hoff hab hstop hstart hend
  rcases Nat.eq_or_lt_of_le hab with rfl | hlt
  · simp
  · have hover : e.Overlaps off (off + job.fakeLen) :=
      Fiemap.overlaps_iff.mpr ⟨a, hoff, by omega, hstart, by omega⟩
    rw [h.1.1 e he hover] at hdata
    cases hdata

theorem closedIn_holeRun {off : ℕ} (hhole : job.fiemap.HoleBlock job.blocksize off) :
    job.closedIn off (off + job.fiemap.holeRun job.blocksize job.filesize off) = [] := by
  unfold Fiemap.HoleBlock Fiemap.blockIsHole at hhole
  unfold Fiemap.holeRun
  cases hnext : job.fiemap.nextExtent off with
  | none =>
    refine closedIn_eq_nil fun d hd h => ?_
    have := Fiemap.nextExtent_eq_none hnext d (mem_dataExtents.mp hd).1
    unfold closesAt at h
    omega
  | some e =>
    have hfar : off + job.blocksize ≤ e.feLogical := by simpa [hnext] using hhole
    have hfloor := floorBlock_le job.blocksize e.feLogical
    have hpos := Fiemap.feEnd_pos (Fiemap.nextExtent_mem hnext)
    simp only [hfar, if_true]
    refine closedIn_before hnext (fun he => ?_) (by omega)
    have := lt_closesAt he
    omega

theorem DigestAt.of_holeRun {off : ℕ} {csum : Option (List UInt8)}
    (h : job.DigestAt content clean off csum)
    (hhole : job.fiemap.HoleBlock job.blocksize off) : job.DigestAt content clean
      (off + job.fiemap.holeRun job.blocksize job.filesize off) csum := by
  unfold Fiemap.HoleBlock Fiemap.blockIsHole at hhole
  unfold Fiemap.holeRun
  cases hnext : job.fiemap.nextExtent off with
  | none => exact .of_none hnext (by omega)
  | some e =>
    have hfar : off + job.blocksize ≤ e.feLogical := by simpa [hnext] using hhole
    have hfloor := floorBlock_le job.blocksize e.feLogical
    simp only [hfar, if_true]
    exact h.of_gap (by omega) hnext (by omega)

end Hashing

namespace ScanEnv

variable {δ ω : Type*} {env : ScanEnv δ ω} {content : ℕ → UInt8} {clean : FiemapExtent → Prop}
  {s t : LoopState δ ω} {emit : Rows δ}

/-- A turn keeps the digest in progress right, and its rows are those of the records it comes to
the end of. -/
theorem Turn.extents {eof : Bool} (h : env.Turn content eof s t emit)
    (hextents : env.options.onlyWholeFiles = false) (hin : t.ctxt.off ≤ env.filesize)
    (hgaps : ¬ env.fiemap.HoleBlock env.blocksize s.ctxt.off →
      env.LeavesGaps clean s.ctxt.off t.ctxt.off)
    (hdigest : env.DigestAt content clean s.ctxt.off s.ctxt.extentCsum) :
    env.DigestAt content clean t.ctxt.off t.ctxt.extentCsum ∧
      env.RowsOf content clean s.ctxt.off t.ctxt.off emit.extents := by
  cases h with
  | hole hhole hctxt hbuffer =>
    rw [hctxt]
    exact ⟨hdigest.of_holeRun hhole, .nil (Hashing.closedIn_holeRun hhole)⟩
  | faked hdata hfakes heof hctxt hbuffer =>
    have hgaps := hgaps hdata
    rw [hctxt] at hin hgaps ⊢
    simp only [Hashing.extentsAfter, hextents, Bool.false_eq_true, if_false] at hin hgaps ⊢
    exact Hashing.extentRows_spec _ _ _ _ (by omega) (by omega) hin hgaps (hfakes.holdsData _)
      hdigest
  | @read _ _ _ cap stop hdata hno hcap hlo hhi hread heof hctxt hbuffer =>
    have hgaps := hgaps hdata
    have hle := env.consumes_le eof s.ctxt.off stop
    rw [hctxt] at hin hgaps ⊢
    simp only [Hashing.extentsAfter, hextents, Bool.false_eq_true, if_false] at hin hgaps ⊢
    exact Hashing.extentRows_spec _ _ _ _ (by omega) (by omega) hin hgaps
      (Hashing.holdsData_slice stop (by omega)) hdigest

end ScanEnv

end Oans
