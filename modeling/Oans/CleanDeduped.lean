import Oans.DedupeExtentList
import Oans.DuplicateExtents
import Oans.FiemapShare

/-!
# The cheap filter and the exact check

`clean_deduped()` removes a member whose stored address is the target's, and the loader gives every
member the group's own length. That is right as long as a stored address stands for the whole range.
A dedupe that stops half way leaves the target's address at the head of a range the rest of which is
still stored elsewhere.
-/

namespace Oans

def FIEMAP_EXTENT_SHARED : UInt32 := 0x2000

/-- The address each byte of each file is stored at; none in a hole. -/
abbrev Storage := ℤ → ℕ → Option ℕ

/-- The map FIEMAP gives of `[off, off + len)`. Neighbours that are stored one behind the other stay
apart only if one of them is shared and the other is not. -/
structure Storage.Reports (st : Storage) (file : ℤ) (off len : ℕ) (fm : Fiemap) : Prop where
  within : fm.Within off len
  holds : ∀ e ∈ fm.fmExtents, ∀ p, e.Holds p →
    st file p = some (e.fePhysical + (p - e.feLogical))
  covers : ∀ p, off ≤ p → p < off + len → (st file p).isSome → ∃ e ∈ fm.fmExtents, e.Holds p
  addressable : ∀ e ∈ fm.fmExtents, e.addressable = true
  shared : ∀ e ∈ fm.fmExtents, ∀ p, e.Holds p → ∀ g q, (g, q) ≠ (file, p) → st g q = st file p →
    e.hasFlags FIEMAP_EXTENT_SHARED = true
  merged : fm.fmExtents.IsChain fun d e => d.feEnd = e.feLogical →
    d.fePhysical + d.feLength = e.fePhysical →
    d.hasFlags FIEMAP_EXTENT_SHARED ≠ e.hasFlags FIEMAP_EXTENT_SHARED

variable {δ : Type*}

/-- A member as `insert_one_result()` sets it up, with the group's length for the length of its
storage. -/
def ExtentRow.groupExtent (e : ExtentRow δ) : GroupExtent ℤ := ⟨e.fileid, e.loff, e.poff, e.len⟩

structure DedupedFiles (δ : Type*) where
  storage : Storage
  extents : ExtentsTable δ

/-- One run of `extent_dedupe_worker()` on a group of extents: the members as they are loaded, the
target of the loop, the bytes each destination's rounds got done before it stopped, and what
rescanning each member finds. -/
structure ExtentRun (δ : Type*) where
  digest : δ
  len : ℕ
  members : List (ExtentRow δ)
  tgt : ExtentRow δ
  rounds : ExtentRow δ → List ℕ
  rescan : ExtentRow δ → Option Fiemap

namespace ExtentRun

def kept (run : ExtentRun δ) : List (ExtentRow δ) :=
  (cleanDeduped ExtentRow.groupExtent run.len run.members).getD []

def progress (run : ExtentRun δ) (m : ExtentRow δ) : ℕ := (run.rounds m).sum

/-- The storage once the rounds are done: the head of each destination is where the target's is. -/
def dedupedStorage (run : ExtentRun δ) (st : Storage) : Storage := fun file p =>
  match run.kept.find? fun m =>
    decide (m.fileid = file ∧ m.loff ≤ p ∧ p < m.loff + run.progress m) with
  | some m => st run.tgt.fileid (run.tgt.loff + (p - m.loff))
  | none => st file p

/-- The record `fiemap_scan_extent()` finds. -/
def rescanned (run : ExtentRun δ) (m : ExtentRow δ) : Option FiemapExtent :=
  (run.rescan m).bind fun fm => fm.fmExtents.head?

/-- `dbfile_update_extent_poff()` for every member that was rescanned. -/
def refresh (run : ExtentRun δ) (e : ExtentRow δ) : ExtentRow δ :=
  match run.kept.find? fun m => decide (m.fileid = e.fileid ∧ m.loff = e.loff) with
  | some m =>
    match run.rescanned m with
    | some first => { e with poff := first.fePhysical }
    | none => e
  | none => e

@[simp] theorem refresh_rowid (run : ExtentRun δ) (e : ExtentRow δ) :
    (run.refresh e).rowid = e.rowid := by
  unfold refresh
  split
  · split <;> rfl
  · rfl

theorem refresh_range (run : ExtentRun δ) (e : ExtentRow δ) :
    (run.refresh e).fileid = e.fileid ∧ (run.refresh e).loff = e.loff ∧
      (run.refresh e).len = e.len := by
  unfold refresh
  split
  · split <;> exact ⟨rfl, rfl, rfl⟩
  · exact ⟨rfl, rfl, rfl⟩

def after (run : ExtentRun δ) (w : DedupedFiles δ) : DedupedFiles δ where
  storage := run.dedupedStorage w.storage
  extents :=
    { rows := w.extents.rows.map run.refresh
      rowids_nodup := by
        simpa [Function.comp_def] using w.extents.rowids_nodup
      unique := by
        simpa [Function.comp_def, refresh_range] using w.extents.unique }

structure Valid (run : ExtentRun δ) (w : DedupedFiles δ) : Prop where
  loaded : ∀ m ∈ run.members, m ∈ w.extents.rows ∧ m.digest = run.digest ∧ m.len = run.len
  nodup : run.members.Nodup
  target : ∀ m ∈ run.kept, run.tgt ∈ run.kept
  still : run.rounds run.tgt = []
  round : ∀ m ∈ run.kept, ∀ n ∈ run.rounds m, n ≤ DEDUPE_ROUND_LEN
  fits : ∀ m ∈ run.kept, run.progress m ≤ run.len
  reports : ∀ m ∈ run.kept, ∀ fm, run.rescan m = some fm →
    (run.after w).storage.Reports m.fileid m.loff run.len fm

/-- Every destination gets all of its range done or nothing, those that do are rescanned, and a
record that is found begins where the range does. -/
structure Whole (run : ExtentRun δ) : Prop where
  allOrNone : ∀ m ∈ run.kept, run.progress m = 0 ∨ run.progress m = run.len
  rescans : ∀ m ∈ run.kept, 0 < run.progress m → (run.rescanned m).isSome
  begins : ∀ m ∈ run.kept, ∀ first, run.rescanned m = some first → first.feLogical = m.loff

end ExtentRun

inductive Runs (w₀ : DedupedFiles δ) : DedupedFiles δ → Prop
  | start : Runs w₀ w₀
  | run {w : DedupedFiles δ} (hw : Runs w₀ w) (run : ExtentRun δ) (hvalid : run.Valid w)
      (hwhole : run.Whole) : Runs w₀ (run.after w)

/-- Every row's range is stored in one piece at the row's address, and the rows of a file are
apart. -/
structure DedupedFiles.Stored (w : DedupedFiles δ) : Prop where
  addressed : ∀ e ∈ w.extents.rows, ∀ i < e.len,
    w.storage e.fileid (e.loff + i) = some (e.poff + i)
  apart : ∀ d ∈ w.extents.rows, ∀ e ∈ w.extents.rows, d ≠ e → d.fileid = e.fileid →
    d.loff + d.len ≤ e.loff ∨ e.loff + e.len ≤ d.loff
  positive : ∀ e ∈ w.extents.rows, 0 < e.len

theorem cleanDeduped_subset {F : Type} {M : Type*} {extentOf : M → GroupExtent F} {len : ℕ}
    {members : List M} : ∀ m ∈ (cleanDeduped extentOf len members).getD [], m ∈ members := by
  intro m hm
  unfold cleanDeduped at hm
  split at hm
  · exact absurd hm List.not_mem_nil
  · next target rest =>
    dsimp only at hm
    split_ifs at hm
    · exact absurd hm List.not_mem_nil
    · rcases List.mem_cons.mp hm with rfl | hrest
      · exact List.mem_cons_self
      · exact List.mem_cons_of_mem _ (List.mem_filter.mp hrest).1

/-- A member that is gone is one the filter took for the target's storage. -/
theorem cleaned_of_removed {F : Type} {M : Type*} {extentOf : M → GroupExtent F} {len : ℕ}
    {target m : M} {rest : List M} (hm : m ∈ rest)
    (hgone : m ∉ (cleanDeduped extentOf len (target :: rest)).getD []) :
    cleaned len (extentOf target) (extentOf m) = true := by
  by_contra hkept
  have hin : m ∈ rest.filter fun m => !cleaned len (extentOf target) (extentOf m) :=
    List.mem_filter.mpr ⟨hm, by simpa using hkept⟩
  have htwo : ¬ (target :: rest.filter fun m =>
      !cleaned len (extentOf target) (extentOf m)).length < 2 := by
    have := List.length_pos_of_mem hin
    rw [List.length_cons]
    omega
  rw [cleanDeduped, if_neg htwo] at hgone
  exact hgone (List.mem_cons_of_mem _ hin)

namespace DedupedFiles.Stored

variable {w : DedupedFiles δ} {run : ExtentRun δ}

theorem eq_of_place (h : w.Stored) {d e : ExtentRow δ} (hd : d ∈ w.extents.rows)
    (he : e ∈ w.extents.rows) {p : ℕ} (hfile : d.fileid = e.fileid)
    (hdp : d.loff ≤ p ∧ p < d.loff + d.len) (hep : e.loff ≤ p ∧ p < e.loff + e.len) : d = e := by
  by_contra hne
  rcases h.apart d hd e he hne hfile with hle | hle <;> omega

theorem kept_row (hvalid : run.Valid w) {m : ExtentRow δ} (hm : m ∈ run.kept) :
    m ∈ w.extents.rows ∧ m.len = run.len := by
  obtain ⟨hrow, -, hlen⟩ := hvalid.loaded m (cleanDeduped_subset m hm)
  exact ⟨hrow, hlen⟩

/-- After a run a row's range is where it was, or where the target's is. -/
theorem dedupedStorage_row (h : w.Stored) (hvalid : run.Valid w) (hwhole : run.Whole)
    {e : ExtentRow δ} (he : e ∈ w.extents.rows) :
    ((e ∈ run.kept → run.progress e = 0) ∧ ∀ i < e.len,
      (run.after w).storage e.fileid (e.loff + i) = some (e.poff + i)) ∨
    (e ∈ run.kept ∧ 0 < run.progress e ∧ ∃ a, ∀ i < e.len,
      (run.after w).storage e.fileid (e.loff + i) = some (a + i)) := by
  -- the member whose head a place of the range lies in can only be the row itself
  have hfind : ∀ i < e.len, ∀ m ∈ run.kept,
      m.fileid = e.fileid ∧ m.loff ≤ e.loff + i ∧ e.loff + i < m.loff + run.progress m →
      m = e := by
    intro i hi m hm hplace
    obtain ⟨hrow, hlen⟩ := kept_row hvalid hm
    have hfits := hvalid.fits m hm
    exact h.eq_of_place hrow he hplace.1 ⟨hplace.2.1, by omega⟩ ⟨by omega, by omega⟩
  by_cases hmoved : e ∈ run.kept ∧ 0 < run.progress e
  · obtain ⟨hkept, hpos⟩ := hmoved
    obtain ⟨htgt, htgtLen⟩ := kept_row hvalid (hvalid.target e hkept)
    have hall := (hwhole.allOrNone e hkept).resolve_left (by omega)
    have hlen := (kept_row hvalid hkept).2
    refine Or.inr ⟨hkept, hpos, run.tgt.poff, fun i hi => ?_⟩
    have hin : (run.kept.find? fun m => decide (m.fileid = e.fileid ∧ m.loff ≤ e.loff + i ∧
        e.loff + i < m.loff + run.progress m)) = some e := by
      cases hsome : run.kept.find? fun m => decide (m.fileid = e.fileid ∧ m.loff ≤ e.loff + i ∧
          e.loff + i < m.loff + run.progress m) with
      | none =>
        have := List.find?_eq_none.mp hsome e hkept
        simp only [decide_eq_true_eq, not_and, true_and] at this
        omega
      | some m =>
        rw [hfind i hi m (List.mem_of_find?_eq_some hsome) (by simpa using List.find?_some hsome)]
    change run.dedupedStorage w.storage _ _ = _
    rw [ExtentRun.dedupedStorage, hin]
    dsimp only
    rw [Nat.add_sub_cancel_left]
    exact h.addressed run.tgt htgt i (by omega)
  · refine Or.inl ⟨fun hkept => by_contra fun hne => hmoved ⟨hkept, by omega⟩, fun i hi => ?_⟩
    have hnone : (run.kept.find? fun m => decide (m.fileid = e.fileid ∧ m.loff ≤ e.loff + i ∧
        e.loff + i < m.loff + run.progress m)) = none := by
      refine List.find?_eq_none.mpr fun m hm hplace => ?_
      have hplace : m.fileid = e.fileid ∧ m.loff ≤ e.loff + i ∧
          e.loff + i < m.loff + run.progress m := by simpa using hplace
      obtain rfl := hfind i hi m hm hplace
      exact hmoved ⟨hm, by omega⟩
    change run.dedupedStorage w.storage _ _ = _
    rw [ExtentRun.dedupedStorage, hnone]
    exact h.addressed e he i hi

/-- What a rescan finds at the start of a range that is stored in one piece. -/
theorem rescanned_physical {st : Storage} {e : ExtentRow δ} {len a : ℕ} {fm : Fiemap}
    {first : FiemapExtent} (hreports : st.Reports e.fileid e.loff len fm)
    (hfirst : fm.fmExtents.head? = some first) (hbegins : first.feLogical = e.loff)
    (hstored : st e.fileid e.loff = some a) : first.fePhysical = a := by
  have hmem := List.mem_of_head? hfirst
  have hholds := hreports.holds first hmem e.loff ⟨hbegins.le, by
    have := Fiemap.feEnd_pos hmem
    omega⟩
  rw [hbegins, Nat.sub_self, Nat.add_zero, hstored] at hholds
  exact (Option.some.inj hholds).symm

/-- A run that keeps to the condition leaves every row's address standing for its range. -/
theorem after (h : w.Stored) (hvalid : run.Valid w) (hwhole : run.Whole) :
    (run.after w).Stored where
  addressed := by
    intro e' he'
    obtain ⟨e, he, rfl⟩ := List.mem_map.mp he'
    obtain ⟨hfile, hloff, hlen⟩ := run.refresh_range e
    rw [hfile, hloff, hlen]
    have hrow := h.dedupedStorage_row hvalid hwhole he
    unfold ExtentRun.refresh
    split
    next m hm =>
      obtain ⟨hsame, hstart⟩ : m.fileid = e.fileid ∧ m.loff = e.loff := by
        simpa using List.find?_some hm
      have hkept := List.mem_of_find?_eq_some hm
      have hmrow := (kept_row hvalid hkept).1
      have hmpos := h.positive m hmrow
      have hpos := h.positive e he
      obtain rfl := h.eq_of_place hmrow he hsame ⟨hstart.le, by omega⟩ ⟨le_rfl, by omega⟩
      split
      next first hfirst =>
        obtain ⟨fm, hfm, hhead⟩ := Option.bind_eq_some_iff.mp hfirst
        have hreports := hvalid.reports m hkept fm hfm
        rw [← (kept_row hvalid hkept).2] at hreports
        have hbegins := hwhole.begins m hkept first hfirst
        obtain ⟨a, ha⟩ : ∃ a, ∀ i < m.len,
            (run.after w).storage m.fileid (m.loff + i) = some (a + i) := by
          rcases hrow with ⟨-, hsame⟩ | ⟨-, -, hmoved⟩
          · exact ⟨m.poff, hsame⟩
          · exact hmoved
        have := rescanned_physical hreports hhead hbegins (ha 0 hpos)
        rw [Nat.add_zero] at this
        rw [this]
        exact ha
      next hnone =>
        rcases hrow with ⟨-, hstill⟩ | ⟨-, hmoved, -⟩
        · exact hstill
        · have := hwhole.rescans m hkept hmoved
          rw [hnone] at this
          cases this
    next hnone =>
      rcases hrow with ⟨-, hstill⟩ | ⟨hkept, -, -⟩
      · exact hstill
      · exact absurd (by simp) (List.find?_eq_none.mp hnone e hkept)
  apart := by
    intro d' hd' e' he' hne hsame
    obtain ⟨d, hd, rfl⟩ := List.mem_map.mp hd'
    obtain ⟨e, he, rfl⟩ := List.mem_map.mp he'
    obtain ⟨hfile, hloff, hlen⟩ := run.refresh_range e
    obtain ⟨hfile', hloff', hlen'⟩ := run.refresh_range d
    rw [hloff, hlen, hloff', hlen']
    exact h.apart d hd e he (fun heq => hne (by rw [heq])) (by rw [← hfile', hsame, hfile])
  positive := by
    intro e' he'
    obtain ⟨e, he, rfl⟩ := List.mem_map.mp he'
    rw [(run.refresh_range e).2.2]
    exact h.positive e he

end DedupedFiles.Stored

theorem Runs.stored {w₀ w : DedupedFiles δ} (hruns : Runs w₀ w) (h : w₀.Stored) : w.Stored := by
  induction hruns with
  | start => exact h
  | run _ run hvalid hwhole ih => exact ih.after hvalid hwhole

/-! ## The exact check on what the filter removes -/

/-- How far before `off` the first record begins. -/
def Fiemap.lead (fm : Fiemap) (off : ℕ) : Option ℕ :=
  fm.fmExtents.head?.map fun e => off - e.feLogical

/-- A range in one piece that is stored elsewhere too is in one record. -/
theorem Storage.Reports.single {st : Storage} {file : ℤ} {off len a : ℕ} {fm : Fiemap}
    (h : st.Reports file off len fm) (hlen : 0 < len)
    (hstored : ∀ p, off ≤ p → p < off + len → st file p = some (a + (p - off)))
    (hshared : ∀ p, off ≤ p → p < off + len → ∃ g q, (g, q) ≠ (file, p) ∧ st g q = st file p) :
    ∃ first, fm.fmExtents[0]? = some first ∧ first.feLogical ≤ off ∧ off + len ≤ first.feEnd ∧
      first.fePhysical + (off - first.feLogical) = a ∧ first.addressable = true := by
  have hsome : ∀ p, off ≤ p → p < off + len → (st file p).isSome := fun p hle hlt => by
    rw [hstored p hle hlt]
    rfl
  have hflag : ∀ e ∈ fm.fmExtents, ∀ p, e.Holds p → off ≤ p → p < off + len →
      e.hasFlags FIEMAP_EXTENT_SHARED = true := fun e he p hholds hle hlt => by
    obtain ⟨g, q, hne, hsame⟩ := hshared p hle hlt
    exact h.shared e he p hholds g q hne hsame
  obtain ⟨e, he, hholds⟩ := h.covers off le_rfl (by omega) (hsome off le_rfl (by omega))
  have hsorted := fm.sorted
  have hmerged := h.merged
  cases hlist : fm.fmExtents with
  | nil =>
    rw [hlist] at he
    exact absurd he List.not_mem_nil
  | cons first rest =>
    have hfirst : first ∈ fm.fmExtents := hlist ▸ List.mem_cons_self
    rw [hlist] at hsorted he hmerged
    obtain ⟨hafter, hrest⟩ := List.pairwise_cons.mp hsorted
    have hwithin := h.within first hfirst
    unfold FiemapExtent.Overlaps at hwithin
    unfold FiemapExtent.Holds at hholds
    have hstart : first.feLogical ≤ off := by
      rcases List.mem_cons.mp he with rfl | hmem
      · exact hholds.1
      · have := hafter e hmem
        omega
    have hphys := h.holds first hfirst off ⟨hstart, by omega⟩
    rw [hstored off le_rfl (by omega), Nat.sub_self, Nat.add_zero] at hphys
    have hphys := Option.some.inj hphys
    refine ⟨first, rfl, hstart, ?_, hphys.symm, h.addressable first hfirst⟩
    by_contra hshort
    push Not at hshort
    -- the byte behind it is the next record's, and the two are stored one behind the other
    obtain ⟨d, hd, hdholds⟩ := h.covers first.feEnd (by omega) hshort (hsome _ (by omega) hshort)
    have hdphys := h.holds d hd first.feEnd hdholds
    rw [hstored _ (by omega) hshort] at hdphys
    have hdphys := Option.some.inj hdphys
    have hdflag := hflag d hd _ hdholds (by omega) hshort
    unfold FiemapExtent.Holds at hdholds
    rw [hlist] at hd
    cases rest with
    | nil =>
      obtain rfl := List.mem_singleton.mp hd
      omega
    | cons second rest =>
      have hsecond : d = second := by
        rcases List.mem_cons.mp hd with rfl | hd
        · omega
        rcases List.mem_cons.mp hd with rfl | hd
        · rfl
        · have := (List.pairwise_cons.mp hrest).1 d hd
          have := hafter second List.mem_cons_self
          have := Fiemap.feEnd_pos (hlist ▸ (by simp) : second ∈ fm.fmExtents)
          omega
      subst hsecond
      have hnext := hafter d List.mem_cons_self
      have hcontig : first.feEnd = d.feLogical := by omega
      have hflags := (List.isChain_cons_cons.mp hmerged).1 hcontig (by
        unfold FiemapExtent.feEnd at *
        omega)
      rw [hdflag, hflag first hfirst off ⟨hstart, by omega⟩ le_rfl (by omega)] at hflags
      exact hflags rfl

/-- On two ranges that are each in one record, the check looks at where in the record they begin. -/
theorem mapsShare_single {tm mm : Fiemap} {tgtOff destOff len : ℕ} {ea eb : FiemapExtent}
    (hlen : 0 < len) (ha : tm.fmExtents[0]? = some ea) (hb : mm.fmExtents[0]? = some eb)
    (hastart : ea.feLogical ≤ tgtOff) (hbstart : eb.feLogical ≤ destOff)
    (haend : tgtOff + len ≤ ea.feEnd) (hbend : destOff + len ≤ eb.feEnd)
    (haddr : ea.addressable = true ∧ eb.addressable = true)
    (hphys : ea.fePhysical + (tgtOff - ea.feLogical) = eb.fePhysical + (destOff - eb.feLogical)) :
    fiemapMapsShare (some tm) tgtOff (some mm) destOff len =
      some (.returns (decide (tgtOff - ea.feLogical = destOff - eb.feLogical))) := by
  have hne : tm.fmExtents.length ≠ 0 := fun hzero => by
    rw [List.length_eq_zero_iff.mp hzero] at ha
    cases ha
  unfold FiemapExtent.feEnd at haend hbend
  rw [fiemapMapsShare, if_neg (by omega), Fiemap.mapsShareLoop, if_pos hlen, ha, hb]
  simp only [gapAt, Nat.add_zero, if_neg (show ¬ tgtOff < ea.feLogical by omega),
    if_neg (show ¬ destOff < eb.feLogical by omega), ne_eq, not_true_eq_false, or_self, if_false]
  rw [if_neg (by simpa using FiemapExtent.addressable_or.mpr haddr)]
  by_cases hlead : tgtOff - ea.feLogical = destOff - eb.feLogical
  · have hsame : ea.fePhysical = eb.fePhysical := by omega
    have hcovered : ¬ 0 + (if ea.feLength - (tgtOff - ea.feLogical) <
        eb.feLength - (destOff - eb.feLogical) then ea.feLength - (tgtOff - ea.feLogical)
        else eb.feLength - (destOff - eb.feLogical)) < len := by
      split_ifs <;> omega
    rw [if_neg (by simp [hlead, hsame]), if_neg (by omega), if_neg (fun h => hcovered h.2)]
    obtain ⟨fuel, rfl⟩ : ∃ n, len = n + 1 := ⟨len - 1, by omega⟩
    rw [Fiemap.mapsShareLoop, if_neg hcovered, decide_eq_true hlead]
  · rw [if_pos (Or.inl hlead), decide_eq_false hlead]

/-- As long as the runs keep to the condition, a member `clean_deduped()` removes passes the exact
check wherever the kernel's records begin equally far before the two ranges. -/
theorem clean_deduped_shares (w₀ w : DedupedFiles δ) (h₀ : w₀.Stored) (hruns : Runs w₀ w)
    (digest : δ) (len : ℕ) (target : ExtentRow δ) (rest : List (ExtentRow δ))
    (hloaded : ∀ m ∈ target :: rest, m ∈ w.extents.rows ∧ m.digest = digest ∧ m.len = len)
    (hnodup : (target :: rest).Nodup) :
    ∀ m ∈ rest, m ∉ (cleanDeduped ExtentRow.groupExtent len (target :: rest)).getD [] →
      ∀ tm mm, w.storage.Reports target.fileid target.loff len tm →
        w.storage.Reports m.fileid m.loff len mm →
        (fiemapMapsShare (some tm) target.loff (some mm) m.loff len = some (.returns true) ↔
          tm.lead target.loff = mm.lead m.loff) := by
  intro m hm hgone tm mm htm hmm
  have hstored := hruns.stored h₀
  obtain ⟨htgt, -, htgtLen⟩ := hloaded target List.mem_cons_self
  obtain ⟨hrow, -, hmLen⟩ := hloaded m (List.mem_cons_of_mem _ hm)
  have hne : target ≠ m := fun heq => (List.nodup_cons.mp hnodup).1 (heq ▸ hm)
  have hlen : 0 < len := htgtLen ▸ hstored.positive target htgt
  have hpoff : m.poff = target.poff := by
    have hclean := cleaned_of_removed hm hgone
    simp only [cleaned, Bool.and_eq_true, decide_eq_true_eq] at hclean
    exact hclean.1.2
  have hat : ∀ e ∈ w.extents.rows, e.len = len → e.poff = target.poff → ∀ p, e.loff ≤ p →
      p < e.loff + len → w.storage e.fileid p = some (target.poff + (p - e.loff)) := by
    intro e he helen hepoff p hle hlt
    have := hstored.addressed e he (p - e.loff) (by omega)
    rwa [Nat.add_sub_cancel' hle, hepoff] at this
  -- each of the two ranges is where the other one is stored too
  have hshared : ∀ e ∈ w.extents.rows, ∀ d ∈ w.extents.rows, e ≠ d → e.len = len → d.len = len →
      e.poff = target.poff → d.poff = target.poff → ∀ p, e.loff ≤ p → p < e.loff + len →
      ∃ g q, (g, q) ≠ (e.fileid, p) ∧ w.storage g q = w.storage e.fileid p := by
    intro e he d hd hed helen hdlen hepoff hdpoff p hle hlt
    refine ⟨d.fileid, d.loff + (p - e.loff), fun hsame => ?_, ?_⟩
    · obtain ⟨hfile, hplace⟩ := Prod.mk.inj hsame
      exact hed (hstored.eq_of_place he hd hfile.symm ⟨hle, by omega⟩ ⟨by omega, by omega⟩)
    · rw [hat d hd hdlen hdpoff _ (by omega) (by omega), hat e he helen hepoff p hle hlt,
        Nat.add_sub_cancel_left]
  obtain ⟨ea, hea, hastart, haend, haphys, haaddr⟩ := htm.single hlen (hat target htgt htgtLen rfl)
    (hshared target htgt m hrow hne htgtLen hmLen rfl hpoff)
  obtain ⟨eb, heb, hbstart, hbend, hbphys, hbaddr⟩ := hmm.single hlen (hat m hrow hmLen hpoff)
    (hshared m hrow target htgt hne.symm hmLen htgtLen hpoff rfl)
  rw [mapsShare_single hlen hea heb hastart hbstart haend hbend ⟨haaddr, hbaddr⟩
    (haphys.trans hbphys.symm)]
  simp only [Fiemap.lead, List.head?_eq_getElem?, hea, heb, Option.map_some, Option.some.injEq,
    ShareEnd.returns.injEq, decide_eq_true_eq]

section Example

def pairStorage (n : ℕ) : Storage := fun file p =>
  if file = 1 ∧ p < 67108864 then some (1073741824 + p)
  else if file = 2 ∧ p < 67108864 then
    some (if p < n then 1073741824 + p else 2147483648 + p)
  else none

def firstRow : ExtentRow ℕ := ⟨1, 7, 1, 0, 1073741824, 67108864⟩

def secondRow : ExtentRow ℕ := ⟨2, 7, 2, 0, 2147483648, 67108864⟩

def pairFiles : DedupedFiles ℕ := ⟨pairStorage 0, ⟨[firstRow, secondRow], by decide, by decide⟩⟩

def wholeMap : Fiemap :=
  ⟨[⟨0, 1073741824, 67108864, FIEMAP_EXTENT_SHARED⟩], by simp, by simp⟩

def halfMap : Fiemap :=
  ⟨[⟨0, 1073741824, 33554432, FIEMAP_EXTENT_SHARED⟩, ⟨33554432, 2181038080, 33554432, 0⟩],
    by simp, by simp [FiemapExtent.feEnd]⟩

def pairRun (rounds : List ℕ) (found : Fiemap) : ExtentRun ℕ where
  digest := 7
  len := 67108864
  members := [firstRow, secondRow]
  tgt := firstRow
  rounds m := if m = secondRow then rounds else []
  rescan m := if m = secondRow then some found else some wholeMap

theorem pairRun_kept (rounds : List ℕ) (found : Fiemap) :
    (pairRun rounds found).kept = [firstRow, secondRow] := by
  have hkeep : cleaned 67108864 firstRow.groupExtent secondRow.groupExtent = false := by
    simp [cleaned, ExtentRow.groupExtent, firstRow, secondRow]
  simp [ExtentRun.kept, pairRun, cleanDeduped, hkeep]

theorem pairRun_first (rounds : List ℕ) (found : Fiemap) :
    (pairRun rounds found).rounds firstRow = [] := by
  simp [pairRun, firstRow, secondRow]

theorem pairRun_second (rounds : List ℕ) (found : Fiemap) :
    (pairRun rounds found).rounds secondRow = rounds := by
  simp [pairRun]

theorem pairRun_storage (rounds : List ℕ) (found : Fiemap) (hsum : rounds.sum ≤ 67108864) :
    ((pairRun rounds found).after pairFiles).storage = pairStorage rounds.sum := by
  funext file p
  change (pairRun rounds found).dedupedStorage (pairStorage 0) file p = _
  have hfirst : (pairRun rounds found).progress firstRow = 0 := by
    rw [ExtentRun.progress, pairRun_first, List.sum_nil]
  have hsecond : (pairRun rounds found).progress secondRow = rounds.sum := by
    rw [ExtentRun.progress, pairRun_second]
  rw [ExtentRun.dedupedStorage, pairRun_kept, List.find?_cons_of_neg (by
    rw [hfirst]
    simp)]
  by_cases hin : file = 2 ∧ p < rounds.sum
  · obtain ⟨rfl, hlt⟩ := hin
    rw [List.find?_cons_of_pos (by
      rw [hsecond]
      simp [hlt, secondRow])]
    simp [pairStorage, pairRun, firstRow, secondRow, hlt, show p < 67108864 by omega]
  · rw [List.find?_cons_of_neg (by
      rw [hsecond, decide_eq_true_eq]
      simp only [secondRow]
      omega)]
    simp only [List.find?_nil, pairStorage, Nat.not_lt_zero, if_false]
    split_ifs
    · rfl
    · omega
    · rfl
    · rfl

theorem reports_whole {n : ℕ} {file : ℤ}
    (h : ∀ p < 67108864, pairStorage n file p = some (1073741824 + p)) :
    (pairStorage n).Reports file 0 67108864 wholeMap where
  within := by simp [Fiemap.Within, wholeMap, FiemapExtent.Overlaps, FiemapExtent.feEnd]
  holds e he p hp := by
    obtain rfl := List.mem_singleton.mp he
    exact h p (by simpa [FiemapExtent.Holds, FiemapExtent.feEnd] using hp)
  covers p _ hlt _ := ⟨_, List.mem_singleton_self _, Nat.zero_le p, by
    simpa [FiemapExtent.feEnd] using hlt⟩
  addressable := by decide
  shared e he _ _ _ _ _ _ := by
    obtain rfl := List.mem_singleton.mp he
    decide
  merged := List.isChain_singleton _

theorem reports_half : (pairStorage 33554432).Reports 2 0 67108864 halfMap where
  within := by simp [Fiemap.Within, halfMap, FiemapExtent.Overlaps, FiemapExtent.feEnd]
  holds e he p hp := by
    simp only [halfMap, List.mem_cons, List.not_mem_nil, or_false] at he
    rcases he with rfl | rfl <;> simp only [FiemapExtent.Holds, FiemapExtent.feEnd] at hp
    · rw [pairStorage, if_neg (by omega), if_pos (by omega), if_pos (by omega), Nat.sub_zero]
    · rw [pairStorage, if_neg (by omega), if_pos (by omega), if_neg (by omega)]
      simp only [Option.some.injEq]
      omega
  covers p _ hlt _ := by
    rcases Nat.lt_or_ge p 33554432 with hlow | hhigh
    · exact ⟨_, List.mem_cons_self, Nat.zero_le p, by simpa [FiemapExtent.feEnd] using hlow⟩
    · exact ⟨_, List.mem_cons_of_mem _ List.mem_cons_self, hhigh, by
        simp only [FiemapExtent.feEnd]
        omega⟩
  addressable := by decide
  shared e he p hp g q hne hsame := by
    simp only [halfMap, List.mem_cons, List.not_mem_nil, or_false] at he
    rcases he with rfl | rfl
    · decide
    · -- nothing else is stored there
      simp only [FiemapExtent.Holds, FiemapExtent.feEnd] at hp
      rw [show pairStorage 33554432 2 p = some (2147483648 + p) by
        rw [pairStorage, if_neg (by omega), if_pos (by omega), if_neg (by omega)]] at hsame
      unfold pairStorage at hsame
      split_ifs at hsame with hone htwo hlow
      · have := Option.some.inj hsame
        omega
      · have := Option.some.inj hsame
        omega
      · have := Option.some.inj hsame
        exact absurd (Prod.ext htwo.1 (by simpa using this)) hne
  merged := by decide

theorem pairRun_valid (rounds : List ℕ) (found : Fiemap) (hsum : rounds.sum ≤ 67108864)
    (hround : ∀ n ∈ rounds, n ≤ DEDUPE_ROUND_LEN)
    (hfound : (pairStorage rounds.sum).Reports 2 0 67108864 found) :
    (pairRun rounds found).Valid pairFiles where
  loaded m hm := by
    have hm : m ∈ [firstRow, secondRow] := hm
    refine ⟨hm, ?_⟩
    simp only [List.mem_cons, List.not_mem_nil, or_false] at hm
    rcases hm with rfl | rfl <;> exact ⟨rfl, rfl⟩
  nodup := by
    change [firstRow, secondRow].Nodup
    simp [firstRow, secondRow]
  target _ _ := by
    rw [pairRun_kept]
    exact List.mem_cons_self
  still := pairRun_first rounds found
  round m hm n hn := by
    rw [pairRun_kept] at hm
    simp only [List.mem_cons, List.not_mem_nil, or_false] at hm
    rcases hm with rfl | rfl
    · rw [pairRun_first] at hn
      exact absurd hn List.not_mem_nil
    · rw [pairRun_second] at hn
      exact hround n hn
  fits m hm := by
    rw [pairRun_kept] at hm
    simp only [List.mem_cons, List.not_mem_nil, or_false] at hm
    rcases hm with rfl | rfl
    · rw [ExtentRun.progress, pairRun_first]
      exact Nat.zero_le _
    · rw [ExtentRun.progress, pairRun_second]
      exact hsum
  reports m hm fm hfm := by
    rw [pairRun_storage rounds found hsum]
    rw [pairRun_kept] at hm
    simp only [List.mem_cons, List.not_mem_nil, or_false] at hm
    rcases hm with rfl | rfl
    · obtain rfl : wholeMap = fm := by simpa [pairRun, firstRow, secondRow] using hfm
      exact reports_whole fun p hp => if_pos ⟨rfl, hp⟩
    · obtain rfl : found = fm := by simpa [pairRun] using hfm
      exact hfound

theorem pairFiles_stored : pairFiles.Stored where
  addressed e he i hi := by
    have he : e ∈ [firstRow, secondRow] := he
    simp only [List.mem_cons, List.not_mem_nil, or_false] at he
    rcases he with rfl | rfl
    · simp only [firstRow] at hi
      simp [pairFiles, pairStorage, firstRow, hi]
    · simp only [secondRow] at hi
      simp [pairFiles, pairStorage, secondRow, hi]
  apart d hd e he hne hsame := by
    have hd : d ∈ [firstRow, secondRow] := hd
    have he : e ∈ [firstRow, secondRow] := he
    simp only [List.mem_cons, List.not_mem_nil, or_false] at hd he
    rcases hd with rfl | rfl <;> rcases he with rfl | rfl
    · exact absurd rfl hne
    · exact absurd hsame (by decide)
    · exact absurd hsame (by decide)
    · exact absurd rfl hne
  positive e he := by
    have he : e ∈ [firstRow, secondRow] := he
    simp only [List.mem_cons, List.not_mem_nil, or_false] at he
    rcases he with rfl | rfl <;> simp [firstRow, secondRow]

theorem pairRun_rescanned_first (rounds : List ℕ) (found : Fiemap) :
    (pairRun rounds found).rescanned firstRow =
      some ⟨0, 1073741824, 67108864, FIEMAP_EXTENT_SHARED⟩ := by
  simp [ExtentRun.rescanned, pairRun, firstRow, secondRow, wholeMap]

theorem pairRun_rescanned_second (rounds : List ℕ) (found : Fiemap) :
    (pairRun rounds found).rescanned secondRow = found.fmExtents.head? := by
  simp [ExtentRun.rescanned, pairRun]

theorem pairRun_whole (rounds : List ℕ) (found : Fiemap) (hsum : rounds.sum = 67108864)
    (hfound : found.fmExtents.head?.map (·.feLogical) = some 0) :
    (pairRun rounds found).Whole := by
  obtain ⟨first, hhead, hstart⟩ := Option.map_eq_some_iff.mp hfound
  have hmem : ∀ m ∈ (pairRun rounds found).kept, m = firstRow ∨ m = secondRow := by
    simp [pairRun_kept]
  have hsecond := (pairRun_rescanned_second rounds found).trans hhead
  refine ⟨fun m hm => ?_, fun m hm _ => ?_, fun m hm e he => ?_⟩
  · rcases hmem m hm with rfl | rfl
    · left
      rw [ExtentRun.progress, pairRun_first, List.sum_nil]
    · right
      rw [ExtentRun.progress, pairRun_second]
      exact hsum
  · rcases hmem m hm with rfl | rfl
    · rw [pairRun_rescanned_first]
      rfl
    · rw [hsecond]
      rfl
  · rcases hmem m hm with rfl | rfl
    · rw [pairRun_rescanned_first] at he
      obtain rfl := Option.some.inj he
      rfl
    · rw [hsecond] at he
      obtain rfl := Option.some.inj he
      exact hstart

def movedRow : ExtentRow ℕ := { secondRow with poff := 1073741824 }

theorem pairRun_rows (rounds : List ℕ) (found : Fiemap)
    (hfound : found.fmExtents.head?.map (·.fePhysical) = some 1073741824) :
    ((pairRun rounds found).after pairFiles).extents.rows = [firstRow, movedRow] := by
  obtain ⟨first, hhead, hphys⟩ := Option.map_eq_some_iff.mp hfound
  have hsecond := (pairRun_rescanned_second rounds found).trans hhead
  change [firstRow, secondRow].map (pairRun rounds found).refresh = _
  rw [List.map_cons, List.map_cons, List.map_nil, ExtentRun.refresh, ExtentRun.refresh,
    pairRun_kept, List.find?_cons_of_pos (by simp), List.find?_cons_of_neg (by
      simp [firstRow, secondRow]), List.find?_cons_of_pos (by simp)]
  simp only [pairRun_rescanned_first, hsecond, hphys]
  rfl

theorem movedRow_removed :
    movedRow ∉ (cleanDeduped ExtentRow.groupExtent 67108864 [firstRow, movedRow]).getD [] := by
  have hclean : cleaned 67108864 firstRow.groupExtent movedRow.groupExtent = true := by
    simp [cleaned, diskExtentGrew, ExtentRow.groupExtent, firstRow, movedRow, secondRow]
  simp [cleanDeduped, hclean]

theorem pairRun_members (rounds : List ℕ) (found : Fiemap)
    (hfound : found.fmExtents.head?.map (·.fePhysical) = some 1073741824) :
    (∀ m ∈ [firstRow, movedRow],
      m ∈ ((pairRun rounds found).after pairFiles).extents.rows ∧ m.digest = 7 ∧
        m.len = 67108864) ∧ [firstRow, movedRow].Nodup := by
  rw [pairRun_rows rounds found hfound]
  refine ⟨fun m hm => ⟨hm, ?_⟩, by simp [firstRow, movedRow, secondRow]⟩
  simp only [List.mem_cons, List.not_mem_nil, or_false] at hm
  rcases hm with rfl | rfl <;> exact ⟨rfl, rfl⟩

/-- The second round of the second file fails, and the next run removes the file from the group
though its second half is stored elsewhere. -/
theorem clean_deduped_culls_half :
    ∃ (w₀ : DedupedFiles ℕ) (run : ExtentRun ℕ) (target m : ExtentRow ℕ) (tm mm : Fiemap),
      w₀.Stored ∧ run.Valid w₀ ∧
      (∀ e ∈ [target, m], e ∈ (run.after w₀).extents.rows ∧ e.digest = 7 ∧ e.len = 67108864) ∧
      [target, m].Nodup ∧
      m ∉ (cleanDeduped ExtentRow.groupExtent 67108864 [target, m]).getD [] ∧
      (run.after w₀).storage.Reports target.fileid target.loff 67108864 tm ∧
      (run.after w₀).storage.Reports m.fileid m.loff 67108864 mm ∧
      fiemapMapsShare (some tm) target.loff (some mm) m.loff 67108864 =
        some (.returns false) := by
  have hsum : [33554432].sum ≤ 67108864 := by simp
  have hround : ∀ n ∈ [33554432], n ≤ DEDUPE_ROUND_LEN := by simp [DEDUPE_ROUND_LEN]
  have hmembers := pairRun_members [33554432] halfMap rfl
  refine ⟨pairFiles, pairRun [33554432] halfMap, firstRow, movedRow, wholeMap, halfMap,
    pairFiles_stored, pairRun_valid _ _ hsum hround reports_half, hmembers.1, hmembers.2,
    movedRow_removed, ?_, ?_, ?_⟩
  · rw [pairRun_storage _ _ hsum]
    exact reports_whole fun p hp => if_pos ⟨rfl, hp⟩
  · rw [pairRun_storage _ _ hsum]
    exact reports_half
  · simp [fiemapMapsShare, Fiemap.mapsShareLoop, wholeMap, halfMap, gapAt, firstRow, movedRow,
      secondRow, FIEMAP_EXTENT_SHARED, FIEMAP_NO_PHYS, FIEMAP_EXTENT_UNKNOWN,
      FIEMAP_EXTENT_DELALLOC, FIEMAP_EXTENT_DATA_INLINE]

/-- With both rounds done the check agrees. -/
theorem clean_deduped_shares_pair :
    fiemapMapsShare (some wholeMap) 0 (some wholeMap) 0 67108864 = some (.returns true) := by
  have hsum : [33554432, 33554432].sum = 67108864 := by simp
  have hround : ∀ n ∈ [33554432, 33554432], n ≤ DEDUPE_ROUND_LEN := by simp [DEDUPE_ROUND_LEN]
  have hsecond : ∀ p < 67108864, pairStorage 67108864 2 p = some (1073741824 + p) := by
    intro p hp
    rw [pairStorage, if_neg (by omega), if_pos ⟨rfl, hp⟩, if_pos hp]
  have hvalid := pairRun_valid _ wholeMap hsum.le hround (hsum ▸ reports_whole hsecond)
  have hwhole := pairRun_whole _ wholeMap hsum rfl
  obtain ⟨hloaded, hnodup⟩ := pairRun_members [33554432, 33554432] wholeMap rfl
  refine (clean_deduped_shares pairFiles _ pairFiles_stored
    (.run .start (pairRun [33554432, 33554432] wholeMap) hvalid hwhole) 7 67108864 firstRow
    [movedRow] hloaded hnodup movedRow List.mem_cons_self movedRow_removed wholeMap wholeMap
    ?_ ?_).mpr rfl
  · rw [pairRun_storage _ _ hsum.le, hsum]
    exact reports_whole fun p hp => if_pos ⟨rfl, hp⟩
  · rw [pairRun_storage _ _ hsum.le, hsum]
    exact reports_whole hsecond

end Example

end Oans
