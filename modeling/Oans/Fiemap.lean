import Mathlib.Tactic

/-!
# Extent maps

The records FIEMAP reports for one file, sorted by logical offset and disjoint, and
`get_extent()` with its resume cursor. The cursor never changes the record found, so everything
past this module is stated with `nextExtent`, the scan from index 0.
-/

namespace Oans

def FIEMAP_EXTENT_LAST : UInt32 := 0x1
def FIEMAP_EXTENT_DATA_INLINE : UInt32 := 0x200
def FIEMAP_EXTENT_UNWRITTEN : UInt32 := 0x800

/-- The records whose range reads back as zeroes, or is never worth hashing. -/
def FIEMAP_SKIP_FLAGS : UInt32 := FIEMAP_EXTENT_DATA_INLINE ||| FIEMAP_EXTENT_UNWRITTEN

structure FiemapExtent where
  feLogical : ℕ
  fePhysical : ℕ
  feLength : ℕ
  feFlags : UInt32
  deriving DecidableEq, Repr

namespace FiemapExtent

def feEnd (e : FiemapExtent) : ℕ := e.feLogical + e.feLength

def hasFlags (e : FiemapExtent) (flags : UInt32) : Bool := e.feFlags &&& flags != 0

def skipped (e : FiemapExtent) : Bool := e.hasFlags FIEMAP_SKIP_FLAGS

def inline (e : FiemapExtent) : Bool := e.hasFlags FIEMAP_EXTENT_DATA_INLINE

def unwritten (e : FiemapExtent) : Bool := e.hasFlags FIEMAP_EXTENT_UNWRITTEN

theorem skipped_eq_or (e : FiemapExtent) : e.skipped = (e.inline || e.unwritten) := by
  have hand : e.feFlags &&& (FIEMAP_EXTENT_DATA_INLINE ||| FIEMAP_EXTENT_UNWRITTEN) =
      (e.feFlags &&& FIEMAP_EXTENT_DATA_INLINE) ||| (e.feFlags &&& FIEMAP_EXTENT_UNWRITTEN) := by
    rw [← UInt32.toBitVec_inj]
    simp [BitVec.and_or_distrib_left]
  rw [Bool.eq_iff_iff]
  simp only [skipped, inline, unwritten, hasFlags, FIEMAP_SKIP_FLAGS, hand, bne_iff_ne, ne_eq,
    UInt32.or_eq_zero_iff, Bool.or_eq_true]
  tauto

def Holds (e : FiemapExtent) (p : ℕ) : Prop := e.feLogical ≤ p ∧ p < e.feEnd

instance (e : FiemapExtent) (p : ℕ) : Decidable (e.Holds p) :=
  inferInstanceAs (Decidable (_ ∧ _))

def Overlaps (e : FiemapExtent) (a b : ℕ) : Prop := max a e.feLogical < min b e.feEnd

instance (e : FiemapExtent) (a b : ℕ) : Decidable (e.Overlaps a b) :=
  inferInstanceAs (Decidable (_ < _))

end FiemapExtent

structure Fiemap where
  fmExtents : List FiemapExtent
  positive : ∀ e ∈ fmExtents, 0 < e.feLength
  sorted : fmExtents.Pairwise fun d e => d.feEnd ≤ e.feLogical

namespace Fiemap

variable (fm : Fiemap)

/-- The hint is taken when the record before it ends at or before `loff`. -/
def startIndex (loff index : ℕ) : ℕ :=
  if index < fm.fmExtents.length ∧
      (index = 0 ∨ (fm.fmExtents[index - 1]?).all fun d => d.feEnd ≤ loff) then index else 0

/-- `get_extent()`: the record found and the hint it leaves. -/
def getExtent (loff index : ℕ) : Option FiemapExtent × ℕ :=
  let start := fm.startIndex loff index
  let rest := fm.fmExtents.drop start
  match rest.findIdx? fun e => decide (loff ≤ e.feEnd - 1) with
  | some i => (rest[i]?, start + i)
  | none => (none, index)

/-- The first record that ends past `loff`, by a scan from index 0. -/
def nextExtent (loff : ℕ) : Option FiemapExtent := fm.fmExtents.find? fun e => loff < e.feEnd

def Hole (p : ℕ) : Prop := ∀ e ∈ fm.fmExtents, ¬ e.Holds p

instance (p : ℕ) : Decidable (fm.Hole p) := inferInstanceAs (Decidable (∀ _ ∈ _, _))

variable {fm}

theorem feEnd_pos {e : FiemapExtent} (he : e ∈ fm.fmExtents) : e.feLogical < e.feEnd := by
  have := fm.positive e he
  simp only [FiemapExtent.feEnd]
  omega

theorem ends_of_startIndex {loff index : ℕ} {d : FiemapExtent}
    (hd : d ∈ fm.fmExtents.take (fm.startIndex loff index)) : d.feEnd ≤ loff := by
  by_cases hstart : index < fm.fmExtents.length ∧
      (index = 0 ∨ (fm.fmExtents[index - 1]?).all fun d => d.feEnd ≤ loff)
  · rw [startIndex, if_pos hstart] at hd
    obtain ⟨i, hi, rfl⟩ := List.mem_take_iff_getElem.mp hd
    obtain ⟨hlen, hzero | hprev⟩ := hstart
    · omega
    · have hlast : fm.fmExtents[index - 1].feEnd ≤ loff := by
        simpa [List.getElem?_eq_getElem (show index - 1 < fm.fmExtents.length by omega)] using hprev
      rcases Nat.lt_or_ge i (index - 1) with hlt | hge
      · have horder := List.pairwise_iff_getElem.mp fm.sorted i (index - 1) (by omega)
          (by omega) hlt
        have hpos := feEnd_pos (List.getElem_mem (show index - 1 < fm.fmExtents.length by omega))
        omega
      · have : i = index - 1 := by omega
        subst this
        exact hlast
  · rw [startIndex, if_neg hstart] at hd
    simp at hd

/-- The cursor is transparent: whatever the hint, the record is that of a scan from index 0. -/
theorem getExtent_fst (fm : Fiemap) (loff index : ℕ) :
    (fm.getExtent loff index).1 = fm.nextExtent loff := by
  have hsplit : fm.nextExtent loff =
      (fm.fmExtents.drop (fm.startIndex loff index)).find? fun e => loff < e.feEnd := by
    have hnone : (fm.fmExtents.take (fm.startIndex loff index)).find?
        (fun e => decide (loff < e.feEnd)) = none := by
      rw [List.find?_eq_none]
      intro d hd
      have := ends_of_startIndex hd
      simp only [decide_eq_true_eq]
      omega
    rw [nextExtent, ← List.take_append_drop (fm.startIndex loff index) fm.fmExtents,
      List.find?_append, hnone, Option.none_or, List.take_append_drop]
  have hpred : ∀ e ∈ fm.fmExtents.drop (fm.startIndex loff index),
      decide (loff ≤ e.feEnd - 1) = decide (loff < e.feEnd) := by
    intro e he
    have := feEnd_pos (List.mem_of_mem_drop he)
    rw [decide_eq_decide]
    omega
  rw [hsplit, getExtent]
  generalize fm.fmExtents.drop (fm.startIndex loff index) = rest at hpred
  have hcongr : rest.findIdx? (fun e => decide (loff ≤ e.feEnd - 1)) =
      rest.findIdx? (fun e => decide (loff < e.feEnd)) := by
    induction rest with
    | nil => rfl
    | cons e rest ih =>
      simp only [List.findIdx?_cons, hpred e List.mem_cons_self,
        ih fun d hd => hpred d (List.mem_cons_of_mem e hd)]
  simp only [hcongr]
  cases h : rest.findIdx? fun e => decide (loff < e.feEnd) with
  | none =>
    rw [List.findIdx?_eq_none_iff] at h
    exact (List.find?_eq_none.mpr fun e he => by simp [h e he]).symm
  | some i =>
    obtain ⟨hi, hpi, hbefore⟩ := List.findIdx?_eq_some_iff_getElem.mp h
    have hget : rest[i]? = some rest[i] := List.getElem?_eq_getElem hi
    simp only [hget]
    rw [eq_comm, List.find?_eq_some_iff_getElem]
    refine ⟨hpi, i, hi, rfl, ?_⟩
    intro j hj
    simpa using hbefore j hj

theorem nextExtent_eq_find (fm : Fiemap) (loff : ℕ) :
    fm.nextExtent loff = fm.fmExtents.find? fun e => loff ≤ e.feEnd - 1 := by
  refine List.find?_congr fun e he => ?_
  have := feEnd_pos he
  rw [decide_eq_decide]
  omega

def getExtents (fm : Fiemap) : List ℕ → ℕ → List (Option FiemapExtent)
  | [], _ => []
  | loff :: loffs, index =>
    (fm.getExtent loff index).1 :: fm.getExtents loffs (fm.getExtent loff index).2

/-- Whatever the hint and whatever was asked before, each lookup answers as a scan from index 0:
with the first record whose last byte is at or after the offset. -/
theorem getExtents_eq_map (fm : Fiemap) (loffs : List ℕ) (index : ℕ) :
    fm.getExtents loffs index = loffs.map (fun loff => (fm.getExtent loff 0).1) ∧
      fm.getExtents loffs index =
        loffs.map fun loff => fm.fmExtents.find? fun e => loff ≤ e.feEnd - 1 := by
  induction loffs generalizing index with
  | nil => exact ⟨rfl, rfl⟩
  | cons loff loffs ih =>
    obtain ⟨hscan, hfind⟩ := ih (fm.getExtent loff index).2
    constructor
    · rw [getExtents, List.map_cons, ← hscan, getExtent_fst, getExtent_fst]
    · rw [getExtents, List.map_cons, ← hfind, getExtent_fst, nextExtent_eq_find]

theorem nextExtent_eq_none {loff : ℕ} (h : fm.nextExtent loff = none) :
    ∀ e ∈ fm.fmExtents, e.feEnd ≤ loff := by
  intro e he
  simpa using List.find?_eq_none.mp h e he

theorem nextExtent_mem {loff : ℕ} {e : FiemapExtent} (h : fm.nextExtent loff = some e) :
    e ∈ fm.fmExtents := List.mem_of_find?_eq_some h

theorem nextExtent_lt {loff : ℕ} {e : FiemapExtent} (h : fm.nextExtent loff = some e) :
    loff < e.feEnd := by
  simpa using List.find?_some h

/-- Every other record ends at or before `loff`, or starts after the one found. -/
theorem nextExtent_order {loff : ℕ} {e : FiemapExtent} (h : fm.nextExtent loff = some e) :
    ∀ d ∈ fm.fmExtents, d.feEnd ≤ loff ∨ d = e ∨ e.feEnd ≤ d.feLogical := by
  intro d hd
  obtain ⟨-, before, after, hsplit, hbefore⟩ := List.find?_eq_some_iff_append.mp h
  have hsorted := fm.sorted
  rw [hsplit] at hd hsorted
  rcases List.mem_append.mp hd with hd | hd
  · exact Or.inl (by simpa using hbefore d hd)
  · rcases List.mem_cons.mp hd with rfl | hd
    · exact Or.inr (Or.inl rfl)
    · have hpair := (List.pairwise_append.mp hsorted).2.1
      exact Or.inr (Or.inr ((List.pairwise_cons.mp hpair).1 d hd))

theorem nextExtent_eq_some {loff : ℕ} {e : FiemapExtent} (he : e ∈ fm.fmExtents)
    (hlt : loff < e.feEnd) (hfirst : ∀ d ∈ fm.fmExtents, loff < d.feEnd → e.feLogical ≤ d.feLogical) :
    fm.nextExtent loff = some e := by
  cases h : fm.nextExtent loff with
  | none =>
    have := nextExtent_eq_none h e he
    omega
  | some d =>
    have hdlt := nextExtent_lt h
    rcases nextExtent_order h e he with hend | rfl | hafter
    · omega
    · rfl
    · have hd := feEnd_pos (nextExtent_mem h)
      have := hfirst d (nextExtent_mem h) hdlt
      omega

theorem nextExtent_congr {off p : ℕ} {e : FiemapExtent} (h : fm.nextExtent off = some e)
    (hle : off ≤ p) (hlt : p < e.feEnd) : fm.nextExtent p = some e := by
  refine nextExtent_eq_some (nextExtent_mem h) hlt fun d hd hpd => ?_
  rcases nextExtent_order h d hd with hend | rfl | hafter
  · omega
  · exact le_rfl
  · have := feEnd_pos (nextExtent_mem h)
    omega

theorem hole_of_nextExtent_none {off p : ℕ} (h : fm.nextExtent off = none) (hle : off ≤ p) :
    fm.Hole p := by
  intro e he hp
  have := nextExtent_eq_none h e he
  have := hp.2
  omega

theorem hole_of_lt_nextExtent {off p : ℕ} {e : FiemapExtent} (h : fm.nextExtent off = some e)
    (hle : off ≤ p) (hlt : p < e.feLogical) : fm.Hole p := by
  intro d hd hp
  have hpd := hp.1
  have hdp := hp.2
  rcases nextExtent_order h d hd with hend | rfl | hafter
  · omega
  · omega
  · have := feEnd_pos (nextExtent_mem h)
    omega

end Fiemap

end Oans
