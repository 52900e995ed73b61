import Oans.Fiemap

/-!
# Whether two ranges share their storage

`fiemap_maps_share()` walks the extent maps of two ranges with one index. It says yes only where
both sides are in a hole or at the same offset of the same stored extent, and it says yes wherever
the two maps describe the range alike.
-/

namespace Oans

def FIEMAP_EXTENT_UNKNOWN : UInt32 := 0x2
def FIEMAP_EXTENT_DELALLOC : UInt32 := 0x4

/-- Records whose `fe_physical` is not a real, stable on-disk location. -/
def FIEMAP_NO_PHYS : UInt32 :=
  FIEMAP_EXTENT_UNKNOWN ||| FIEMAP_EXTENT_DELALLOC ||| FIEMAP_EXTENT_DATA_INLINE

namespace FiemapExtent

def addressable (e : FiemapExtent) : Bool := !e.hasFlags FIEMAP_NO_PHYS

theorem addressable_or {d e : FiemapExtent} :
    (d.feFlags ||| e.feFlags) &&& FIEMAP_NO_PHYS = 0 ↔
      d.addressable = true ∧ e.addressable = true := by
  have hand : (d.feFlags ||| e.feFlags) &&& FIEMAP_NO_PHYS =
      (d.feFlags &&& FIEMAP_NO_PHYS) ||| (e.feFlags &&& FIEMAP_NO_PHYS) := by
    rw [← UInt32.toBitVec_inj]
    simp [BitVec.and_or_distrib_right]
  rw [hand, UInt32.or_eq_zero_iff]
  simp [addressable, hasFlags]

end FiemapExtent

def gapAt (e : Option FiemapExtent) (off rest : ℕ) : ℕ :=
  match e with
  | none => rest
  | some e => if off < e.feLogical then e.feLogical - off else 0

/-- How a call of `fiemap_maps_share()` ends; the last two stand for what must not happen. -/
inductive ShareEnd
  | returns (shared : Bool)
  | pastTheList
  | underflow
  deriving DecidableEq, Repr

namespace Fiemap

/-- The loop of `fiemap_maps_share()`, with a bound on its turns. Offsets are those of ranges
inside files, so no sum of them wraps. -/
def mapsShareLoop (tgt dm : Fiemap) (tgtOff destOff len : ℕ) : ℕ → ℕ → ℕ → Option ShareEnd
  | 0, _, _ => none
  | fuel + 1, i, pos =>
    if pos < len then
      let ha := gapAt tgt.fmExtents[i]? (tgtOff + pos) (len - pos)
      let hb := gapAt dm.fmExtents[i]? (destOff + pos) (len - pos)
      if ha ≠ 0 ∨ hb ≠ 0 then
        -- a hole facing data is a real difference
        if ha ≠ hb then some (.returns false)
        else mapsShareLoop tgt dm tgtOff destOff len fuel i (pos + ha)
      else
        match tgt.fmExtents[i]?, dm.fmExtents[i]? with
        | some ea, some eb =>
          if (ea.feFlags ||| eb.feFlags) &&& FIEMAP_NO_PHYS ≠ 0 then some (.returns false)
          else
            let pa := tgtOff + pos - ea.feLogical
            let pb := destOff + pos - eb.feLogical
            if pa ≠ pb ∨ ea.fePhysical ≠ eb.fePhysical then some (.returns false)
            else if ea.feLength < pa ∨ eb.feLength < pb then some .underflow
            else
              let ra := ea.feLength - pa
              let rb := eb.feLength - pb
              let pos := pos + if ra < rb then ra else rb
              if ra ≠ rb ∧ pos < len then some (.returns false)
              else mapsShareLoop tgt dm tgtOff destOff len fuel (i + 1) pos
        | _, _ => some .pastTheList
    else some (.returns true)

end Fiemap

/-- `fiemap_maps_share()`; a missing map is `none`. -/
def fiemapMapsShare (tgt : Option Fiemap) (tgtOff : ℕ) (dm : Option Fiemap) (destOff len : ℕ) :
    Option ShareEnd :=
  match tgt, dm with
  | some tgt, some dm =>
    if len = 0 ∨ tgt.fmExtents.length = 0 then some (.returns false)
    else tgt.mapsShareLoop dm tgtOff destOff len (len + 1) 0 0
  | _, _ => some (.returns false)

namespace Fiemap

def Within (fm : Fiemap) (off len : ℕ) : Prop := ∀ e ∈ fm.fmExtents, e.Overlaps off (off + len)

instance (fm : Fiemap) (off len : ℕ) : Decidable (fm.Within off len) :=
  inferInstanceAs (Decidable (∀ _ ∈ _, _))

/-- The two sides are both in a hole, or at the same offset of the same stored extent. -/
def SharedAt (tgt dm : Fiemap) (a b : ℕ) : Prop :=
  tgt.Hole a ∧ dm.Hole b ∨
    ∃ ea ∈ tgt.fmExtents, ∃ eb ∈ dm.fmExtents, ea.Holds a ∧ eb.Holds b ∧
      ea.addressable = true ∧ eb.addressable = true ∧ ea.fePhysical = eb.fePhysical ∧
      a - ea.feLogical = b - eb.feLogical

/-- The same record from the two sides, up to the shift between the ranges and, for the one that
covers the end of the range, up to where it stops. -/
structure SameRecord (tgtOff destOff len : ℕ) (ea eb : FiemapExtent) : Prop where
  start : ea.feLogical + destOff = eb.feLogical + tgtOff
  physical : ea.fePhysical = eb.fePhysical
  addressable : ea.addressable = true ∧ eb.addressable = true
  stop : ea.feEnd + destOff = eb.feEnd + tgtOff ∨
    tgtOff + len ≤ ea.feEnd ∧ destOff + len ≤ eb.feEnd

def Alike (tgt dm : Fiemap) (tgtOff destOff len : ℕ) : Prop :=
  List.Forall₂ (SameRecord tgtOff destOff len) tgt.fmExtents dm.fmExtents

/-- The index `i` of a walk that has come to `off + pos`: the records before it are behind, the
others end further on. -/
structure WalkedTo (fm : Fiemap) (off i pos : ℕ) : Prop where
  behind : ∀ e ∈ fm.fmExtents.take i, e.feEnd ≤ off + pos
  ahead : ∀ e ∈ fm.fmExtents.drop i, off + pos < e.feEnd

section Walk

variable {fm : Fiemap} {off i pos len : ℕ}

theorem WalkedTo.start (h : fm.Within off len) : fm.WalkedTo off 0 0 := by
  refine ⟨fun e he => by simp at he, fun e he => ?_⟩
  have := h e (List.mem_of_mem_drop he)
  unfold FiemapExtent.Overlaps at this
  omega

theorem drop_eq_cons {e : FiemapExtent} (he : fm.fmExtents[i]? = some e) :
    fm.fmExtents.drop i = e :: fm.fmExtents.drop (i + 1) := by
  obtain ⟨hi, rfl⟩ := List.getElem?_eq_some_iff.mp he
  exact List.drop_eq_getElem_cons hi

theorem le_of_mem_drop {d e : FiemapExtent} (he : fm.fmExtents[i]? = some e)
    (hd : d ∈ fm.fmExtents.drop (i + 1)) : e.feEnd ≤ d.feLogical := by
  have hsorted := fm.sorted.sublist (List.drop_sublist i fm.fmExtents)
  rw [drop_eq_cons he] at hsorted
  exact (List.pairwise_cons.mp hsorted).1 d hd

theorem WalkedTo.hole (h : fm.WalkedTo off i pos) {rest p : ℕ} (hle : pos ≤ p)
    (hlt : p < pos + gapAt fm.fmExtents[i]? (off + pos) rest) : fm.Hole (off + p) := by
  intro d hd hp
  have hstart := hp.1
  have hend := hp.2
  rw [← List.take_append_drop i fm.fmExtents, List.mem_append] at hd
  rcases hd with hd | hd
  · have := h.behind d hd
    omega
  cases he : fm.fmExtents[i]? with
  | none =>
    rw [List.drop_eq_nil_of_le (List.getElem?_eq_none_iff.mp he)] at hd
    cases hd
  | some e =>
    rw [he] at hlt
    simp only [gapAt] at hlt
    have hbefore : p < e.feLogical - off := by
      split_ifs at hlt <;> omega
    rw [drop_eq_cons he] at hd
    rcases List.mem_cons.mp hd with rfl | hd
    · omega
    · have := le_of_mem_drop he hd
      have : e.feLogical ≤ e.feEnd := Nat.le_add_right _ _
      omega

theorem WalkedTo.skip (h : fm.WalkedTo off i pos) (rest : ℕ) :
    fm.WalkedTo off i (pos + gapAt fm.fmExtents[i]? (off + pos) rest) := by
  refine ⟨fun e he => (h.behind e he).trans (by omega), fun d hd => ?_⟩
  have hlt := h.ahead d hd
  cases he : fm.fmExtents[i]? with
  | none =>
    rw [List.drop_eq_nil_of_le (List.getElem?_eq_none_iff.mp he)] at hd
    cases hd
  | some e =>
    have hpos : e.feLogical < e.feEnd := feEnd_pos (List.mem_of_getElem? he)
    have hle : e.feLogical ≤ d.feLogical ∧ e.feEnd ≤ d.feEnd := by
      rw [drop_eq_cons he] at hd
      rcases List.mem_cons.mp hd with rfl | hd
      · exact ⟨le_rfl, le_rfl⟩
      · have := le_of_mem_drop he hd
        have : d.feLogical ≤ d.feEnd := Nat.le_add_right _ _
        omega
    simp only [gapAt]
    split_ifs <;> omega

theorem WalkedTo.next {e : FiemapExtent} (h : fm.WalkedTo off i pos)
    (he : fm.fmExtents[i]? = some e) (hle : pos ≤ len) (hend : e.feEnd = off + len) :
    fm.WalkedTo off (i + 1) len := by
  obtain ⟨hi, rfl⟩ := List.getElem?_eq_some_iff.mp he
  refine ⟨fun d hd => ?_, fun d hd => ?_⟩
  · rw [List.take_succ_eq_append_getElem hi, List.mem_append, List.mem_singleton] at hd
    rcases hd with hd | rfl
    · exact (h.behind d hd).trans (by omega)
    · exact hend.le
  · have := le_of_mem_drop he hd
    have := feEnd_pos (List.mem_of_mem_drop hd)
    omega

end Walk

section Loop

variable {tgt dm : Fiemap} {tgtOff destOff len : ℕ}

/-- The record the index is at, when there is no gap before it. -/
theorem WalkedTo.holds {fm : Fiemap} {off i pos : ℕ} (h : fm.WalkedTo off i pos)
    (hpos : pos < len) (hgap : gapAt fm.fmExtents[i]? (off + pos) (len - pos) = 0) :
    ∃ e, fm.fmExtents[i]? = some e ∧ e.feLogical ≤ off + pos ∧ off + pos < e.feEnd := by
  cases he : fm.fmExtents[i]? with
  | none =>
    rw [he] at hgap
    simp only [gapAt] at hgap
    omega
  | some e =>
    refine ⟨e, rfl, ?_, h.ahead e ?_⟩
    · rw [he] at hgap
      simp only [gapAt] at hgap
      split_ifs at hgap <;> omega
    · rw [drop_eq_cons he]
      exact List.mem_cons_self

theorem Alike.getElem? (h : tgt.Alike dm tgtOff destOff len) (i : ℕ) :
    Option.Rel (SameRecord tgtOff destOff len) tgt.fmExtents[i]? dm.fmExtents[i]? := by
  obtain ⟨hlen, hget⟩ := List.forall₂_iff_get.mp h
  by_cases hi : i < tgt.fmExtents.length
  · rw [List.getElem?_eq_getElem hi, List.getElem?_eq_getElem (hlen ▸ hi)]
    exact .some (hget i hi (hlen ▸ hi))
  · rw [List.getElem?_eq_none (by omega), List.getElem?_eq_none (by omega)]
    exact .none

theorem Alike.gapAt_eq (h : tgt.Alike dm tgtOff destOff len) (i pos rest : ℕ) :
    gapAt tgt.fmExtents[i]? (tgtOff + pos) rest = gapAt dm.fmExtents[i]? (destOff + pos) rest := by
  have hrel := h.getElem? i
  generalize tgt.fmExtents[i]? = ea at hrel
  generalize dm.fmExtents[i]? = eb at hrel
  cases hrel with
  | none => rfl
  | some hsame =>
    have := hsame.start
    simp only [gapAt]
    split_ifs <;> omega

/-- The loop comes to an end, a yes is right about the rest of the range, and two sides that
describe the range alike get it. -/
theorem mapsShareLoop_spec (fuel i pos : ℕ) (htgt : tgt.WalkedTo tgtOff i pos)
    (hdm : dm.WalkedTo destOff i pos) (hfuel : len - pos < fuel) :
    ∃ shared, tgt.mapsShareLoop dm tgtOff destOff len fuel i pos = some (.returns shared) ∧
      (shared = true → ∀ p, pos ≤ p → p < len → SharedAt tgt dm (tgtOff + p) (destOff + p)) ∧
      (tgt.Alike dm tgtOff destOff len → shared = true) := by
  induction fuel generalizing i pos with
  | zero => omega
  | succ fuel ih =>
    rw [mapsShareLoop]
    by_cases hpos : pos < len
    case neg =>
      rw [if_neg hpos]
      exact ⟨true, rfl, fun _ p hle hlt => by omega, fun _ => rfl⟩
    rw [if_pos hpos]
    dsimp only
    by_cases hgap : gapAt tgt.fmExtents[i]? (tgtOff + pos) (len - pos) ≠ 0 ∨
        gapAt dm.fmExtents[i]? (destOff + pos) (len - pos) ≠ 0
    · rw [if_pos hgap]
      by_cases hne : gapAt tgt.fmExtents[i]? (tgtOff + pos) (len - pos) =
          gapAt dm.fmExtents[i]? (destOff + pos) (len - pos)
      case neg =>
        rw [if_pos hne]
        exact ⟨false, rfl, by simp, fun halike => absurd (halike.gapAt_eq i pos _) hne⟩
      rw [if_neg (not_not_intro hne)]
      have hdm' := hdm.skip (len - pos)
      rw [← hne] at hdm'
      obtain ⟨shared, heq, hshared, halike⟩ := ih i _ (htgt.skip _) hdm' (by omega)
      refine ⟨shared, heq, fun hs p hle hlt => ?_, halike⟩
      -- the gap is a hole on both sides
      by_cases hp : p < pos + gapAt tgt.fmExtents[i]? (tgtOff + pos) (len - pos)
      · exact Or.inl ⟨htgt.hole hle hp, hdm.hole hle (hne ▸ hp)⟩
      · exact hshared hs p (by omega) hlt
    · rw [if_neg hgap]
      push Not at hgap
      obtain ⟨ea, hea, hales, halt⟩ := htgt.holds hpos hgap.1
      obtain ⟨eb, heb, hbles, hblt⟩ := hdm.holds hpos hgap.2
      have hsame : tgt.Alike dm tgtOff destOff len → SameRecord tgtOff destOff len ea eb := by
        intro halike
        have hrel := halike.getElem? i
        rw [hea, heb] at hrel
        cases hrel with
        | some h => exact h
      have hend : ea.feEnd = ea.feLogical + ea.feLength ∧ eb.feEnd = eb.feLogical + eb.feLength :=
        ⟨rfl, rfl⟩
      rw [hea, heb]
      dsimp only
      by_cases hphys : (ea.feFlags ||| eb.feFlags) &&& FIEMAP_NO_PHYS = 0
      case neg =>
        rw [if_pos hphys]
        exact ⟨false, rfl, by simp, fun halike =>
          absurd (FiemapExtent.addressable_or.mpr (hsame halike).addressable) hphys⟩
      rw [if_neg (not_not_intro hphys)]
      obtain ⟨haddr, hbddr⟩ := FiemapExtent.addressable_or.mp hphys
      by_cases hdiffer : tgtOff + pos - ea.feLogical ≠ destOff + pos - eb.feLogical ∨
          ea.fePhysical ≠ eb.fePhysical
      · rw [if_pos hdiffer]
        refine ⟨false, rfl, by simp, fun halike => ?_⟩
        have hstart := (hsame halike).start
        exact (hdiffer.resolve_left (by omega) (hsame halike).physical).elim
      rw [if_neg hdiffer]
      push Not at hdiffer
      obtain ⟨hdelta, hpeq⟩ := hdiffer
      rw [if_neg (show ¬ (ea.feLength < tgtOff + pos - ea.feLogical ∨
        eb.feLength < destOff + pos - eb.feLogical) by omega)]
      -- what the shorter record covers is shared
      have hcover : ∀ p, pos ≤ p → tgtOff + p < ea.feEnd → destOff + p < eb.feEnd →
          SharedAt tgt dm (tgtOff + p) (destOff + p) := fun p hle ha hb =>
        Or.inr ⟨ea, List.mem_of_getElem? hea, eb, List.mem_of_getElem? heb, ⟨by omega, ha⟩,
          ⟨by omega, hb⟩, haddr, hbddr, hpeq, by omega⟩
      generalize hra : ea.feLength - (tgtOff + pos - ea.feLogical) = ra
      generalize hrb : eb.feLength - (destOff + pos - eb.feLogical) = rb
      by_cases hshort : ra ≠ rb ∧ pos + (if ra < rb then ra else rb) < len
      · rw [if_pos hshort]
        refine ⟨false, rfl, by simp, fun halike => ?_⟩
        obtain ⟨hne, hlt⟩ := hshort
        have hstart := (hsame halike).start
        rcases (hsame halike).stop with heq | hover
        · omega
        · split_ifs at hlt <;> omega
      rw [if_neg hshort]
      by_cases heq : ra = rb
      · subst heq
        rw [if_neg (lt_irrefl ra)]
        obtain ⟨shared, hloop, hshared, halike⟩ := ih (i + 1) (pos + ra)
          (htgt.next hea (by omega) (by omega)) (hdm.next heb (by omega) (by omega)) (by omega)
        refine ⟨shared, hloop, fun hs p hle hlt => ?_, halike⟩
        by_cases hp : p < pos + ra
        · exact hcover p hle (by omega) (by omega)
        · exact hshared hs p (by omega) hlt
      · -- the range ends inside both records
        have hge : len ≤ pos + (if ra < rb then ra else rb) := by
          by_contra hlt
          exact hshort ⟨heq, by omega⟩
        obtain ⟨fuel, rfl⟩ : ∃ n, fuel = n + 1 := ⟨fuel - 1, by omega⟩
        rw [mapsShareLoop, if_neg (by omega)]
        refine ⟨true, rfl, fun _ p hle hlt => hcover p hle ?_ ?_, fun _ => rfl⟩ <;>
        · split_ifs at hge <;> omega

end Loop

/-- `fiemap_maps_share()` comes to an end on the maps of two ranges, a yes is right about every
position of the range, and two maps that describe the range alike get it. -/
theorem fiemap_maps_share_exact (tgt dm : Fiemap) (tgtOff destOff len : ℕ)
    (htgt : tgt.Within tgtOff len) (hdm : dm.Within destOff len) :
    (∃ shared, fiemapMapsShare (some tgt) tgtOff (some dm) destOff len = some (.returns shared)) ∧
    (fiemapMapsShare (some tgt) tgtOff (some dm) destOff len = some (.returns true) →
      ∀ p < len, tgt.SharedAt dm (tgtOff + p) (destOff + p)) ∧
    (0 < len → tgt.fmExtents ≠ [] → tgt.Alike dm tgtOff destOff len →
      fiemapMapsShare (some tgt) tgtOff (some dm) destOff len = some (.returns true)) := by
  unfold fiemapMapsShare
  dsimp only
  by_cases hnone : len = 0 ∨ tgt.fmExtents.length = 0
  · rw [if_pos hnone]
    refine ⟨⟨false, rfl⟩, by simp, fun hlen hne => ?_⟩
    rcases hnone with hzero | hempty
    · omega
    · exact absurd (List.length_eq_zero_iff.mp hempty) hne
  · rw [if_neg hnone]
    obtain ⟨shared, hloop, hshared, halike⟩ :=
      mapsShareLoop_spec (len + 1) 0 0 (.start htgt) (.start hdm) (Nat.lt_succ_self _)
    rw [hloop]
    refine ⟨⟨shared, rfl⟩, fun heq p hlt => ?_, fun _ _ h => by rw [halike h]⟩
    exact hshared (ShareEnd.returns.inj (Option.some.inj heq)) p (Nat.zero_le p) hlt

end Fiemap

section Example

def splitTarget : Fiemap :=
  ⟨[⟨0, 1048576, 8192, 0⟩, ⟨16384, 4194304, 12288, 0⟩], by simp, by simp [FiemapExtent.feEnd]⟩

def splitDest : Fiemap :=
  ⟨[⟨65536, 1048576, 8192, 0⟩, ⟨81920, 4194304, 8192, 0⟩], by simp, by simp [FiemapExtent.feEnd]⟩

theorem fiemap_maps_share_exact_split :
    fiemapMapsShare (some splitTarget) 4096 (some splitDest) 69632 20480 = some (.returns true) ∧
      ∀ p < 20480, splitTarget.SharedAt splitDest (4096 + p) (69632 + p) := by
  have h := Fiemap.fiemap_maps_share_exact splitTarget splitDest 4096 69632 20480 (by decide)
    (by decide)
  have hyes := h.2.2 (by decide) (by decide) (.cons
    ⟨rfl, rfl, by decide, Or.inl rfl⟩ (.cons ⟨rfl, rfl, by decide, Or.inr (by decide)⟩ .nil))
  exact ⟨hyes, h.2.1 hyes⟩

end Example

end Oans
