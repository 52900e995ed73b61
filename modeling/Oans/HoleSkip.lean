import Oans.Fiemap
import Oans.Stepping

/-!
# What the scan may skip reading

Three helpers of the hash loop decide from the extent map what is not read: a run of blocks that
are holes, an area that only preallocated or inline records reach, and the offset at which a read
must stop so that the buffer never holds a whole hole block. Each follows the source, cursor
included, and is then given its meaning in terms of positions.
-/

namespace Oans

def MIN_BLOCKSIZE : ℕ := 4 * 1024

def MAX_BLOCKSIZE : ℕ := 1024 * 1024

/-- The block sizes that `-b` admits. -/
structure Blocksize where
  bytes : ℕ
  min_le : MIN_BLOCKSIZE ≤ bytes
  le_max : bytes ≤ MAX_BLOCKSIZE
  aligned : MIN_BLOCKSIZE ∣ bytes

instance : Coe Blocksize ℕ := ⟨Blocksize.bytes⟩

def fourKiB : Blocksize := ⟨4096, by decide, by decide, by decide⟩

def eightKiB : Blocksize := ⟨8192, by decide, by decide, by decide⟩

/-- A block size that does not divide the read buffer. -/
def ninetySixKiB : Blocksize := ⟨98304, by decide, by decide, by decide⟩

theorem Blocksize.pos (b : Blocksize) : 0 < b.bytes := by
  have := b.min_le
  unfold MIN_BLOCKSIZE at this
  omega

def floorBlock (b off : ℕ) : ℕ := off / b * b

def ceilBlock (b off : ℕ) : ℕ := (off + b - 1) / b * b

theorem dvd_floorBlock (b off : ℕ) : b ∣ floorBlock b off := Nat.dvd_mul_left _ _

theorem dvd_ceilBlock (b off : ℕ) : b ∣ ceilBlock b off := Nat.dvd_mul_left _ _

theorem floorBlock_le (b off : ℕ) : floorBlock b off ≤ off := Nat.div_mul_le_self _ _

theorem lt_floorBlock_add {b : ℕ} (hb : 0 < b) (off : ℕ) : off < floorBlock b off + b := by
  have := Nat.div_add_mod' off b
  have := Nat.mod_lt off hb
  unfold floorBlock
  omega

theorem le_ceilBlock {b : ℕ} (hb : 0 < b) (off : ℕ) : off ≤ ceilBlock b off := by
  have := lt_floorBlock_add hb (off + b - 1)
  unfold floorBlock at this
  unfold ceilBlock
  omega

theorem ceilBlock_le {b c off : ℕ} (hb : 0 < b) (hc : b ∣ c) (h : off ≤ c) :
    ceilBlock b off ≤ c := by
  obtain ⟨k, rfl⟩ := hc
  have : (off + b - 1) / b ≤ k := by
    rw [Nat.div_le_iff_le_mul_add_pred hb]
    have := Nat.mul_comm b k
    omega
  rw [ceilBlock, Nat.mul_comm b k]
  exact Nat.mul_le_mul_right b this

namespace Fiemap

variable (fm : Fiemap)

def areaIgnoredLoop : ℕ → ℕ → ℕ → ℕ → Bool → Bool
  | 0, _, _, _, skipped => skipped
  | fuel + 1, start, stop, cur, skipped =>
    if start < stop then
      match fm.getExtent start cur with
      | (none, _) => skipped
      | (some e, cur) =>
        -- the rest of the area is a hole
        if stop ≤ e.feLogical then skipped
        else if e.skipped = false then false
        else areaIgnoredLoop fuel e.feEnd stop cur true
    else skipped

/-- `is_area_ignored()`; only the lookup at `start` is written back to the cursor. -/
def isAreaIgnored (start len cursor : ℕ) : Bool × ℕ :=
  (fm.areaIgnoredLoop len start (start + len) cursor false,
    if 0 < len then (fm.getExtent start cursor).2 else cursor)

def isBlockIgnored (b off cursor : ℕ) : Bool × ℕ := fm.isAreaIgnored off b cursor

def blockIsHole (b : ℕ) (e : Option FiemapExtent) (off : ℕ) : Bool :=
  match e with
  | none => true
  | some e => off + b ≤ e.feLogical

def holeRunLength (b filesize off cursor : ℕ) : ℕ × ℕ :=
  match fm.getExtent off cursor with
  | (none, cur) => (filesize - off, cur)
  | (some e, cur) =>
    if blockIsHole b (some e) off then (floorBlock b e.feLogical - off, cur) else (0, cur)

def nextHoleBlockLoop (b filesize : ℕ) : ℕ → ℕ → ℕ → ℕ
  | 0, _, _ => filesize
  | fuel + 1, pos, cur =>
    match fm.getExtent pos cur with
    | (none, _) => pos
    | (some e, cur) =>
      if blockIsHole b (some e) pos then pos
      else
        let pos := ceilBlock b e.feEnd
        if filesize ≤ pos then filesize else nextHoleBlockLoop b filesize fuel pos cur

def nextHoleBlock (b filesize start cursor : ℕ) : ℕ :=
  fm.nextHoleBlockLoop b filesize (filesize - start + 1) start cursor

/-- Nothing in `[a, b)` is backed by a record without skip flags, and some skipped record
reaches into it. -/
def AreaIgnored (a b : ℕ) : Prop :=
  (∀ e ∈ fm.fmExtents, e.Overlaps a b → e.skipped = true) ∧ ∃ e ∈ fm.fmExtents, e.Overlaps a b

instance (a b : ℕ) : Decidable (fm.AreaIgnored a b) :=
  inferInstanceAs (Decidable ((∀ _ ∈ _, _) ∧ ∃ _ ∈ _, _))

def HoleBlock (b off : ℕ) : Prop := blockIsHole b (fm.nextExtent off) off = true

instance (b off : ℕ) : Decidable (fm.HoleBlock b off) := inferInstanceAs (Decidable (_ = true))

/-- How far the hole run at `off` takes the scan; `hole_run_length()` without its cursor. -/
def holeRun (b filesize off : ℕ) : ℕ :=
  match fm.nextExtent off with
  | none => filesize - off
  | some e => if off + b ≤ e.feLogical then floorBlock b e.feLogical - off else 0

/-- No multiple of the block size in `[off, cap)` starts a hole block, and `cap` is where the
next one does, or the end of the file. -/
structure IsReadCap (b filesize off cap : ℕ) : Prop where
  lt : off < cap
  le : cap ≤ filesize
  stop : cap = filesize ∨ b ∣ cap ∧ fm.HoleBlock b cap
  no_hole : ∀ c, off ≤ c → c < cap → b ∣ c → ¬ fm.HoleBlock b c

variable {fm}

theorem overlaps_iff {e : FiemapExtent} {a b : ℕ} :
    e.Overlaps a b ↔ ∃ p, a ≤ p ∧ p < b ∧ e.Holds p := by
  simp only [FiemapExtent.Overlaps, FiemapExtent.Holds]
  constructor
  · intro h
    exact ⟨max a e.feLogical, by omega, by omega, by omega, by omega⟩
  · rintro ⟨p, h₁, h₂, h₃, h₄⟩
    omega

theorem areaIgnoredLoop_eq {stop : ℕ} (fuel start cur : ℕ) (skipped : Bool)
    (hfuel : stop - start ≤ fuel) :
    fm.areaIgnoredLoop fuel start stop cur skipped = true ↔
      (∀ e ∈ fm.fmExtents, e.Overlaps start stop → e.skipped = true) ∧
        (skipped = true ∨ ∃ e ∈ fm.fmExtents, e.Overlaps start stop) := by
  induction fuel generalizing start cur skipped with
  | zero =>
    have hempty : ∀ e : FiemapExtent, ¬ e.Overlaps start stop := by
      intro e ho
      simp only [FiemapExtent.Overlaps] at ho
      omega
    simp [areaIgnoredLoop, hempty]
  | succ fuel ih =>
    by_cases hlt : start < stop
    · rw [areaIgnoredLoop, if_pos hlt]
      have hget := fm.getExtent_fst start cur
      rcases hfound : fm.getExtent start cur with ⟨found, cur'⟩
      rw [hfound] at hget
      cases found with
      | none =>
        have hempty : ∀ e ∈ fm.fmExtents, ¬ e.Overlaps start stop := by
          intro e he ho
          have := nextExtent_eq_none hget.symm e he
          simp only [FiemapExtent.Overlaps] at ho
          omega
        simp only
        constructor
        · exact fun h => ⟨fun e he ho => absurd ho (hempty e he), Or.inl h⟩
        · rintro ⟨-, h | ⟨e, he, ho⟩⟩
          · exact h
          · exact absurd ho (hempty e he)
      | some e =>
        have hnext := hget.symm
        have he := nextExtent_mem hnext
        have hse := nextExtent_lt hnext
        have hpos := feEnd_pos he
        have horder := nextExtent_order hnext
        simp only
        by_cases hfar : stop ≤ e.feLogical
        · have hempty : ∀ d ∈ fm.fmExtents, ¬ d.Overlaps start stop := by
            intro d hd ho
            have := horder d hd
            simp only [FiemapExtent.Overlaps] at ho
            rcases this with h | rfl | h <;> omega
          rw [if_pos hfar]
          constructor
          · exact fun h => ⟨fun e he ho => absurd ho (hempty e he), Or.inl h⟩
          · rintro ⟨-, h | ⟨d, hd, ho⟩⟩
            · exact h
            · exact absurd ho (hempty d hd)
        · have hover : e.Overlaps start stop := by
            simp only [FiemapExtent.Overlaps]
            omega
          rw [if_neg hfar]
          by_cases hskip : e.skipped = false
          · rw [if_pos hskip]
            refine ⟨fun h => absurd h (by simp), fun h => ?_⟩
            have := h.1 e he hover
            rw [hskip] at this
            exact absurd this (by simp)
          · rw [if_neg hskip, ih e.feEnd cur' true (by omega)]
            have hsk : e.skipped = true := by simpa using hskip
            have hrest : ∀ d ∈ fm.fmExtents,
                d.Overlaps start stop ↔ d = e ∨ d.Overlaps e.feEnd stop := by
              intro d hd
              have hdpos := feEnd_pos hd
              have := horder d hd
              constructor
              · intro ho
                simp only [FiemapExtent.Overlaps] at ho ⊢
                rcases this with h | rfl | h
                · omega
                · exact Or.inl rfl
                · exact Or.inr (by omega)
              · rintro (rfl | ho)
                · exact hover
                · simp only [FiemapExtent.Overlaps] at ho ⊢
                  omega
            constructor
            · rintro ⟨hall, -⟩
              refine ⟨fun d hd ho => ?_, Or.inr ⟨e, he, hover⟩⟩
              rcases (hrest d hd).mp ho with rfl | ho
              · exact hsk
              · exact hall d hd ho
            · rintro ⟨hall, -⟩
              exact ⟨fun d hd ho => hall d hd ((hrest d hd).mpr (Or.inr ho)), Or.inl rfl⟩
    · have hempty : ∀ e : FiemapExtent, ¬ e.Overlaps start stop := by
        intro e ho
        simp only [FiemapExtent.Overlaps] at ho
        omega
      rw [areaIgnoredLoop, if_neg hlt]
      simp [hempty]

theorem isAreaIgnored_fst (fm : Fiemap) (start len cursor : ℕ) :
    (fm.isAreaIgnored start len cursor).1 = decide (fm.AreaIgnored start (start + len)) := by
  rw [Bool.eq_iff_iff, decide_eq_true_iff, isAreaIgnored,
    areaIgnoredLoop_eq len start cursor false (by omega)]
  simp [AreaIgnored]

theorem isBlockIgnored_fst (fm : Fiemap) (b off cursor : ℕ) :
    (fm.isBlockIgnored b off cursor).1 = decide (fm.AreaIgnored off (off + b)) :=
  fm.isAreaIgnored_fst off b cursor

theorem holeRunLength_fst (fm : Fiemap) (b filesize off cursor : ℕ) :
    (fm.holeRunLength b filesize off cursor).1 = fm.holeRun b filesize off := by
  have hget := fm.getExtent_fst off cursor
  rcases hfound : fm.getExtent off cursor with ⟨found, cur⟩
  rw [hfound] at hget
  rw [holeRunLength, holeRun, hfound, ← hget]
  cases found with
  | none => rfl
  | some e => by_cases h : off + b ≤ e.feLogical <;> simp [blockIsHole, h]

theorem holeRun_pos_iff (fm : Fiemap) {b filesize off : ℕ} (hb : 0 < b) (hoff : off < filesize) :
    0 < fm.holeRun b filesize off ↔ fm.HoleBlock b off := by
  unfold holeRun HoleBlock blockIsHole
  cases fm.nextExtent off with
  | none =>
    simp only [iff_true]
    omega
  | some e =>
    by_cases h : off + b ≤ e.feLogical
    · have := lt_floorBlock_add hb e.feLogical
      simp only [h, if_true, decide_true, iff_true]
      omega
    · simp [h]

theorem hole_of_holeRun {b filesize off p : ℕ} (hle : off ≤ p)
    (hlt : p < off + fm.holeRun b filesize off) : fm.Hole p := by
  unfold holeRun at hlt
  cases h : fm.nextExtent off with
  | none => exact hole_of_nextExtent_none h hle
  | some e =>
    rw [h] at hlt
    simp only at hlt
    by_cases hfar : off + b ≤ e.feLogical
    · rw [if_pos hfar] at hlt
      have := floorBlock_le b e.feLogical
      exact hole_of_lt_nextExtent h hle (by omega)
    · rw [if_neg hfar] at hlt
      omega

/-- A run that another record ends lands on the block grid. -/
theorem dvd_add_holeRun {b filesize off : ℕ} {e : FiemapExtent} (h : fm.nextExtent off = some e)
    (hpos : 0 < fm.holeRun b filesize off) : b ∣ off + fm.holeRun b filesize off := by
  unfold holeRun at hpos ⊢
  rw [h] at hpos ⊢
  simp only at hpos ⊢
  by_cases hfar : off + b ≤ e.feLogical
  · rw [if_pos hfar] at hpos ⊢
    rw [show off + (floorBlock b e.feLogical - off) = floorBlock b e.feLogical by omega]
    exact dvd_floorBlock b e.feLogical
  · rw [if_neg hfar] at hpos
    omega

/-- Past the block of `off`, no grid block before the end of the next record is a hole. -/
theorem not_holeBlock_of_lt {b off c : ℕ} {e : FiemapExtent} (h : fm.nextExtent off = some e)
    (hle : off ≤ c) (hlt : c < e.feEnd) (hnear : e.feLogical < c + b) : ¬ fm.HoleBlock b c := by
  unfold HoleBlock blockIsHole
  rw [nextExtent_congr h hle hlt]
  simp only [decide_eq_true_eq]
  omega

theorem nextHoleBlockLoop_isReadCap {b filesize : ℕ} (hb : 0 < b) (fuel pos cur start : ℕ)
    (hstart : start ≤ pos) (hpos : pos < filesize) (hfuel : filesize - pos < fuel)
    (hbefore : ∀ c, start ≤ c → c < pos → b ∣ c → ¬ fm.HoleBlock b c)
    (hat : start < pos ∧ b ∣ pos ∨ ¬ fm.HoleBlock b pos) :
    fm.IsReadCap b filesize start (fm.nextHoleBlockLoop b filesize fuel pos cur) := by
  induction fuel generalizing pos cur with
  | zero => omega
  | succ fuel ih =>
    rw [nextHoleBlockLoop]
    have hget := fm.getExtent_fst pos cur
    rcases hfound : fm.getExtent pos cur with ⟨found, cur'⟩
    rw [hfound] at hget
    have hhole : fm.HoleBlock b pos ↔ blockIsHole b found pos = true := by
      rw [HoleBlock, ← hget]
    cases found with
    | none =>
      have h := hhole.mpr rfl
      obtain ⟨hlt, hdvd⟩ := hat.resolve_right (not_not_intro h)
      exact ⟨hlt, hpos.le, Or.inr ⟨hdvd, h⟩, hbefore⟩
    | some e =>
      have hnext := hget.symm
      by_cases h : blockIsHole b (some e) pos = true
      · obtain ⟨hlt, hdvd⟩ := hat.resolve_right (not_not_intro (hhole.mpr h))
        simp only
        rw [if_pos h]
        exact ⟨hlt, hpos.le, Or.inr ⟨hdvd, hhole.mpr h⟩, hbefore⟩
      · have hnear : e.feLogical < pos + b := by
          simpa [blockIsHole] using h
        have hend := nextExtent_lt hnext
        have hce := le_ceilBlock hb e.feEnd
        have hbefore' : ∀ c, start ≤ c → c < ceilBlock b e.feEnd → b ∣ c →
            ¬ fm.HoleBlock b c := by
          intro c hsc hcc hdvd
          by_cases hcp : c < pos
          · exact hbefore c hsc hcp hdvd
          · refine not_holeBlock_of_lt hnext (by omega) ?_ (by omega)
            by_contra hge
            have := ceilBlock_le hb hdvd (show e.feEnd ≤ c by omega)
            omega
        simp only
        rw [if_neg h]
        by_cases hpast : filesize ≤ ceilBlock b e.feEnd
        · rw [if_pos hpast]
          exact ⟨by omega, le_rfl, Or.inl rfl,
            fun c hsc hcf hdvd => hbefore' c hsc (by omega) hdvd⟩
        · rw [if_neg hpast]
          exact ih _ _ (by omega) (by omega) (by omega) hbefore'
            (Or.inl ⟨by omega, dvd_ceilBlock b e.feEnd⟩)

theorem nextHoleBlock_isReadCap {b filesize start : ℕ} (hb : 0 < b) (cursor : ℕ)
    (hlt : start < filesize) (hdata : ¬ fm.HoleBlock b start) :
    fm.IsReadCap b filesize start (fm.nextHoleBlock b filesize start cursor) :=
  nextHoleBlockLoop_isReadCap hb _ start cursor start le_rfl hlt (by omega)
    (fun c h₁ h₂ => by omega) (Or.inr hdata)

theorem IsReadCap.mono {b filesize off off' cap : ℕ} (h : fm.IsReadCap b filesize off cap)
    (hle : off ≤ off') (hlt : off' < cap) : fm.IsReadCap b filesize off' cap :=
  ⟨hlt, h.le, h.stop, fun c hc => h.no_hole c (hle.trans hc)⟩

theorem IsReadCap.unique {b filesize off cap cap' : ℕ} (h : fm.IsReadCap b filesize off cap)
    (h' : fm.IsReadCap b filesize off cap') : cap = cap' := by
  have key : ∀ {c c'}, fm.IsReadCap b filesize off c → fm.IsReadCap b filesize off c' → c' ≤ c := by
    intro c c' hc hc'
    by_contra hlt
    rcases hc.stop with heq | ⟨hdvd, hhole⟩
    · have := hc'.le
      omega
    · exact hc'.no_hole c hc.lt.le (by omega) hdvd hhole
  exact le_antisymm (key h' h) (key h h')

def areaIgnoredTurn (fm : Fiemap) (stop : ℕ) : ℕ × ℕ × Bool → Bool × (ℕ × ℕ × Bool) × Unit
  | (start, cur, skipped) =>
    match fm.getExtent start cur with
    | (none, cur) => (true, (start, cur, skipped), ())
    | (some e, cur) =>
      if stop ≤ e.feLogical then (true, (start, cur, skipped), ())
      else if e.skipped = false then (true, (start, cur, false), ())
      else (false, (e.feEnd, cur, true), ())

def nextHoleBlockTurn (fm : Fiemap) (b filesize : ℕ) : ℕ × ℕ → Bool × (ℕ × ℕ) × Unit
  | (pos, cur) =>
    match fm.getExtent pos cur with
    | (none, cur) => (true, (pos, cur), ())
    | (some e, cur) =>
      if blockIsHole b (some e) pos then (true, (pos, cur), ())
      else if filesize ≤ ceilBlock b e.feEnd then (true, (filesize, cur), ())
      else (false, (ceilBlock b e.feEnd, cur), ())

/-- Each turn of `is_area_ignored()` leads past the record it looked at, so the loop ends. -/
theorem areaIgnoredLoop_evaluates {stop : ℕ} (fuel start cur : ℕ) (skipped : Bool)
    (hfuel : stop - start ≤ fuel) :
    ∃ s turns, Stepping.Evaluates (fun s => s.1 < stop) (fm.areaIgnoredTurn stop)
      (start, cur, skipped) s turns ∧ s.2.2 = fm.areaIgnoredLoop fuel start stop cur skipped := by
  induction fuel generalizing start cur skipped with
  | zero => exact ⟨_, _, .stop (by simp only; omega), rfl⟩
  | succ fuel ih =>
    by_cases hlt : start < stop
    · rw [areaIgnoredLoop, if_pos hlt]
      have hget := fm.getExtent_fst start cur
      rcases hfound : fm.getExtent start cur with ⟨found, cur'⟩
      rw [hfound] at hget
      cases found with
      | none =>
        have hturn : fm.areaIgnoredTurn stop (start, cur, skipped) =
            (true, (start, cur', skipped), ()) := by
          simp only [areaIgnoredTurn, hfound]
        exact ⟨_, _, .last hlt hturn, rfl⟩
      | some e =>
        have hend := nextExtent_lt hget.symm
        simp only
        by_cases hfar : stop ≤ e.feLogical
        · have hturn : fm.areaIgnoredTurn stop (start, cur, skipped) =
              (true, (start, cur', skipped), ()) := by
            simp only [areaIgnoredTurn, hfound, if_pos hfar]
          rw [if_pos hfar]
          exact ⟨_, _, .last hlt hturn, rfl⟩
        · rw [if_neg hfar]
          by_cases hskip : e.skipped = false
          · have hturn : fm.areaIgnoredTurn stop (start, cur, skipped) =
                (true, (start, cur', false), ()) := by
              simp only [areaIgnoredTurn, hfound, if_neg hfar, if_pos hskip]
            rw [if_pos hskip]
            exact ⟨_, _, .last hlt hturn, rfl⟩
          · have hturn : fm.areaIgnoredTurn stop (start, cur, skipped) =
                (false, (e.feEnd, cur', true), ()) := by
              simp only [areaIgnoredTurn, hfound, if_neg hfar, if_neg hskip]
            rw [if_neg hskip]
            obtain ⟨s, turns, hruns, hs⟩ := ih e.feEnd cur' true (by omega)
            exact ⟨s, _, .next hlt hturn hruns, hs⟩
    · rw [areaIgnoredLoop, if_neg hlt]
      exact ⟨_, _, .stop hlt, rfl⟩

theorem nextHoleBlockLoop_evaluates {b filesize : ℕ} (hb : 0 < b) (fuel pos cur : ℕ)
    (hfuel : filesize - pos < fuel) :
    ∃ s turns, Stepping.Evaluates (fun _ => True) (fm.nextHoleBlockTurn b filesize)
      (pos, cur) s turns ∧ s.1 = fm.nextHoleBlockLoop b filesize fuel pos cur := by
  induction fuel generalizing pos cur with
  | zero => omega
  | succ fuel ih =>
    rw [nextHoleBlockLoop]
    have hget := fm.getExtent_fst pos cur
    rcases hfound : fm.getExtent pos cur with ⟨found, cur'⟩
    rw [hfound] at hget
    cases found with
    | none =>
      have hturn : fm.nextHoleBlockTurn b filesize (pos, cur) = (true, (pos, cur'), ()) := by
        simp only [nextHoleBlockTurn, hfound]
      exact ⟨_, _, .last trivial hturn, rfl⟩
    | some e =>
      simp only
      by_cases hhole : blockIsHole b (some e) pos = true
      · have hturn : fm.nextHoleBlockTurn b filesize (pos, cur) = (true, (pos, cur'), ()) := by
          simp only [nextHoleBlockTurn, hfound, if_pos hhole]
        rw [if_pos hhole]
        exact ⟨_, _, .last trivial hturn, rfl⟩
      · rw [if_neg hhole]
        by_cases hpast : filesize ≤ ceilBlock b e.feEnd
        · have hturn : fm.nextHoleBlockTurn b filesize (pos, cur) =
              (true, (filesize, cur'), ()) := by
            simp only [nextHoleBlockTurn, hfound, if_neg hhole, if_pos hpast]
          rw [if_pos hpast]
          exact ⟨_, _, .last trivial hturn, rfl⟩
        · have hturn : fm.nextHoleBlockTurn b filesize (pos, cur) =
              (false, (ceilBlock b e.feEnd, cur'), ()) := by
            simp only [nextHoleBlockTurn, hfound, if_neg hhole, if_neg hpast]
          have hend := nextExtent_lt hget.symm
          have hceil := le_ceilBlock hb e.feEnd
          rw [if_neg hpast]
          obtain ⟨s, turns, hruns, hs⟩ := ih (ceilBlock b e.feEnd) cur' (by omega)
          exact ⟨s, _, .next trivial hturn hruns, hs⟩

theorem holeBlock_iff_forall_hole {b c : ℕ} (hb : 0 < b) :
    fm.HoleBlock b c ↔ ∀ p, c ≤ p → p < c + b → fm.Hole p := by
  unfold HoleBlock blockIsHole
  cases h : fm.nextExtent c with
  | none => exact ⟨fun _ p hp _ => hole_of_nextExtent_none h hp, fun _ => rfl⟩
  | some e =>
    have hend := nextExtent_lt h
    have hpos := feEnd_pos (nextExtent_mem h)
    simp only [decide_eq_true_eq]
    constructor
    · exact fun hfar p hp hlt => hole_of_lt_nextExtent h hp (by omega)
    · intro hhole
      by_contra hnear
      exact hhole (max c e.feLogical) (by omega) (by omega) e (nextExtent_mem h)
        ⟨by omega, by omega⟩

theorem areaIgnored_iff {a b : ℕ} : fm.AreaIgnored a b ↔
    (∀ p, a ≤ p → p < b → ∀ e ∈ fm.fmExtents, e.Holds p → e.skipped = true) ∧
      ∃ p, a ≤ p ∧ p < b ∧ ∃ e ∈ fm.fmExtents, e.Holds p ∧ e.skipped = true := by
  unfold AreaIgnored
  constructor
  · rintro ⟨hall, e, he, hover⟩
    obtain ⟨p, hap, hpb, hp⟩ := overlaps_iff.mp hover
    exact ⟨fun p hap hpb e he hp => hall e he (overlaps_iff.mpr ⟨p, hap, hpb, hp⟩),
      p, hap, hpb, e, he, hp, hall e he hover⟩
  · rintro ⟨hall, p, hap, hpb, e, he, hp, -⟩
    refine ⟨fun e he hover => ?_, e, he, overlaps_iff.mpr ⟨p, hap, hpb, hp⟩⟩
    obtain ⟨p, hap, hpb, hp⟩ := overlaps_iff.mp hover
    exact hall p hap hpb e he hp

def holeBlocksAbove (fm : Fiemap) (b filesize off : ℕ) : Set ℕ :=
  {c | off < c ∧ c < filesize ∧ b ∣ c ∧ ∀ p, c ≤ p → p < c + b → fm.Hole p}

theorem nextHoleBlock_of_le {b filesize start : ℕ} (hb : 0 < b) (cursor : ℕ)
    (hle : filesize ≤ start) (hdata : ¬ fm.HoleBlock b start) :
    fm.nextHoleBlock b filesize start cursor = filesize := by
  rw [nextHoleBlock, nextHoleBlockLoop]
  have hget := fm.getExtent_fst start cursor
  rcases hfound : fm.getExtent start cursor with ⟨found, cur'⟩
  rw [hfound] at hget
  rw [HoleBlock, ← hget] at hdata
  cases found with
  | none => exact absurd rfl hdata
  | some e =>
    have hend := nextExtent_lt hget.symm
    have hceil := le_ceilBlock hb e.feEnd
    simp only
    rw [if_neg hdata, if_pos (by omega)]

/-- `next_hole_block()` finds the first of them, or the end of the file. -/
theorem nextHoleBlock_isLeast {b filesize off : ℕ} (hb : 0 < b) (cursor : ℕ)
    (hdata : ¬ fm.HoleBlock b off) :
    (fm.holeBlocksAbove b filesize off).Nonempty ∧
        IsLeast (fm.holeBlocksAbove b filesize off) (fm.nextHoleBlock b filesize off cursor) ∨
      fm.holeBlocksAbove b filesize off = ∅ ∧
        fm.nextHoleBlock b filesize off cursor = filesize := by
  rcases Nat.lt_or_ge off filesize with hlt | hge
  · have hcap := nextHoleBlock_isReadCap hb cursor hlt hdata
    rcases hcap.stop with hend | ⟨hdvd, hhole⟩
    · refine Or.inr ⟨Set.eq_empty_iff_forall_notMem.mpr fun c hc => ?_, hend⟩
      obtain ⟨habove, hbelow, hc, hholes⟩ := hc
      exact hcap.no_hole c habove.le (by omega) hc ((holeBlock_iff_forall_hole hb).mpr hholes)
    · rcases hcap.le.lt_or_eq with hbelow | hend
      · have hmem : fm.nextHoleBlock b filesize off cursor ∈ fm.holeBlocksAbove b filesize off :=
          ⟨hcap.lt, hbelow, hdvd, (holeBlock_iff_forall_hole hb).mp hhole⟩
        refine Or.inl ⟨⟨_, hmem⟩, hmem, fun c hc => ?_⟩
        obtain ⟨habove, -, hc, hholes⟩ := hc
        by_contra hlt
        exact hcap.no_hole c habove.le (by omega) hc ((holeBlock_iff_forall_hole hb).mpr hholes)
      · refine Or.inr ⟨Set.eq_empty_iff_forall_notMem.mpr fun c hc => ?_, hend⟩
        obtain ⟨habove, hbelow, hc, hholes⟩ := hc
        exact hcap.no_hole c habove.le (by omega) hc ((holeBlock_iff_forall_hole hb).mpr hholes)
  · refine Or.inr ⟨Set.eq_empty_iff_forall_notMem.mpr fun c hc => ?_,
      nextHoleBlock_of_le hb cursor hge hdata⟩
    have := hc.1
    have := hc.2.1
    omega

/-- Both helpers end, whatever the hint, and answer what they are asked: whether the area holds
only skipped records, and where the next hole block starts. -/
theorem skip_helpers_exact (fm : Fiemap) {b : ℕ} (hb : 0 < b) :
    (∀ start len cursor, ∃ s turns,
      Stepping.Evaluates (fun s => s.1 < start + len) (fm.areaIgnoredTurn (start + len))
        (start, cursor, false) s turns ∧
      s.2.2 = (fm.isAreaIgnored start len cursor).1 ∧
      ((fm.isAreaIgnored start len cursor).1 = true ↔
        (∀ p, start ≤ p → p < start + len → ∀ e ∈ fm.fmExtents, e.Holds p → e.skipped = true) ∧
          ∃ p, start ≤ p ∧ p < start + len ∧
            ∃ e ∈ fm.fmExtents, e.Holds p ∧ e.skipped = true)) ∧
    ∀ filesize off cursor, ¬ (∀ p, off ≤ p → p < off + b → fm.Hole p) → ∃ s turns,
      Stepping.Evaluates (fun _ => True) (fm.nextHoleBlockTurn b filesize)
        (off, cursor) s turns ∧
      s.1 = fm.nextHoleBlock b filesize off cursor ∧
      ((fm.holeBlocksAbove b filesize off).Nonempty ∧
          IsLeast (fm.holeBlocksAbove b filesize off) (fm.nextHoleBlock b filesize off cursor) ∨
        fm.holeBlocksAbove b filesize off = ∅ ∧
          fm.nextHoleBlock b filesize off cursor = filesize) := by
  refine ⟨fun start len cursor => ?_, fun filesize off cursor hdata => ?_⟩
  · have hfuel : start + len - start ≤ len := by omega
    obtain ⟨s, turns, hruns, hs⟩ := areaIgnoredLoop_evaluates len start cursor false hfuel
    refine ⟨s, turns, hruns, hs, ?_⟩
    rw [isAreaIgnored_fst, decide_eq_true_iff, areaIgnored_iff]
  · obtain ⟨s, turns, hruns, hs⟩ :=
      nextHoleBlockLoop_evaluates hb (filesize - off + 1) off cursor (Nat.lt_succ_self _)
    exact ⟨s, turns, hruns, hs,
      nextHoleBlock_isLeast hb cursor fun h => hdata ((holeBlock_iff_forall_hole hb).mp h)⟩

/-- One record past a hole, read back with blocks smaller than the hole. -/
theorem skip_helpers_exact_one_record :
    let fm : Fiemap := ⟨[⟨0, 0, 10, 0⟩], by decide, by decide⟩
    ∃ s turns, Stepping.Evaluates (fun _ => True) (fm.nextHoleBlockTurn 4 20) (5, 0) s turns ∧
      s.1 = 12 := by
  intro fm
  have hdata : ¬ ∀ p, 5 ≤ p → p < 5 + 4 → fm.Hole p := fun h =>
    h 5 (by decide) (by decide) ⟨0, 0, 10, 0⟩ (by decide) (by decide)
  obtain ⟨s, turns, hruns, hs, -⟩ := (skip_helpers_exact fm (by decide)).2 20 5 0 hdata
  exact ⟨s, turns, hruns, hs⟩

end Fiemap

end Oans
