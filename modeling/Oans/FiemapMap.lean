import Oans.Fiemap

/-!
# Mapping a file completely

FIEMAP fills the slots it is given and stops. `fiemap_map()` takes a map whose slots ran out for
the whole one only if the last record is the file's last, reaches the end of the range, or another
counting call finds nothing behind it; otherwise it tries again with twice the slots. That counting
call answers its own failure with the same 0.
-/

namespace Oans

def UINT64_MAX : ℕ := 2 ^ 64 - 1

/-- The end of `[start, start + length)`, with the sum held to 64 bits. -/
def rangeEnd (start length : ℕ) : ℕ :=
  if UINT64_MAX - start < length then UINT64_MAX else start + length

/-- FIEMAP on a file whose layout does not change. A counting call may say less than there are
records, as it may merge some, but never that there are none. -/
structure FiemapIoctl where
  layout : Fiemap
  counted : ℕ → ℕ → ℕ
  bounded : ∀ e ∈ layout.fmExtents, e.feEnd ≤ UINT64_MAX
  last : ∀ e ∈ layout.fmExtents, e.hasFlags FIEMAP_EXTENT_LAST = true →
    ∀ d ∈ layout.fmExtents, d.feEnd ≤ e.feEnd
  counts : ∀ start length, 0 < counted start length ↔
    ∃ e ∈ layout.fmExtents, e.Overlaps start (rangeEnd start length)

structure MappedExtents where
  fmMappedExtents : ℕ
  fmExtents : List FiemapExtent

structure MapAnswers where
  allocates : ℕ → Bool
  maps : ℕ → Bool
  counts : ℕ → Bool
  /-- the test hook under which every map reads as one the file outran -/
  unstable : Bool

inductive MapResult
  | error
  /-- `errno` is `EAGAIN` -/
  | changed
  | map (fmExtents : List FiemapExtent)

def FIEMAP_MAP_TRIES : ℕ := 4

namespace FiemapIoctl

variable (io : FiemapIoctl)

def records (start length : ℕ) : List FiemapExtent :=
  io.layout.fmExtents.filter fun e => decide (e.Overlaps start (rangeEnd start length))

def fill (start length slots : ℕ) : MappedExtents :=
  if slots = 0 then ⟨io.counted start length, []⟩
  else ⟨((io.records start length).take slots).length, (io.records start length).take slots⟩

def countExtents (start length : ℕ) (succeeds : Bool) : ℕ :=
  if succeeds then io.counted start length else 0

def fiemapMapComplete (fm : MappedExtents) (count start length : ℕ) : Bool :=
  if count < fm.fmMappedExtents then false
  else if fm.fmMappedExtents < count ∨ count = 0 then true
  else
    match fm.fmExtents[count - 1]? with
    | none => true
    | some last =>
      last.hasFlags FIEMAP_EXTENT_LAST || decide (rangeEnd start length ≤ last.feEnd)

def fiemapMapTruncated (fm : MappedExtents) (count start length : ℕ) (succeeds : Bool) : Bool :=
  if fiemapMapComplete fm count start length then false
  else if count < fm.fmMappedExtents then true
  else
    match fm.fmExtents[count - 1]? with
    | none => false
    | some last =>
      decide (0 < io.countExtents last.feEnd (rangeEnd start length - last.feEnd) succeeds)

def fiemapMapLoop (ans : MapAnswers) (start length : ℕ) : ℕ → ℕ → ℕ → MapResult
  | 0, _, _ => .changed
  | tries + 1, attempt, count =>
    if ans.allocates attempt = false then .error
    else if ans.maps attempt = false then .error
    else
      let fm := io.fill start length count
      if io.fiemapMapTruncated fm count start length (ans.counts attempt) = false ∧
          ans.unstable = false then .map fm.fmExtents
      else
        -- with no slots the kernel reported its count instead
        let next := 2 * if count < fm.fmMappedExtents then fm.fmMappedExtents else count
        fiemapMapLoop ans start length tries (attempt + 1) next

/-- `fiemap_map()`; a file has far fewer than 2^31 records, so doubling never wraps. -/
def fiemapMap (ans : MapAnswers) (start length count : ℕ) : MapResult :=
  io.fiemapMapLoop ans start length FIEMAP_MAP_TRIES 0 count

def slotsAt (start length count : ℕ) : ℕ → ℕ
  | 0 => count
  | attempt + 1 =>
    let slots := slotsAt start length count attempt
    2 * if slots = 0 then io.counted start length else slots

def Complete (start length : ℕ) : MapResult → Prop
  | .map fmExtents => ∀ e ∈ io.layout.fmExtents,
      e.Overlaps start (rangeEnd start length) → e ∈ fmExtents
  | _ => True

variable {io} {start length : ℕ}

theorem mem_records {e : FiemapExtent} : e ∈ io.records start length ↔
    e ∈ io.layout.fmExtents ∧ e.Overlaps start (rangeEnd start length) := by
  simp [records]

theorem records_sorted (io : FiemapIoctl) (start length : ℕ) :
    (io.records start length).Pairwise fun d e => d.feEnd ≤ e.feLogical :=
  io.layout.sorted.sublist List.filter_sublist

theorem rangeEnd_le (hstart : start ≤ UINT64_MAX) : rangeEnd start length ≤ UINT64_MAX := by
  unfold rangeEnd
  split_ifs <;> omega

theorem rangeEnd_rest {from' stop : ℕ} (hfrom : from' ≤ UINT64_MAX) (hstop : stop ≤ UINT64_MAX) :
    rangeEnd from' (stop - from') = max from' stop := by
  unfold rangeEnd
  split_ifs <;> omega

theorem counted_pos_iff : 0 < io.counted start length ↔ 0 < (io.records start length).length := by
  rw [io.counts, List.length_pos_iff_exists_mem]
  simp [mem_records]

/-- Records are left behind the last slot where one of them overlaps the rest of the range. -/
theorem counted_rest_pos_iff {slots : ℕ} {last : FiemapExtent}
    (hlast : (io.records start length)[slots]? = some last) :
    0 < io.counted last.feEnd (rangeEnd start length - last.feEnd) ↔
      slots + 1 < (io.records start length).length := by
  obtain ⟨hslots, rfl⟩ := List.getElem?_eq_some_iff.mp hlast
  have hsorted := List.pairwise_iff_getElem.mp (io.records_sorted start length)
  obtain ⟨hmem, hover⟩ := mem_records.mp (List.getElem_mem hslots)
  have hbound := io.bounded _ hmem
  have hstart : start ≤ UINT64_MAX := by
    unfold FiemapExtent.Overlaps at hover
    omega
  rw [io.counts, rangeEnd_rest hbound (rangeEnd_le hstart)]
  generalize hd : (io.records start length)[slots] = d at hmem hover hsorted
  have hpos := Fiemap.feEnd_pos hmem
  unfold FiemapExtent.Overlaps at hover
  constructor
  · rintro ⟨e, he, hrest⟩
    unfold FiemapExtent.Overlaps at hrest
    have hover' : e.Overlaps start (rangeEnd start length) := by
      unfold FiemapExtent.Overlaps
      omega
    have hin : e ∈ io.records start length := mem_records.mpr ⟨he, hover'⟩
    obtain ⟨i, hi, rfl⟩ := List.mem_iff_getElem.mp hin
    -- it ends past the last slot's record, so it is a later one
    by_contra hge
    rcases Nat.lt_or_ge i slots with hlt | hge'
    · have horder := hsorted i slots hi hslots hlt
      rw [hd] at horder
      omega
    · obtain rfl : i = slots := by omega
      rw [hd] at hrest
      omega
  · intro hmore
    have horder := hsorted slots (slots + 1) hslots hmore (Nat.lt_succ_self _)
    rw [hd] at horder
    obtain ⟨he, hover'⟩ := mem_records.mp (List.getElem_mem hmore)
    have hpos' := Fiemap.feEnd_pos he
    refine ⟨_, he, ?_⟩
    unfold FiemapExtent.Overlaps at hover' ⊢
    omega

/-- With slots, a map is found truncated exactly when records are left and the counting call
succeeds. -/
theorem truncated_iff {slots : ℕ} (hslots : 0 < slots) (succeeds : Bool) :
    io.fiemapMapTruncated (io.fill start length slots) slots start length succeeds = true ↔
      slots < (io.records start length).length ∧ succeeds = true := by
  have hfill : io.fill start length slots = ⟨((io.records start length).take slots).length,
      (io.records start length).take slots⟩ := if_neg (by omega)
  rw [hfill]
  by_cases hroom : (io.records start length).length < slots
  · have hcomplete : fiemapMapComplete ⟨((io.records start length).take slots).length,
        (io.records start length).take slots⟩ slots start length = true := by
      have hlen : ((io.records start length).take slots).length < slots := by
        rw [List.length_take]
        omega
      rw [fiemapMapComplete, if_neg (by exact hlen.le.not_gt), if_pos (Or.inl hlen)]
    simp only [fiemapMapTruncated, hcomplete, if_true, Bool.false_eq_true, false_iff]
    omega
  have hlen : ((io.records start length).take slots).length = slots := by
    rw [List.length_take]
    omega
  have hlt : slots - 1 < (io.records start length).length := by omega
  have hget : ((io.records start length).take slots)[slots - 1]? =
      some (io.records start length)[slots - 1] := by
    rw [List.getElem?_take_of_lt (by omega), List.getElem?_eq_getElem hlt]
  have hrest := counted_rest_pos_iff (List.getElem?_eq_getElem hlt)
  obtain ⟨hmem, -⟩ := mem_records.mp (List.getElem_mem hlt)
  rw [show slots - 1 + 1 = slots by omega] at hrest
  have hsorted := List.pairwise_iff_getElem.mp (io.records_sorted start length)
  have hlater : slots < (io.records start length).length → ∃ e, e ∈ io.layout.fmExtents ∧
      e.Overlaps start (rangeEnd start length) ∧
      (io.records start length)[slots - 1].feEnd ≤ e.feLogical := fun hmore =>
    ⟨_, (mem_records.mp (List.getElem_mem hmore)).1, (mem_records.mp (List.getElem_mem hmore)).2,
      hsorted (slots - 1) slots hlt hmore (by omega)⟩
  have hlast := io.last _ hmem
  generalize (io.records start length)[slots - 1] = last at hget hrest hlater hlast hmem
  simp only [fiemapMapTruncated, fiemapMapComplete, hlen, lt_irrefl, if_false, false_or,
    show slots ≠ 0 by omega, hget]
  by_cases hvouched : last.hasFlags FIEMAP_EXTENT_LAST = true ∨ rangeEnd start length ≤ last.feEnd
  · -- the last record of the file, or of the range
    rw [if_pos (by simpa using hvouched)]
    refine ⟨fun h => by simp at h, fun h => ?_⟩
    obtain ⟨e, he, hover, horder⟩ := hlater h.1
    have hpos := Fiemap.feEnd_pos he
    unfold FiemapExtent.Overlaps at hover
    rcases hvouched with hflag | hend
    · have := hlast hflag e he
      omega
    · omega
  · rw [if_neg (by simpa using hvouched)]
    cases succeeds with
    | true => simp [countExtents, hrest]
    | false => simp [countExtents]

/-- Without slots, every record counts as one that is left. -/
theorem truncated_zero_iff (succeeds : Bool) :
    io.fiemapMapTruncated (io.fill start length 0) 0 start length succeeds = true ↔
      0 < (io.records start length).length := by
  rw [← counted_pos_iff]
  by_cases hnone : io.counted start length = 0 <;>
    simp [fiemapMapTruncated, fiemapMapComplete, fill, hnone, Nat.pos_iff_ne_zero]

def nextSlots (io : FiemapIoctl) (start length slots : ℕ) : ℕ :=
  2 * if slots = 0 then io.counted start length else slots

theorem slotsAt_succ (count attempt : ℕ) : io.slotsAt start length count (attempt + 1) =
    io.slotsAt start length (io.nextSlots start length count) attempt := by
  induction attempt with
  | zero => rfl
  | succ attempt ih => rw [slotsAt, ih, slotsAt]

theorem le_slotsAt {count : ℕ} (attempt : ℕ) : count ≤ io.slotsAt start length count attempt := by
  induction attempt with
  | zero => exact Nat.le_refl count
  | succ attempt ih =>
    simp only [slotsAt]
    split_ifs <;> omega

theorem next_eq (slots : ℕ) :
    2 * (if slots < (io.fill start length slots).fmMappedExtents then
      (io.fill start length slots).fmMappedExtents else slots) = io.nextSlots start length slots := by
  unfold fill nextSlots
  by_cases hzero : slots = 0
  · by_cases hnone : io.counted start length = 0 <;> simp [hzero, hnone, Nat.pos_iff_ne_zero]
  · have hlen : ((io.records start length).take slots).length ≤ slots := by
      rw [List.length_take]
      omega
    simp only [if_neg hzero, if_neg hlen.not_gt]

/-- A map that was not found truncated holds every record unless the slots ran out and the
counting call failed. -/
theorem complete_of_not_truncated_iff (slots : ℕ) (succeeds : Bool)
    (hwhole : io.fiemapMapTruncated (io.fill start length slots) slots start length succeeds =
      false) :
    io.Complete start length (.map (io.fill start length slots).fmExtents) ↔
      (0 < slots → (io.records start length).length ≤ slots) := by
  rcases Nat.eq_zero_or_pos slots with rfl | hslots
  · have hnone : ¬ 0 < (io.records start length).length := by
      rw [← truncated_zero_iff succeeds, hwhole]
      exact Bool.false_ne_true
    refine iff_of_true (fun e he hover => ?_) (fun h => absurd h (Nat.lt_irrefl 0))
    exact absurd (List.length_pos_of_mem (mem_records.mpr ⟨he, hover⟩)) hnone
  · have hfill : (io.fill start length slots).fmExtents = (io.records start length).take slots := by
      rw [fill, if_neg (by omega)]
    rw [hfill]
    constructor
    · intro hall _
      by_contra hmore
      push Not at hmore
      obtain ⟨he, hover⟩ := mem_records.mp (List.getElem_mem hmore)
      obtain ⟨i, hi, heq⟩ := List.mem_iff_getElem.mp (hall _ he hover)
      rw [List.length_take] at hi
      rw [List.getElem_take] at heq
      have horder := List.pairwise_iff_getElem.mp (io.records_sorted start length) i slots
        (by omega) hmore (by omega)
      have hpos := Fiemap.feEnd_pos he
      rw [heq] at horder
      omega
    · intro henough e he hover
      rw [List.take_of_length_le (henough hslots)]
      exact mem_records.mpr ⟨he, hover⟩

variable {ans : MapAnswers}

/-- The attempt that ends the calls with a map loses records exactly when its counting call fails
on the tail. -/
theorem fiemapMapLoop_complete_iff (tries attempt count : ℕ) :
    io.Complete start length (io.fiemapMapLoop ans start length tries attempt count) ↔
      ans.unstable = true ∨ ∀ k < tries,
        (∀ j ≤ k, ans.allocates (attempt + j) = true ∧ ans.maps (attempt + j) = true) →
        0 < io.slotsAt start length count k →
        io.slotsAt start length count k < (io.records start length).length →
          ans.counts (attempt + k) = true := by
  induction tries generalizing attempt count with
  | zero => exact iff_of_true trivial (Or.inr fun k hk => absurd hk (Nat.not_lt_zero k))
  | succ tries ih =>
    rw [fiemapMapLoop]
    by_cases halloc : ans.allocates attempt = true
    swap
    · rw [if_pos (by simpa using halloc)]
      exact iff_of_true trivial (Or.inr fun k _ hcalls => absurd (hcalls 0 (Nat.zero_le k)).1 halloc)
    by_cases hmap : ans.maps attempt = true
    swap
    · rw [if_neg (by simp [halloc]), if_pos (by simpa using hmap)]
      exact iff_of_true trivial (Or.inr fun k _ hcalls => absurd (hcalls 0 (Nat.zero_le k)).2 hmap)
    rw [if_neg (by simp [halloc]), if_neg (by simp [hmap])]
    dsimp only
    rw [next_eq]
    cases hunstable : ans.unstable with
    | true =>
      rw [if_neg (by simp)]
      exact iff_of_true ((ih _ _).mpr (Or.inl hunstable)) (Or.inl rfl)
    | false =>
    have ih := ih (attempt + 1) (io.nextSlots start length count)
    simp only [hunstable, Bool.false_eq_true, false_or] at ih ⊢
    cases htrunc : io.fiemapMapTruncated (io.fill start length count) count start length
        (ans.counts attempt) with
    | false =>
      rw [if_pos (by simp), complete_of_not_truncated_iff _ _ htrunc]
      rcases Nat.eq_zero_or_pos count with rfl | hslots
      · have hnone : ¬ 0 < (io.records start length).length := by
          rw [← truncated_zero_iff (ans.counts attempt), htrunc]
          exact Bool.false_ne_true
        exact iff_of_true (fun h => absurd h (Nat.lt_irrefl 0)) fun k _ _ _ hmore => by omega
      have hleft := @truncated_iff io start length _ hslots (ans.counts attempt)
      rw [htrunc] at hleft
      constructor
      · intro henough k _ _ _ hmore
        have hgrow : count ≤ io.slotsAt start length count k := le_slotsAt k
        have := henough hslots
        omega
      · intro hcounts _
        by_contra hmore
        push Not at hmore
        have hcalls : ∀ j ≤ 0, ans.allocates (attempt + j) = true ∧ ans.maps (attempt + j) = true :=
          fun j hj => by rw [Nat.le_zero.mp hj]; exact ⟨halloc, hmap⟩
        exact Bool.false_ne_true
          (hleft.mpr ⟨hmore, hcounts 0 (Nat.succ_pos tries) hcalls hslots hmore⟩)
    | true =>
      rw [if_neg (by simp), ih]
      constructor
      · intro hcounts k hk hcalls hslots hmore
        cases k with
        | zero =>
          exact ((truncated_iff hslots _).mp htrunc).2
        | succ k =>
          rw [slotsAt_succ] at hslots hmore
          have := hcounts k (Nat.lt_of_succ_lt_succ hk)
            (fun j hj => by simpa [Nat.add_assoc, Nat.add_comm 1] using hcalls (j + 1) (by omega))
            hslots hmore
          simpa [Nat.add_assoc, Nat.add_comm 1] using this
      · intro hcounts k hk hcalls hslots hmore
        rw [← slotsAt_succ] at hslots hmore
        have hcalls' : ∀ j ≤ k + 1,
            ans.allocates (attempt + j) = true ∧ ans.maps (attempt + j) = true := by
          intro j hj
          cases j with
          | zero => exact ⟨halloc, hmap⟩
          | succ j => simpa [Nat.add_assoc, Nat.add_comm 1] using hcalls j (by omega)
        have := hcounts (k + 1) (by omega) hcalls' hslots hmore
        simpa [Nat.add_assoc, Nat.add_comm 1] using this

theorem fiemapMapLoop_maps (hstable : ans.unstable = false) (tries attempt count : ℕ)
    (hcalls : ∀ k ≤ tries, ans.allocates (attempt + k) = true ∧ ans.maps (attempt + k) = true)
    (henough : (io.records start length).length ≤ io.slotsAt start length count tries) :
    ∃ fmExtents,
      io.fiemapMapLoop ans start length (tries + 1) attempt count = .map fmExtents := by
  induction tries generalizing attempt count with
  | zero =>
    have hwhole : ¬ io.fiemapMapTruncated (io.fill start length count) count start length
        (ans.counts attempt) = true := by
      rw [slotsAt] at henough
      rcases Nat.eq_zero_or_pos count with rfl | hslots
      · rw [truncated_zero_iff]
        omega
      · rw [truncated_iff hslots]
        omega
    obtain ⟨halloc, hmap⟩ := hcalls 0 le_rfl
    rw [Nat.add_zero] at halloc hmap
    rw [fiemapMapLoop, if_neg (by simp [halloc]), if_neg (by simp [hmap])]
    exact ⟨_, if_pos ⟨by simpa using hwhole, hstable⟩⟩
  | succ tries ih =>
    obtain ⟨halloc, hmap⟩ := hcalls 0 (Nat.zero_le _)
    rw [Nat.add_zero] at halloc hmap
    rw [fiemapMapLoop, if_neg (by simp [halloc]), if_neg (by simp [hmap])]
    dsimp only
    rw [next_eq]
    split_ifs
    · exact ⟨_, rfl⟩
    · rw [slotsAt_succ] at henough
      refine ih (attempt + 1) _ (fun k hk => ?_) henough
      simpa [Nat.add_assoc, Nat.add_comm 1] using hcalls (k + 1) (by omega)

/-- What `fiemap_map()` promises: a map that is returned holds every record, and one is returned
where no call fails and the last attempt has slots enough. -/
def MapsCompletely (io : FiemapIoctl) (ans : MapAnswers) (start length count : ℕ) : Prop :=
  io.Complete start length (io.fiemapMap ans start length count) ∧
  (ans.unstable = false →
    (∀ k < FIEMAP_MAP_TRIES,
      ans.allocates k = true ∧ ans.maps k = true ∧ ans.counts k = true) →
    (io.records start length).length ≤ io.slotsAt start length count (FIEMAP_MAP_TRIES - 1) →
    ∃ fmExtents, io.fiemapMap ans start length count = .map fmExtents)

/-- It keeps to it exactly when no counting call fails on the tail of a map whose slots ran out. -/
theorem fiemap_map_complete_iff (io : FiemapIoctl) (ans : MapAnswers) (start length count : ℕ) :
    io.MapsCompletely ans start length count ↔
      ans.unstable = true ∨ ∀ k < FIEMAP_MAP_TRIES,
        (∀ j ≤ k, ans.allocates j = true ∧ ans.maps j = true) →
        0 < io.slotsAt start length count k →
        io.slotsAt start length count k < (io.records start length).length →
          ans.counts k = true := by
  have hcomplete := @fiemapMapLoop_complete_iff io start length ans FIEMAP_MAP_TRIES 0 count
  simp only [Nat.zero_add] at hcomplete
  rw [← hcomplete, MapsCompletely, fiemapMap, and_iff_left_iff_imp]
  intro _ hstable hcalls henough
  refine fiemapMapLoop_maps hstable (FIEMAP_MAP_TRIES - 1) 0 count (fun k hk => ?_) henough
  rw [Nat.zero_add]
  have hlt : k < FIEMAP_MAP_TRIES := by
    unfold FIEMAP_MAP_TRIES at hk ⊢
    omega
  exact ⟨(hcalls k hlt).1, (hcalls k hlt).2.1⟩

end FiemapIoctl

section Example

def mergedPair : FiemapIoctl where
  layout := ⟨[⟨0, 1048576, 4096, 0⟩, ⟨4096, 1052672, 4096, FIEMAP_EXTENT_LAST⟩], by simp,
    by simp [FiemapExtent.feEnd]⟩
  counted start length := if start < min (rangeEnd start length) 8192 then 1 else 0
  bounded := by decide
  last := by decide
  counts start length := by
    simp only [List.mem_cons, List.not_mem_nil, or_false, exists_eq_or_imp, exists_eq_left,
      FiemapExtent.Overlaps, FiemapExtent.feEnd]
    split_ifs <;> omega

def tailCountFails : MapAnswers := ⟨fun _ => true, fun _ => true, fun _ => false, false⟩

/-- The first record comes back as the whole map. -/
theorem fiemap_map_loses_tail : ¬ mergedPair.MapsCompletely tailCountFails 0 UINT64_MAX 1 := by
  intro h
  have hmap : mergedPair.fiemapMap tailCountFails 0 UINT64_MAX 1 =
      .map [⟨0, 1048576, 4096, 0⟩] := rfl
  have hall := h.1
  rw [hmap] at hall
  exact absurd (hall ⟨4096, 1052672, 4096, FIEMAP_EXTENT_LAST⟩ (by simp [mergedPair]) (by decide))
    (by simp)

end Example

end Oans
