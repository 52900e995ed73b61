import Mathlib.Tactic
import Mathlib.Data.List.Sort

/-!
# Sorted arrays

An array is a function from indices to values of which a range of cells is in use. Four operations
on sorted ranges, as C code has them: sorting a range, dropping repeated values in place, merging
a second array in place from the back, and binary search. Each comes with what it does to the set
of values in the range and to its order.
-/

namespace SortedCells

variable {α : Type*} [LinearOrder α]

def Cell (v : ℕ → α) (a b : ℕ) (x : α) : Prop := ∃ i, a ≤ i ∧ i < b ∧ v i = x

def Ordered (v : ℕ → α) (a b : ℕ) : Prop := ∀ i j, a ≤ i → i < j → j < b → v i ≤ v j

def Increasing (v : ℕ → α) (a b : ℕ) : Prop := ∀ i j, a ≤ i → i < j → j < b → v i < v j

def sortCells (v : ℕ → α) (n : ℕ) : ℕ → α := fun i =>
  ((List.range n).map v).mergeSort[i]?.getD (v i)

/-- Drop repeated values: `rest` cells from `i` on are left to look at, `w` cells are kept. -/
def compactLoop : ℕ → (ℕ → α) → ℕ → ℕ → (ℕ → α) × ℕ
  | 0, v, _, w => (v, w)
  | rest + 1, v, i, w =>
    if v i ≠ v (w - 1) then compactLoop rest (Function.update v w (v i)) (i + 1) (w + 1)
    else compactLoop rest v (i + 1) w

def compact (v : ℕ → α) (n : ℕ) : (ℕ → α) × ℕ := compactLoop (n - 1) v 1 1

/-- Merge the first `j` cells of `add` into the first `i` of `v`, from the back. -/
def mergeLoop (add : ℕ → α) : ℕ → (ℕ → α) → ℕ → ℕ → ℕ → ℕ → α
  | 0, v, _, _, _ => v
  | fuel + 1, v, i, j, k =>
    if 0 < j then
      if 0 < i ∧ add (j - 1) < v (i - 1) then
        mergeLoop add fuel (Function.update v (k - 1) (v (i - 1))) (i - 1) j (k - 1)
      else mergeLoop add fuel (Function.update v (k - 1) (add (j - 1))) i (j - 1) (k - 1)
    else v

def mergeCells (v : ℕ → α) (n : ℕ) (add : ℕ → α) (m : ℕ) : ℕ → α :=
  mergeLoop add (n + m) v n m (n + m)

def searchLoop (v : ℕ → α) (key : α) : ℕ → ℕ → ℕ → Bool
  | 0, _, _ => false
  | fuel + 1, l, u =>
    if l < u then
      let idx := (l + u) / 2
      if key < v idx then searchLoop v key fuel l idx
      else if v idx < key then searchLoop v key fuel (idx + 1) u
      else true
    else false

def search (v : ℕ → α) (n : ℕ) (key : α) : Bool := searchLoop v key n 0 n

variable {v : ℕ → α} {a b n : ℕ} {x : α}

omit [LinearOrder α] in
theorem Cell.mono {a' b' : ℕ} (h : Cell v a b x) (ha : a' ≤ a) (hb : b ≤ b') : Cell v a' b' x := by
  obtain ⟨i, hai, hib, hi⟩ := h
  exact ⟨i, by omega, by omega, hi⟩

omit [LinearOrder α] in
theorem cell_congr {u : ℕ → α} (h : ∀ i, a ≤ i → i < b → u i = v i) :
    Cell u a b x ↔ Cell v a b x := by
  constructor
  · rintro ⟨i, ha, hb, rfl⟩
    exact ⟨i, ha, hb, (h i ha hb).symm⟩
  · rintro ⟨i, ha, hb, rfl⟩
    exact ⟨i, ha, hb, h i ha hb⟩

omit [LinearOrder α] in
theorem cell_succ (h : a ≤ b) : Cell v a (b + 1) x ↔ Cell v a b x ∨ v b = x := by
  constructor
  · rintro ⟨i, ha, hb, rfl⟩
    by_cases hi : i = b
    · exact Or.inr (by rw [hi])
    · exact Or.inl ⟨i, ha, by omega, rfl⟩
  · rintro (hcell | rfl)
    · exact hcell.mono le_rfl (by omega)
    · exact ⟨b, h, by omega, rfl⟩

omit [LinearOrder α] in
theorem cell_head (h : a < b) : Cell v a b x ↔ v a = x ∨ Cell v (a + 1) b x := by
  constructor
  · rintro ⟨i, ha, hb, rfl⟩
    by_cases hi : i = a
    · exact Or.inl (by rw [hi])
    · exact Or.inr ⟨i, by omega, hb, rfl⟩
  · rintro (rfl | hcell)
    · exact ⟨a, le_rfl, h, rfl⟩
    · exact hcell.mono (by omega) le_rfl

omit [LinearOrder α] in
theorem not_cell_of_le (h : b ≤ a) : ¬ Cell v a b x := by
  rintro ⟨i, ha, hb, -⟩
  omega

omit [LinearOrder α] in
theorem cell_update_of_le {w : ℕ} {y : α} (h : b ≤ w) :
    Cell (Function.update v w y) a b x ↔ Cell v a b x :=
  cell_congr fun i _ hb => Function.update_of_ne (by omega) y v

omit [LinearOrder α] in
theorem cell_update_of_lt {w : ℕ} {y : α} (h : w < a) :
    Cell (Function.update v w y) a b x ↔ Cell v a b x :=
  cell_congr fun i ha _ => Function.update_of_ne (by omega) y v

theorem Increasing.ordered (h : Increasing v a b) : Ordered v a b := fun i j ha hij hb =>
  (h i j ha hij hb).le

theorem sortCells_spec (v : ℕ → α) (n : ℕ) :
    Ordered (sortCells v n) 0 n ∧ ∀ x, Cell (sortCells v n) 0 n x ↔ Cell v 0 n x := by
  have hlen : ((List.range n).map v).mergeSort.length = n := by simp
  have hget : ∀ i, (hi : i < n) → sortCells v n i = ((List.range n).map v).mergeSort[i] := by
    intro i hi
    rw [sortCells, List.getElem?_eq_getElem (by omega), Option.getD_some]
  constructor
  · intro i j _ hij hj
    rw [hget i (by omega), hget j hj]
    have hsorted := List.pairwise_mergeSort' (· ≤ ·) ((List.range n).map v)
    exact List.pairwise_iff_getElem.mp hsorted i j (by omega) (by omega) hij
  · intro x
    have hmem : x ∈ ((List.range n).map v).mergeSort ↔ x ∈ (List.range n).map v :=
      List.mem_mergeSort
    rw [List.mem_iff_getElem] at hmem
    constructor
    · rintro ⟨i, -, hi, hx⟩
      rw [hget i hi] at hx
      obtain ⟨j, hj, hx⟩ := List.mem_map.mp (hmem.mp ⟨i, by omega, hx⟩)
      exact ⟨j, Nat.zero_le j, List.mem_range.mp hj, hx⟩
    · rintro ⟨j, -, hj, hx⟩
      obtain ⟨i, hi, hx⟩ := hmem.mpr (List.mem_map.mpr ⟨j, List.mem_range.mpr hj, hx⟩)
      exact ⟨i, Nat.zero_le i, by omega, (hget i (by omega)).trans hx⟩

/-- `rest` more cells to look at: what has been kept is increasing, ends with the last value seen,
and together with the rest holds the values there were. -/
theorem compactLoop_spec (rest i w : ℕ) (hw : 0 < w) (hwi : w ≤ i) (hkept : Increasing v 0 w)
    (hrest : Ordered v i (i + rest)) (hlast : ∀ j, i ≤ j → j < i + rest → v (w - 1) ≤ v j) :
    0 < (compactLoop rest v i w).2 ∧ (compactLoop rest v i w).2 ≤ i + rest ∧
      Increasing (compactLoop rest v i w).1 0 (compactLoop rest v i w).2 ∧
      ∀ x, Cell (compactLoop rest v i w).1 0 (compactLoop rest v i w).2 x ↔
        Cell v 0 w x ∨ Cell v i (i + rest) x := by
  induction rest generalizing v i w with
  | zero =>
    refine ⟨hw, hwi, hkept, fun x => ?_⟩
    have := not_cell_of_le (v := v) (x := x) (le_refl i)
    simp [compactLoop, this]
  | succ rest ih =>
    rw [compactLoop]
    have hhead := fun x => cell_head (v := v) (x := x) (show i < i + (rest + 1) by omega)
    rw [show i + (rest + 1) = i + 1 + rest by omega] at hhead hrest hlast
    by_cases hne : v i ≠ v (w - 1)
    · rw [if_pos hne]
      have hlt : v (w - 1) < v i := lt_of_le_of_ne (hlast i le_rfl (by omega)) hne.symm
      have hbelow : ∀ j, j < w → v j < v i := by
        intro j hj
        rcases Nat.lt_or_ge j (w - 1) with hjw | hjw
        · exact (hkept j (w - 1) (Nat.zero_le j) hjw (by omega)).trans hlt
        · rwa [show j = w - 1 by omega]
      have hpush : ∀ j, i + 1 ≤ j → Function.update v w (v i) j = v j := fun j hj =>
        Function.update_of_ne (by omega) _ _
      have hkept' : Increasing (Function.update v w (v i)) 0 (w + 1) := by
        intro j l _ hjl hl
        rw [Function.update_of_ne (show j ≠ w by omega)]
        by_cases hlw : l = w
        · rw [hlw, Function.update_self]
          exact hbelow j (by omega)
        · rw [Function.update_of_ne hlw]
          exact hkept j l (Nat.zero_le j) hjl (by omega)
      have hrest' : Ordered (Function.update v w (v i)) (i + 1) (i + 1 + rest) := by
        intro j l hj hjl hl
        rw [hpush j hj, hpush l (by omega)]
        exact hrest j l (by omega) hjl hl
      have hlast' : ∀ j, i + 1 ≤ j → j < i + 1 + rest →
          Function.update v w (v i) (w + 1 - 1) ≤ Function.update v w (v i) j := by
        intro j hj hjr
        rw [Nat.add_sub_cancel, Function.update_self, hpush j hj]
        exact hrest i j le_rfl (by omega) hjr
      obtain ⟨hpos, hle, hinc, hcells⟩ := ih (i + 1) (w + 1) (Nat.succ_pos w) (by omega) hkept' hrest'
        hlast'
      refine ⟨hpos, by omega, hinc, fun x => ?_⟩
      rw [hcells, cell_succ (Nat.zero_le w), cell_update_of_le le_rfl, cell_update_of_lt (by omega),
        Function.update_self, show i + (rest + 1) = i + 1 + rest by omega, hhead, or_assoc]
    · rw [if_neg hne]
      push Not at hne
      obtain ⟨hpos, hle, hinc, hcells⟩ := ih (i + 1) w hw (by omega) hkept
        (fun j l hj hjl hl => hrest j l (by omega) hjl hl)
        (fun j hj hjr => hlast j (by omega) hjr)
      refine ⟨hpos, by omega, hinc, fun x => ?_⟩
      rw [hcells, show i + (rest + 1) = i + 1 + rest by omega, hhead, ← or_assoc]
      -- the value dropped has been kept before
      have hkeeps : v i = x → Cell v 0 w x := by
        rintro rfl
        exact ⟨w - 1, Nat.zero_le _, by omega, hne.symm⟩
      tauto

theorem compact_spec (hn : 0 < n) (h : Ordered v 0 n) :
    0 < (compact v n).2 ∧ (compact v n).2 ≤ n ∧ Increasing (compact v n).1 0 (compact v n).2 ∧
      ∀ x, Cell (compact v n).1 0 (compact v n).2 x ↔ Cell v 0 n x := by
  obtain ⟨hpos, hle, hinc, hcells⟩ := compactLoop_spec (v := v) (n - 1) 1 1 one_pos le_rfl
    (fun i j _ hij hj => by omega) (fun i j hi hij hj => h i j (by omega) hij (by omega))
    (fun j hj hjn => h 0 j le_rfl (by omega) (by omega))
  refine ⟨hpos, by rw [compact]; omega, hinc, fun x => ?_⟩
  rw [compact, hcells, cell_head hn, show 1 + (n - 1) = n by omega,
    cell_succ (le_refl 0), or_iff_right (not_cell_of_le le_rfl)]

theorem Ordered.append {k top : ℕ} (hk : k ≤ top) (hv : Ordered v 0 k) (hdone : Ordered v k top)
    (hle : ∀ l, k ≤ l → l < top → ∀ p < k, v p ≤ v l) : Ordered v 0 top ∧
      ∀ x, Cell v 0 top x ↔ Cell v 0 k x ∨ Cell v k top x := by
  refine ⟨fun p q _ hpq hq => ?_, fun x => ⟨?_, ?_⟩⟩
  · by_cases hqk : q < k
    · exact hv p q (Nat.zero_le p) hpq hqk
    · by_cases hpk : p < k
      · exact hle q (by omega) hq p hpk
      · exact hdone p q (by omega) hpq hq
  · rintro ⟨p, -, hp, rfl⟩
    by_cases hpk : p < k
    · exact Or.inl ⟨p, Nat.zero_le p, hpk, rfl⟩
    · exact Or.inr ⟨p, by omega, hp, rfl⟩
  · rintro (hcell | hcell)
    · exact hcell.mono le_rfl hk
    · exact hcell.mono (Nat.zero_le k) le_rfl

/-- The part that has been written holds the greatest values of the two arrays, in order. -/
theorem mergeLoop_spec (add : ℕ → α) (fuel i j k top : ℕ) (hfuel : i + j ≤ fuel) (hk : k = i + j)
    (htop : k ≤ top) (hv : Ordered v 0 i) (hadd : Ordered add 0 j) (hdone : Ordered v k top)
    (hle : ∀ l, k ≤ l → l < top → (∀ p < i, v p ≤ v l) ∧ ∀ p < j, add p ≤ v l) :
    Ordered (mergeLoop add fuel v i j k) 0 top ∧
      ∀ x, Cell (mergeLoop add fuel v i j k) 0 top x ↔
        Cell v 0 i x ∨ Cell add 0 j x ∨ Cell v k top x := by
  induction fuel generalizing v i j k with
  | zero =>
    obtain rfl : k = i := by omega
    obtain ⟨hord, hcells⟩ := hv.append htop hdone fun l hl hlt => (hle l hl hlt).1
    refine ⟨hord, fun x => ?_⟩
    rw [mergeLoop, hcells, or_iff_right (a := Cell add 0 j x) (not_cell_of_le (by omega))]
  | succ fuel ih =>
    rw [mergeLoop]
    by_cases hj : 0 < j
    case neg =>
      obtain rfl : k = i := by omega
      obtain ⟨hord, hcells⟩ := hv.append htop hdone fun l hl hlt => (hle l hl hlt).1
      rw [if_neg hj]
      refine ⟨hord, fun x => ?_⟩
      rw [hcells, or_iff_right (a := Cell add 0 j x) (not_cell_of_le (by omega))]
    rw [if_pos hj]
    have hother : ∀ y l, l ≠ k - 1 → Function.update v (k - 1) y l = v l := fun y l hl =>
      Function.update_of_ne hl y v
    have hwritten : ∀ y, (∀ l, k ≤ l → l < top → y ≤ v l) →
        Ordered (Function.update v (k - 1) y) (k - 1) top := by
      intro y hy p q hp hpq hq
      rw [hother y q (by omega)]
      by_cases hpk : p = k - 1
      · rw [hpk, Function.update_self]
        exact hy q (by omega) hq
      · rw [hother y p hpk]
        exact hdone p q (by omega) hpq hq
    have hcell : ∀ y x, Cell (Function.update v (k - 1) y) (k - 1) top x ↔
        y = x ∨ Cell v k top x := by
      intro y x
      rw [cell_head (by omega), Function.update_self, cell_update_of_lt (by omega),
        Nat.sub_add_cancel (by omega)]
    by_cases htake : 0 < i ∧ add (j - 1) < v (i - 1)
    · rw [if_pos htake]
      obtain ⟨hi, hlt⟩ := htake
      have hmax : ∀ p < i, v p ≤ v (i - 1) := by
        intro p hp
        rcases Nat.lt_or_ge p (i - 1) with hpi | hpi
        · exact hv p (i - 1) (Nat.zero_le p) hpi (by omega)
        · rw [show p = i - 1 by omega]
      have hamax : ∀ p < j, add p ≤ v (i - 1) := by
        intro p hp
        rcases Nat.lt_or_ge p (j - 1) with hpj | hpj
        · exact (hadd p (j - 1) (Nat.zero_le p) hpj (by omega)).trans hlt.le
        · rw [show p = j - 1 by omega]
          exact hlt.le
      have hv' : Ordered (Function.update v (k - 1) (v (i - 1))) 0 (i - 1) := by
        intro p q hp hpq hq
        rw [hother _ p (by omega), hother _ q (by omega)]
        exact hv p q hp hpq (by omega)
      have hle' : ∀ l, k - 1 ≤ l → l < top →
          (∀ p < i - 1, Function.update v (k - 1) (v (i - 1)) p ≤
            Function.update v (k - 1) (v (i - 1)) l) ∧
          ∀ p < j, add p ≤ Function.update v (k - 1) (v (i - 1)) l := by
        intro l hl hlt'
        by_cases hlk : l = k - 1
        · rw [hlk, Function.update_self]
          refine ⟨fun p hp => ?_, hamax⟩
          rw [hother _ p (by omega)]
          exact hmax p (by omega)
        · rw [hother _ l hlk]
          obtain ⟨h₁, h₂⟩ := hle l (by omega) hlt'
          refine ⟨fun p hp => ?_, h₂⟩
          rw [hother _ p (by omega)]
          exact h₁ p (by omega)
      obtain ⟨hord, hcells⟩ := ih (i - 1) j (k - 1) (by omega) (by omega) (by omega) hv' hadd
        (hwritten _ fun l hl hlt' => (hle l hl hlt').1 (i - 1) (by omega)) hle'
      refine ⟨hord, fun x => ?_⟩
      rw [hcells, cell_update_of_le (by omega), hcell]
      have hsplit := cell_succ (v := v) (x := x) (Nat.zero_le (i - 1))
      rw [Nat.sub_add_cancel hi] at hsplit
      rw [hsplit]
      tauto
    · rw [if_neg htake]
      have hmax : ∀ p < i, v p ≤ add (j - 1) := by
        intro p hp
        have hlast : v (i - 1) ≤ add (j - 1) := by
          by_contra hlt
          exact htake ⟨by omega, lt_of_not_ge hlt⟩
        rcases Nat.lt_or_ge p (i - 1) with hpi | hpi
        · exact (hv p (i - 1) (Nat.zero_le p) hpi (by omega)).trans hlast
        · rwa [show p = i - 1 by omega]
      have hamax : ∀ p < j, add p ≤ add (j - 1) := by
        intro p hp
        rcases Nat.lt_or_ge p (j - 1) with hpj | hpj
        · exact hadd p (j - 1) (Nat.zero_le p) hpj (by omega)
        · rw [show p = j - 1 by omega]
      have hv' : Ordered (Function.update v (k - 1) (add (j - 1))) 0 i := by
        intro p q hp hpq hq
        rw [hother _ p (by omega), hother _ q (by omega)]
        exact hv p q hp hpq hq
      have hle' : ∀ l, k - 1 ≤ l → l < top →
          (∀ p < i, Function.update v (k - 1) (add (j - 1)) p ≤
            Function.update v (k - 1) (add (j - 1)) l) ∧
          ∀ p < j - 1, add p ≤ Function.update v (k - 1) (add (j - 1)) l := by
        intro l hl hlt'
        by_cases hlk : l = k - 1
        · rw [hlk, Function.update_self]
          refine ⟨fun p hp => ?_, fun p hp => hamax p (by omega)⟩
          rw [hother _ p (by omega)]
          exact hmax p hp
        · rw [hother _ l hlk]
          obtain ⟨h₁, h₂⟩ := hle l (by omega) hlt'
          refine ⟨fun p hp => ?_, fun p hp => h₂ p (by omega)⟩
          rw [hother _ p (by omega)]
          exact h₁ p hp
      obtain ⟨hord, hcells⟩ := ih i (j - 1) (k - 1) (by omega) (by omega) (by omega) hv'
        (fun p q hp hpq hq => hadd p q hp hpq (by omega))
        (hwritten _ fun l hl hlt' => (hle l hl hlt').2 (j - 1) (by omega)) hle'
      refine ⟨hord, fun x => ?_⟩
      rw [hcells, cell_update_of_le (by omega), hcell]
      have hsplit := cell_succ (v := add) (x := x) (Nat.zero_le (j - 1))
      rw [Nat.sub_add_cancel hj] at hsplit
      rw [hsplit]
      tauto

theorem mergeCells_spec {add : ℕ → α} {m : ℕ} (hv : Ordered v 0 n) (hadd : Ordered add 0 m) :
    Ordered (mergeCells v n add m) 0 (n + m) ∧
      ∀ x, Cell (mergeCells v n add m) 0 (n + m) x ↔ Cell v 0 n x ∨ Cell add 0 m x := by
  obtain ⟨hord, hcells⟩ := mergeLoop_spec (v := v) add (n + m) n m (n + m) (n + m) le_rfl rfl le_rfl
    hv hadd (fun i j hi hij hj => by omega) (fun l hl hlt => by omega)
  refine ⟨hord, fun x => ?_⟩
  rw [mergeCells, hcells, or_iff_left (a := Cell add 0 m x) (not_cell_of_le le_rfl)]

theorem searchLoop_iff (key : α) (fuel l u : ℕ) (hfuel : u - l ≤ fuel) (h : Ordered v l u) :
    searchLoop v key fuel l u = true ↔ Cell v l u key := by
  induction fuel generalizing l u with
  | zero =>
    have := not_cell_of_le (v := v) (x := key) (show u ≤ l by omega)
    simp [searchLoop, this]
  | succ fuel ih =>
    rw [searchLoop]
    by_cases hlu : l < u
    case neg =>
      rw [if_neg hlu]
      have := not_cell_of_le (v := v) (x := key) (show u ≤ l by omega)
      simp [this]
    rw [if_pos hlu]
    dsimp only
    have hmid : l ≤ (l + u) / 2 ∧ (l + u) / 2 < u := by omega
    generalize (l + u) / 2 = idx at hmid
    by_cases hbelow : key < v idx
    · rw [if_pos hbelow, ih l idx (by omega) fun i j hi hij hj => h i j hi hij (by omega)]
      refine ⟨fun hcell => hcell.mono le_rfl hmid.2.le, ?_⟩
      rintro ⟨i, hli, hiu, rfl⟩
      refine ⟨i, hli, ?_, rfl⟩
      by_contra hge
      rcases Nat.eq_or_lt_of_le (not_lt.mp hge) with heq | hlt
      · rw [heq] at hbelow
        exact lt_irrefl _ hbelow
      · exact absurd (h idx i hmid.1 hlt hiu) (not_le.mpr hbelow)
    · rw [if_neg hbelow]
      by_cases habove : v idx < key
      · rw [if_pos habove, ih (idx + 1) u (by omega) fun i j hi hij hj => h i j (by omega) hij hj]
        refine ⟨fun hcell => hcell.mono (by omega) le_rfl, ?_⟩
        rintro ⟨i, hli, hiu, rfl⟩
        refine ⟨i, ?_, hiu, rfl⟩
        by_contra hge
        rcases Nat.eq_or_lt_of_le (show i ≤ idx by omega) with heq | hlt
        · rw [heq] at habove
          exact lt_irrefl _ habove
        · exact absurd (h i idx hli hlt hmid.2) (not_le.mpr habove)
      · rw [if_neg habove]
        have heq : v idx = key := le_antisymm (not_lt.mp hbelow) (not_lt.mp habove)
        exact ⟨fun _ => ⟨idx, hmid.1, hmid.2, heq⟩, fun _ => rfl⟩

theorem search_iff (key : α) (h : Ordered v 0 n) : search v n key = true ↔ Cell v 0 n key :=
  searchLoop_iff key n 0 n (by omega) h

end SortedCells
