import Oans.DupeWork

/-!
# Pushing the groups of a batch

`push_results()` sorts the groups of at least two members by their work, the length times the
members besides the target, and pushes one item each. It takes more than a pebibyte of work for a
corrupt group; a group of sparse files gets there without anything being corrupt.
-/

namespace Oans

open IntervalCut

section Push

variable {δ : Type*}

/-- `dext_work()`, in the widths of its fields. -/
def dextWork64 (g : DupeExtents δ) : ℕ :=
  g.deLen * ((g.deNumDupes % 2 ^ 32 + 2 ^ 32 - 1) % 2 ^ 32) % 2 ^ 64

/-- `qsort()` by `cmp_dext_work()`, in whatever order it leaves groups of equal work. -/
structure WorkSort (δ : Type*) where
  sort : List (DupeExtents δ) → List (DupeExtents δ)
  perm : ∀ l, (sort l).Perm l
  sorted : ∀ l, (sort l).Pairwise fun a b => dextWork64 b ≤ dextWork64 a

def pushItems : List (DupeExtents δ) → Option (List (DupeExtents δ))
  | [] => some []
  | g :: rest => if 2 ^ 50 < dextWork64 g then none else (pushItems rest).map (g :: ·)

def pushResults (qsort : WorkSort δ) (res : ResultsTree δ) : Option (List (DupeExtents δ)) :=
  pushItems (qsort.sort
    ((res.groups.filter fun g => decide (2 ≤ g.deNumDupes % 2 ^ 32)).take res.numDupes))

theorem pushItems_eq_some {l pushed : List (DupeExtents δ)} :
    pushItems l = some pushed ↔ pushed = l ∧ ∀ g ∈ l, dextWork64 g ≤ 2 ^ 50 := by
  induction l generalizing pushed with
  | nil => simp [pushItems, eq_comm]
  | cons g rest ih =>
    rw [pushItems]
    split_ifs with hwork
    · simp only [List.forall_mem_cons, false_iff]
      omega
    · rw [Option.map_eq_some_iff, List.forall_mem_cons]
      constructor
      · rintro ⟨pushed, hpushed, rfl⟩
        obtain ⟨rfl, hrest⟩ := ih.mp hpushed
        exact ⟨rfl, not_lt.mp hwork, hrest⟩
      · rintro ⟨rfl, -, hrest⟩
        exact ⟨rest, ih.mpr ⟨rfl, hrest⟩, rfl⟩

/-- The work of every group is what it should be, the assertion does not fire, and the groups of at
least two members are pushed once each, largest work first. -/
def PushesAll (qsort : WorkSort δ) (res : ResultsTree δ) : Prop :=
  (∀ g ∈ res.groups, 2 ≤ g.deExtents.length →
    dextWork64 g = g.deLen * (g.deExtents.length - 1)) ∧
  ∃ pushed, pushResults qsort res = some pushed ∧
    pushed.Perm (res.groups.filter fun g => decide (2 ≤ g.deExtents.length)) ∧
    pushed.Pairwise fun a b =>
      b.deLen * (b.deExtents.length - 1) ≤ a.deLen * (a.deExtents.length - 1)

def DupeExtents.Plausible (g : DupeExtents δ) : Prop :=
  2 ≤ g.deExtents.length % 2 ^ 32 ∧ (g.deExtents.length < 2 ^ 32 ∨ g.deLen = 0) ∧
    g.deLen * (g.deExtents.length - 1) ≤ 2 ^ 50

/-- The computed work is the work, and the count at least two, exactly for a plausible group, as far
as the assertion lets it pass. -/
theorem dextWork64_eq_iff {g : DupeExtents δ} (hcount : g.deNumDupes = g.deExtents.length)
    (htwo : 2 ≤ g.deExtents.length) :
    (2 ≤ g.deNumDupes % 2 ^ 32 ∧ dextWork64 g = g.deLen * (g.deExtents.length - 1) ∧
      dextWork64 g ≤ 2 ^ 50) ↔ g.Plausible := by
  rw [dextWork64, hcount, DupeExtents.Plausible]
  generalize g.deExtents.length = n at htwo ⊢
  have hpred : ∀ m, 2 ≤ m → m < 2 ^ 32 → (m + 2 ^ 32 - 1) % 2 ^ 32 = m - 1 := fun m _ _ => by omega
  constructor
  · rintro ⟨hfew, hwork, hle⟩
    refine ⟨hfew, ?_, by rwa [← hwork]⟩
    by_contra hno
    push Not at hno
    have hlt : n % 2 ^ 32 < 2 ^ 32 := Nat.mod_lt _ (by norm_num)
    rw [hpred _ hfew hlt] at hwork
    have hless : g.deLen * (n % 2 ^ 32 - 1) < g.deLen * (n - 1) :=
      Nat.mul_lt_mul_of_pos_left (by omega) (Nat.pos_of_ne_zero hno.2)
    have := Nat.mod_le (g.deLen * (n % 2 ^ 32 - 1)) (2 ^ 64)
    omega
  · rintro ⟨hfew, hfit | hzero, hle⟩
    · rw [Nat.mod_eq_of_lt hfit, hpred n htwo hfit]
      exact ⟨htwo, Nat.mod_eq_of_lt (by omega), (Nat.mod_le _ _).trans hle⟩
    · rw [hzero, Nat.zero_mul, Nat.zero_mod, Nat.zero_mul]
      exact ⟨hfew, rfl, Nat.zero_le _⟩

section Loaded

variable [DecidableEq δ]

namespace ResultsTree

def Sized (res : ResultsTree δ) : Prop := res.numDupes = res.groups.length

theorem Sized.insertOneResult {res : ResultsTree δ} (h : res.Sized) (digest : δ) (file : ℤ)
    (startoff len poff : ℕ) : (res.insertOneResult digest file startoff len poff).Sized := by
  have halloc : (res.findAllocDext digest len).Sized := by
    unfold findAllocDext
    split
    · exact h
    · rw [Sized, List.length_append, List.length_singleton, h]
  rw [Sized, ResultsTree.insertOneResult]
  dsimp only
  rw [List.length_map, halloc]

end ResultsTree

inductive Loaded : ResultsTree δ → Prop
  | files (t : FilesTable δ) (recs : List Filerec) (w : Window ℕ) (phaseLo : ℕ) :
      Loaded (loadedTree t recs w phaseLo)
  | extents (x : ExtentsTable δ) (t : FilesTable δ) (recs : List Filerec) (w : Window ℕ) :
      Loaded (extentTree x t recs w)

theorem Loaded.counted {res : ResultsTree δ} (h : Loaded res) : res.Counted := by
  cases h with
  | files t recs w phaseLo => exact loadedTree_counted t recs w phaseLo
  | extents x t recs w =>
    rw [extentTree_eq_insertAll]
    exact ResultsTree.Counted.insertAll (by simp [ResultsTree.Counted, ResultsTree.init]) _

theorem Loaded.sized {res : ResultsTree δ} (h : Loaded res) : res.Sized := by
  cases h with
  | files t recs w phaseLo =>
    have hfold (l : List (LoadedFile δ)) (st : List Filerec × ResultsTree δ) (hst : st.2.Sized) :
        (l.foldl loadSameFile st).2.Sized := by
      induction l generalizing st with
      | nil => exact hst
      | cons y ys ih => exact ih _ (hst.insertOneResult _ _ _ _ _)
    exact hfold _ (recs, .init) rfl
  | extents x t recs w =>
    have hfold (l : List (LoadedExtent δ)) (st : List Filerec × ResultsTree δ) (hst : st.2.Sized) :
        (l.foldl (loadExtent t) st).2.Sized := by
      induction l generalizing st with
      | nil => exact hst
      | cons y ys ih => exact ih _ (hst.insertOneResult _ _ _ _ _)
    exact hfold _ (recs, .init) rfl

/-- The groups of stored rows are pushed as they should be exactly when every group of at least two
members is plausible. -/
theorem push_results_iff (qsort : WorkSort δ) (res : ResultsTree δ) (hres : Loaded res) :
    PushesAll qsort res ↔ ∀ g ∈ res.groups, 2 ≤ g.deExtents.length → g.Plausible := by
  have hcounted := hres.counted
  have hall : pushResults qsort res =
      pushItems (qsort.sort (res.groups.filter fun g => decide (2 ≤ g.deNumDupes % 2 ^ 32))) := by
    rw [pushResults, List.take_of_length_le]
    rw [hres.sized]
    exact List.length_filter_le _ _
  rw [PushesAll, hall]
  constructor
  · rintro ⟨hwork, pushed, hpushed, hperm, -⟩ g hg htwo
    obtain ⟨rfl, hle⟩ := pushItems_eq_some.mp hpushed
    have hin := hperm.mem_iff.mpr (List.mem_filter.mpr ⟨hg, decide_eq_true htwo⟩)
    have hfew := (List.mem_filter.mp ((qsort.perm _).mem_iff.mp hin)).2
    exact (dextWork64_eq_iff (hcounted g hg) htwo).mp
      ⟨of_decide_eq_true hfew, hwork g hg htwo, hle g hin⟩
  · intro hsane
    have hsame : (res.groups.filter fun g => decide (2 ≤ g.deNumDupes % 2 ^ 32)) =
        res.groups.filter fun g => decide (2 ≤ g.deExtents.length) := by
      refine List.filter_congr fun g hg => decide_eq_decide.mpr ⟨fun h => ?_, fun h => ?_⟩
      · have := Nat.mod_le g.deNumDupes (2 ^ 32)
        have := hcounted g hg
        omega
      · exact ((dextWork64_eq_iff (hcounted g hg) h).mpr (hsane g hg h)).1
    rw [hsame]
    have hitem : ∀ g ∈ qsort.sort (res.groups.filter fun g => decide (2 ≤ g.deExtents.length)),
        dextWork64 g = g.deLen * (g.deExtents.length - 1) ∧ dextWork64 g ≤ 2 ^ 50 := by
      intro g hg
      obtain ⟨hmem, htwo⟩ := List.mem_filter.mp ((qsort.perm _).mem_iff.mp hg)
      have htwo := of_decide_eq_true htwo
      exact ((dextWork64_eq_iff (hcounted g hmem) htwo).mpr (hsane g hmem htwo)).2
    refine ⟨fun g hg htwo =>
      ((dextWork64_eq_iff (hcounted g hg) htwo).mpr (hsane g hg htwo)).2.1, _,
      pushItems_eq_some.mpr ⟨rfl, fun g hg => (hitem g hg).2⟩, qsort.perm _, ?_⟩
    refine (qsort.sorted _).imp_of_mem fun ha hb hle => ?_
    rwa [(hitem _ ha).1, (hitem _ hb).1] at hle

end Loaded

end Push

section Example

instance : Std.Total fun a b : DupeExtents ℕ => dextWork64 b ≤ dextWork64 a :=
  ⟨fun a b => Nat.le_total (dextWork64 b) (dextWork64 a)⟩

instance : IsTrans (DupeExtents ℕ) fun a b => dextWork64 b ≤ dextWork64 a :=
  ⟨fun _ _ _ hab hbc => hbc.trans hab⟩

def insertionWorkSort : WorkSort ℕ where
  sort l := l.insertionSort fun a b => dextWork64 b ≤ dextWork64 a
  perm l := List.perm_insertionSort _ l
  sorted l := List.pairwise_insertionSort _ l

def equalPair (size : ℕ) : FilesTable ℕ :=
  ⟨[⟨1, "a", size, 1, some 7, some 0, 1⟩, ⟨2, "b", size, 1, some 7, some 0, 1⟩], by simp⟩

theorem push_results_iff_pair :
    PushesAll insertionWorkSort (loadedTree (equalPair 4096) [] ⟨0, 1⟩ 0) ↔
      ∀ g ∈ (loadedTree (equalPair 4096) [] ⟨0, 1⟩ 0).groups,
        2 ≤ g.deExtents.length → g.Plausible :=
  push_results_iff insertionWorkSort _ (.files (equalPair 4096) [] ⟨0, 1⟩ 0)

/-- Two equal sparse files of two pebibytes abort the phase. -/
theorem sparse_pair_aborts :
    ¬ PushesAll insertionWorkSort (loadedTree (equalPair 2251799813685248) [] ⟨0, 1⟩ 0) := by
  rintro ⟨-, pushed, hpushed, -⟩
  have hgroups : (loadedTree (equalPair 2251799813685248) [] ⟨0, 1⟩ 0).groups = [⟨2,
      2251799813685248, 7, [⟨1, 0, 0, 2251799813685248⟩, ⟨2, 0, 0, 2251799813685248⟩]⟩] := rfl
  have hnum : (loadedTree (equalPair 2251799813685248) [] ⟨0, 1⟩ 0).numDupes = 1 := rfl
  rw [pushResults, hgroups, hnum] at hpushed
  have hle := (pushItems_eq_some.mp hpushed).2 ⟨2, 2251799813685248, 7,
    [⟨1, 0, 0, 2251799813685248⟩, ⟨2, 0, 0, 2251799813685248⟩]⟩
    ((insertionWorkSort.perm _).mem_iff.mpr (by norm_num))
  norm_num [dextWork64] at hle

end Example

end Oans
