import Oans.DuplicateExtents

/-!
# The upfront estimate of the dedupe work

`dbfile_count_dupe_work` counts, group by group over the rows newer than the phase start, the
bytes the windows of the phase will compare. A member is compared in the window that loads it, and
the target never is.
-/

namespace Oans

open IntervalCut

variable {δ : Type*} [DecidableEq δ]

namespace FilesTable

variable (t : FilesTable δ)

def filesOldMembers (seqLo : ℕ) (k : δ × ℕ) : ℕ :=
  t.rows.countP fun o => decide (o.key = some k) && decide (o.dedupeSeq ≤ seqLo) && o.notInlined

def filesTargetIsNew (seqLo : ℕ) (k : δ × ℕ) : Bool :=
  (t.target k).any fun r => decide (seqLo < r.dedupeSeq)

def countedFiles (window : FileRow δ → Bool) : List (FileRow δ) :=
  t.rows.filter fun f => f.digest.isSome && f.notInlined && window f

/-- The work `w` of one group, NULL when it is no group. -/
def filesWork (old : δ × ℕ → ℕ) (window : FileRow δ → Bool) (seqLo : ℕ) (k : δ × ℕ) : Option ℕ :=
  let c := (t.countedFiles window).countP fun f => decide (f.key = some k)
  let o := old k
  if 0 < o then some (k.2 * (c + if t.filesTargetIsNew seqLo k then o - 1 else 0))
  else if 1 < c then some (k.2 * (c - 1)) else none

def countFilesWork (old : δ × ℕ → ℕ) (window : FileRow δ → Bool) (seqLo : ℕ) : ℕ × ℕ :=
  let w := ((t.countedFiles window).filterMap FileRow.key).dedup.filterMap
    (t.filesWork old window seqLo)
  (w.length, w.sum)

def countFilesWorkSince (seqLo : ℕ) : ℕ × ℕ :=
  t.countFilesWork (t.filesOldMembers seqLo) (fun f => decide (seqLo < f.dedupeSeq)) seqLo

def countFilesWorkAll (seqLo : ℕ) : ℕ × ℕ :=
  t.countFilesWork (fun _ => if 0 < seqLo then 1 else 0) (fun _ => true) seqLo

end FilesTable

namespace ExtentsTable

variable (x : ExtentsTable δ) (t : FilesTable δ)

def extentsOldMember (seqLo : ℕ) (k : δ × ℕ) : Bool := !(x.olderCopies t seqLo k).isEmpty

def countedExtents (window : FileRow δ → Bool) : List (JoinedExtent δ) :=
  (x.eligible t).filter fun j => window j.file

def extentsWork (old : δ × ℕ → Bool) (window : FileRow δ → Bool) (k : δ × ℕ) : Option ℕ :=
  let c := (x.countedExtents t window).countP fun j => decide (j.key = k)
  if old k then some (k.2 * c) else if 1 < c then some (k.2 * (c - 1)) else none

def countExtentsWork (old : δ × ℕ → Bool) (window : FileRow δ → Bool) : ℕ × ℕ :=
  let w := ((x.countedExtents t window).map JoinedExtent.key).dedup.filterMap
    (x.extentsWork t old window)
  (w.length, w.sum)

def countExtentsWorkSince (seqLo : ℕ) : ℕ × ℕ :=
  x.countExtentsWork t (x.extentsOldMember t seqLo) fun f => decide (seqLo < f.dedupeSeq)

def countExtentsWorkAll (seqLo : ℕ) : ℕ × ℕ :=
  x.countExtentsWork t (fun _ => decide (0 < seqLo)) fun _ => true

def dbfileCountDupeWork (seqLo : ℕ) (wholeFileOnly : Bool) : ℕ × ℕ :=
  let f := if seqLo ≠ 0 then t.countFilesWorkSince seqLo else t.countFilesWorkAll seqLo
  let e := if wholeFileOnly then (0, 0)
    else if seqLo ≠ 0 then x.countExtentsWorkSince t seqLo else x.countExtentsWorkAll t seqLo
  (if e.1 < f.1 then f.1 else e.1, f.2 + e.2)

end ExtentsTable

def windowWork (x : ExtentsTable δ) (t : FilesTable δ) (recs recs' : List Filerec) (w : Window ℕ)
    (phaseLo : ℕ) (wholeFileOnly : Bool) : ℕ :=
  ((loadedTree t recs w phaseLo).groups.map dextWork).sum +
    if wholeFileOnly then 0 else ((extentTree x t recs' w).groups.map dextWork).sum

/-- A list led by `a`, if it has a head at all, without that head. -/
theorem length_sub_one_of_head {α : Type*} {l rest : List α} {a : α} (hl : l.Nodup)
    (hrest : rest.Nodup) (hhead : ∀ b ∈ l, l.head? = some a)
    (hmem : ∀ b, b ∈ rest ↔ b ∈ l ∧ b ≠ a) : l.length - 1 = rest.length := by
  cases l with
  | nil =>
    have hnil : rest = [] := List.eq_nil_iff_forall_not_mem.mpr fun b hb =>
      absurd ((hmem b).mp hb).1 List.not_mem_nil
    rw [hnil]
    rfl
  | cons b l =>
    obtain rfl : b = a := Option.some.inj (hhead b List.mem_cons_self)
    obtain ⟨hb, hl⟩ := List.nodup_cons.mp hl
    refine ((List.perm_ext_iff_of_nodup hl hrest).mpr fun c => ?_).length_eq
    rw [hmem, List.mem_cons]
    constructor
    · exact fun hc => ⟨Or.inr hc, fun h => hb (h ▸ hc)⟩
    · exact fun hc => hc.1.resolve_left hc.2

theorem sum_filterMap_getD {κ : Type*} (f : κ → Option ℕ) (l : List κ) :
    (l.filterMap f).sum = (l.map fun k => (f k).getD 0).sum := by
  induction l with
  | nil => rfl
  | cons k ks ih =>
    rw [List.map_cons, List.sum_cons, List.filterMap_cons]
    cases f k with
    | none => rw [ih, Option.getD_none, Nat.zero_add]
    | some n => rw [List.sum_cons, ih, Option.getD_some]

omit [DecidableEq δ] in
theorem sum_windows_work {β : Type*} {a b : ℕ} {ws : List (Window ℕ)} (hcut : IsCut a ws b)
    (members : δ × ℕ → List β) (due : δ × ℕ → β → ℕ) 
    (hdue : ∀ k, ∀ y ∈ members k, a < due k y → due k y ≤ b) (keys : List (δ × ℕ)) :
    (ws.map fun w => (keys.map fun k =>
      k.2 * (members k).countP fun y => decide (w.Contains (due k y))).sum).sum =
      (keys.map fun k => k.2 * (members k).countP fun y => decide (a < due k y)).sum := by
  induction keys with
  | nil => simp
  | cons k ks ih =>
    simp only [List.map_cons, List.sum_cons, List.sum_map_add, List.sum_map_mul_left]
    rw [hcut.sum_countP (members k) (due k) (hdue k), ih]

section Files

variable (t : FilesTable δ)

theorem loadedTree_counted (recs : List Filerec) (w : Window ℕ) (phaseLo : ℕ) :
    (loadedTree t recs w phaseLo).Counted := by
  have hfold (l : List (LoadedFile δ)) (st : List Filerec × ResultsTree δ) (hst : st.2.Counted) :
      (l.foldl loadSameFile st).2.Counted := by
    induction l generalizing st with
    | nil => exact hst
    | cons y ys ih => exact ih _ (hst.insertOneResult _ _ _ _ _)
  exact hfold _ (recs, .init) (by simp [ResultsTree.Counted, ResultsTree.init])

theorem members_nodup (k : δ × ℕ) : (t.members k).Nodup :=
  (List.Nodup.of_map _ t.ids_nodup).filter _

/-- The generation in which the copy `f` of the group `k` is compared, the phase start for the
target itself. -/
def comparedAt (phaseLo : ℕ) (k : δ × ℕ) (f : FileRow δ) : ℕ :=
  match t.target k with
  | none => phaseLo
  | some r => if f = r then phaseLo else dueAt phaseLo r f

theorem length_loadedGroup_sub_one (recs : List Filerec) {w : Window ℕ} {phaseLo : ℕ}
    (hw : phaseLo ≤ w.lo) (k : δ × ℕ) : (loadedGroup t recs w phaseLo k).length - 1 =
      (t.members k).countP fun f => decide (w.Contains (comparedAt t phaseLo k f)) := by
  cases hr : t.target k with
  | none =>
    have hnil : loadedGroup t recs w phaseLo k = [] := by
      refine List.eq_nil_iff_forall_not_mem.mpr fun a ha => ?_
      obtain ⟨r, hr', -⟩ := mem_loadedGroup.mp ha
      rw [hr] at hr'
      cases hr'
    have hnone : t.members k = [] := by
      by_contra hne
      obtain ⟨r, hr'⟩ := t.exists_target (List.length_pos_iff.mpr hne)
      rw [hr] at hr'
      cases hr'
    rw [hnil, hnone]
    rfl
  | some r =>
    have hdue (f : FileRow δ) : w.Contains (comparedAt t phaseLo k f) ↔
        f ≠ r ∧ w.Contains (dueAt phaseLo r f) := by
      simp only [comparedAt, hr]
      split_ifs with hfr
      · exact ⟨fun h => absurd h.1 (not_lt.mpr hw), fun h => absurd hfr h.1⟩
      · exact (and_iff_right hfr).symm
    have hrest : (((t.members k).filter fun f =>
        decide (w.Contains (comparedAt t phaseLo k f))).map FileRow.id).Nodup :=
      ((members_nodup t k).filter _).map_on fun f hf g hg h =>
        t.eq_of_id_eq (t.mem_members.mp (List.mem_of_mem_filter hf)).1
          (t.mem_members.mp (List.mem_of_mem_filter hg)).1 h
    rw [List.countP_eq_length_filter, ← List.length_map FileRow.id]
    refine length_sub_one_of_head (loadedGroup_nodup t recs w phaseLo k) hrest
      (fun a ha => head?_loadedGroup hr ha) fun a => ?_
    simp only [List.mem_map, List.mem_filter, decide_eq_true_eq, hdue]
    constructor
    · rintro ⟨f, ⟨hf, hne, hc⟩, rfl⟩
      exact ⟨(mem_loadedGroup_iff_due hw hr hf hne).mpr hc,
        t.id_ne_of_mem_members hf (t.mem_of_target hr) hne⟩
    · rintro ⟨ha, hne⟩
      obtain ⟨r', -, -, -, f, hf, -, rfl⟩ := mem_loadedGroup.mp ha
      have hfr : f ≠ r := fun h => hne (h ▸ rfl)
      exact ⟨f, ⟨hf, hfr, (mem_loadedGroup_iff_due hw hr hf hfr).mp ha⟩, rfl⟩

theorem countP_countedFiles (window : FileRow δ → Bool) (k : δ × ℕ) :
    (t.countedFiles window).countP (fun f => decide (f.key = some k)) =
      (t.members k).countP window := by
  rw [FilesTable.countedFiles, FilesTable.members, List.countP_filter, List.countP_filter]
  refine List.countP_congr fun f _ => ?_
  by_cases hkey : f.key = some k
  · obtain ⟨d, hd, -⟩ := Option.map_eq_some_iff.mp hkey
    simp [hkey, hd, and_comm]
  · simp [hkey]

theorem filesOldMembers_eq (seqLo : ℕ) (k : δ × ℕ) :
    t.filesOldMembers seqLo k = (t.members k).countP fun f => !decide (seqLo < f.dedupeSeq) := by
  rw [FilesTable.filesOldMembers, FilesTable.members, List.countP_filter]
  refine List.countP_congr fun f _ => ?_
  simp only [Bool.and_eq_true, decide_eq_true_eq, Bool.not_eq_true', decide_eq_false_iff_not, not_lt]
  tauto

/-- The estimate of one group: its members compared after the phase start. -/
theorem filesWork_since (seqLo : ℕ) (k : δ × ℕ) :
    (t.filesWork (t.filesOldMembers seqLo) (fun f => decide (seqLo < f.dedupeSeq)) seqLo k).getD 0 =
      k.2 * (t.members k).countP fun f => decide (seqLo < comparedAt t seqLo k f) := by
  have hsplit : (t.members k).length = (t.members k).countP (fun f => decide (seqLo < f.dedupeSeq)) +
      (t.members k).countP fun f => !decide (seqLo < f.dedupeSeq) :=
    (List.length_eq_countP_add_countP _).trans
      (congrArg _ (List.countP_congr fun f _ => by simp))
  unfold FilesTable.filesWork
  simp only [countP_countedFiles, filesOldMembers_eq]
  cases hr : t.target k with
  | none =>
    have hnone : t.members k = [] := by
      by_contra hne
      obtain ⟨r, hr'⟩ := t.exists_target (List.length_pos_iff.mpr hne)
      rw [hr] at hr'
      cases hr'
    simp [hnone]
  | some r =>
    have hmem := t.mem_of_target hr
    by_cases hnew : seqLo < r.dedupeSeq
    · -- a new target takes every other member
      have hcount : (t.members k).countP (fun f => decide (seqLo < comparedAt t seqLo k f)) =
          (t.members k).length - 1 := by
        have hself : (t.members k).countP (fun f => decide (f = r)) = 1 :=
          List.count_eq_one_of_mem (members_nodup t k) hmem
        have hrest : (t.members k).length = (t.members k).countP (fun f => decide (f = r)) + _ :=
          List.length_eq_countP_add_countP _
        rw [hself] at hrest
        rw [hrest, Nat.add_sub_cancel_left]
        refine List.countP_congr fun f _ => ?_
        simp only [comparedAt, hr, dueAt, decide_eq_true_eq]
        split_ifs <;> simp_all
      have htarget : t.filesTargetIsNew seqLo k = true := by
        simp [FilesTable.filesTargetIsNew, hr, hnew]
      have hpos : 0 < (t.members k).countP fun f => decide (seqLo < f.dedupeSeq) :=
        List.countP_pos_iff.mpr ⟨r, hmem, by simpa using hnew⟩
      rw [hcount, htarget, if_pos rfl]
      split_ifs with ho hc
      · rw [Option.getD_some]
        congr 1
        omega
      · rw [Option.getD_some]
        congr 1
        omega
      · rw [Option.getD_none, show (t.members k).length - 1 = 0 by omega, mul_zero]
    · -- an old target takes the new members
      have hcount : (t.members k).countP (fun f => decide (seqLo < comparedAt t seqLo k f)) =
          (t.members k).countP fun f => decide (seqLo < f.dedupeSeq) := by
        refine List.countP_congr fun f _ => ?_
        simp only [comparedAt, hr, dueAt, decide_eq_true_eq]
        split_ifs with hfr hf
        · simp [hfr, hnew]
        · simp [hf]
        · simp [hf, hnew]
      have htarget : t.filesTargetIsNew seqLo k = false := by
        simp [FilesTable.filesTargetIsNew, hr, hnew]
      have hpos : 0 < (t.members k).countP fun f => !decide (seqLo < f.dedupeSeq) :=
        List.countP_pos_iff.mpr ⟨r, hmem, by simpa using hnew⟩
      rw [hcount, htarget, if_pos hpos, Option.getD_some, if_neg (by simp), Nat.add_zero]

/-- Without old rows the query need not ask for them. -/
theorem countFilesWorkAll_eq (hgen : ∀ f ∈ t.rows, 1 ≤ f.dedupeSeq) :
    t.countFilesWorkAll 0 = t.countFilesWorkSince 0 := by
  have hwindow : t.countedFiles (fun _ => true) =
      t.countedFiles fun f => decide (0 < f.dedupeSeq) := by
    refine List.filter_congr fun f hf => ?_
    simp [Nat.lt_of_succ_le (hgen f hf)]
  have hold : t.filesOldMembers 0 = fun _ => 0 := by
    funext k
    refine List.countP_eq_zero.mpr fun f hf => ?_
    simp [Nat.ne_of_gt (hgen f hf)]
  have hwork : t.filesWork (fun _ => 0) (fun _ => true) 0 =
      t.filesWork (fun _ => 0) (fun f => decide (0 < f.dedupeSeq)) 0 := by
    funext k
    simp only [FilesTable.filesWork, hwindow]
  simp only [FilesTable.countFilesWorkAll, FilesTable.countFilesWorkSince,
    FilesTable.countFilesWork, hwindow, hold, hwork, lt_irrefl, if_false]

def fileKeys : List (δ × ℕ) := (t.rows.filterMap FileRow.key).dedup

theorem mem_fileKeys {k : δ × ℕ} {f : FileRow δ} (hf : f ∈ t.members k) : k ∈ fileKeys t := by
  obtain ⟨hrow, -, hkey⟩ := t.mem_members.mp hf
  exact List.mem_dedup.mpr (List.mem_filterMap.mpr ⟨f, hrow, hkey⟩)

theorem sum_countFilesWork (seqLo : ℕ) : (t.countFilesWorkSince seqLo).2 =
    ((fileKeys t).map fun k => k.2 * (t.members k).countP fun f =>
      decide (seqLo < comparedAt t seqLo k f)).sum := by
  simp only [FilesTable.countFilesWorkSince, FilesTable.countFilesWork, sum_filterMap_getD,
    filesWork_since]
  refine ResultsTree.sum_map_of_subset (List.nodup_dedup _) (List.nodup_dedup _) ?_ ?_
  · intro k hk
    obtain ⟨f, hf, hkey⟩ := List.mem_filterMap.mp (List.mem_dedup.mp hk)
    exact List.mem_dedup.mpr (List.mem_filterMap.mpr ⟨f, List.mem_of_mem_filter hf, hkey⟩)
  · intro k _ hk
    -- a group without new rows has an old target
    have hold : ∀ f ∈ t.members k, ¬ seqLo < f.dedupeSeq := by
      intro f hf hnew
      obtain ⟨hrow, hinl, hkey⟩ := t.mem_members.mp hf
      obtain ⟨d, hd, -⟩ := Option.map_eq_some_iff.mp hkey
      refine hk (List.mem_dedup.mpr (List.mem_filterMap.mpr ⟨f, ?_, hkey⟩))
      simp [FilesTable.countedFiles, List.mem_filter, hrow, hinl, hd, hnew]
    have hzero : (t.members k).countP (fun f => decide (seqLo < comparedAt t seqLo k f)) = 0 := by
      refine List.countP_eq_zero.mpr fun f hf => ?_
      cases hr : t.target k with
      | none => simp [comparedAt, hr]
      | some r =>
        have hrold := hold r (t.mem_of_target hr)
        have hfold := hold f hf
        simp only [comparedAt, hr, dueAt]
        split_ifs <;> simp [hrold]
    rw [hzero, mul_zero]

theorem comparedAt_le {phaseLo : ℕ} {k : δ × ℕ} {f : FileRow δ} (hf : f ∈ t.members k)
    (hlate : phaseLo < comparedAt t phaseLo k f) :
    comparedAt t phaseLo k f ≤ t.getMaxDedupeSeq := by
  have hmax := t.dedupeSeq_le_max (t.mem_members.mp hf).1
  unfold comparedAt at hlate ⊢
  split at hlate
  · exact absurd hlate (lt_irrefl _)
  next r hr =>
    have hrmax := t.dedupeSeq_le_max (t.mem_members.mp (t.mem_of_target hr)).1
    unfold dueAt at hlate ⊢
    split_ifs at hlate ⊢ <;> omega

theorem sum_loadedTree_work (recs : Window ℕ → List Filerec) {seqLo : ℕ} {ws : List (Window ℕ)}
    (hcut : IsCut seqLo ws t.getMaxDedupeSeq) :
    (ws.map fun w => ((loadedTree t (recs w) w seqLo).groups.map dextWork).sum).sum =
      (t.countFilesWorkSince seqLo).2 := by
  have hwindow : ∀ w ∈ ws, ((loadedTree t (recs w) w seqLo).groups.map dextWork).sum =
      ((fileKeys t).map fun k => k.2 * (t.members k).countP fun f =>
        decide (w.Contains (comparedAt t seqLo k f))).sum := by
    intro w hw
    have hkeys : ∀ g ∈ (loadedTree t (recs w) w seqLo).groups,
        (g.deHash, g.deLen) ∈ fileKeys t := by
      intro g hg
      obtain ⟨e, he⟩ := List.exists_mem_of_ne_nil _ (nonempty_of_mem_loadedTree hg)
      rw [← ResultsTree.members_of_mem hg] at he
      have hload : e.eFile ∈ loadedGroup t (recs w) w seqLo (g.deHash, g.deLen) :=
        List.mem_map_of_mem he
      obtain ⟨r, hr, -⟩ := mem_loadedGroup.mp hload
      exact mem_fileKeys t (t.mem_of_target hr)
    rw [ResultsTree.sum_dextWork (loadedTree_counted t _ _ _) (List.nodup_dedup _) hkeys]
    refine congrArg List.sum (List.map_congr_left fun k _ => ?_)
    rw [← length_loadedGroup_sub_one t (recs w) (hcut.lo_ge w hw) k, loadedGroup, List.length_map]
  rw [List.map_congr_left hwindow, sum_countFilesWork]
  exact sum_windows_work hcut t.members (comparedAt t seqLo) (fun k f hf => comparedAt_le t hf) _

end Files

section Extents

open ExtentsTable

variable (x : ExtentsTable δ) (t : FilesTable δ)

theorem extentTree_eq_insertAll (recs : List Filerec) (w : Window ℕ) : extentTree x t recs w =
    ResultsTree.init.insertAll
      ((x.getDuplicateExtents t w.lo w.hi).map fun y => (y.digest, y.extent)) :=
  foldl_loadExtent_snd t _ _

/-- The generation in which the extent `j` of the group `k` is compared, the phase start for the
first extent. -/
def extentComparedAt (phaseLo : ℕ) (k : δ × ℕ) (j : JoinedExtent δ) : ℕ :=
  if x.IsFirst t k j then phaseLo else j.file.dedupeSeq

theorem length_loadedExtents_sub_one (hgen : ∀ f ∈ t.rows, 1 ≤ f.dedupeSeq)
    (recs : List Filerec) {w : Window ℕ} {phaseLo : ℕ} (hw : phaseLo ≤ w.lo) (k : δ × ℕ) :
    (loadedExtents x t recs w k).length - 1 =
      (x.group t k).countP fun j => decide (w.Contains (extentComparedAt x t phaseLo k j)) := by
  by_cases hnil : x.group t k = []
  · have hnone : loadedExtents x t recs w k = [] := by
      refine List.eq_nil_iff_forall_not_mem.mpr fun e he => ?_
      obtain ⟨j, hj, rfl, -⟩ := mem_loadedExtents.mp he
      obtain ⟨j', hj', hkey⟩ := (mem_grp.mp (mem_loadedJoined.mp hj).1).1
      have hgroup := (mem_newExtents.mp hj').1
      rw [hkey, hnil] at hgroup
      exact absurd hgroup List.not_mem_nil
    rw [hnone, hnil]
    rfl
  obtain ⟨m, hm⟩ := exists_first hnil
  have hdue {j : JoinedExtent δ} (hj : j ∈ x.group t k) :
      w.Contains (extentComparedAt x t phaseLo k j) ↔ j ≠ m ∧ w.Contains j.file.dedupeSeq := by
    unfold extentComparedAt
    split_ifs with hfirst
    · obtain rfl : j = m := hm.eq_of_before hj (hfirst.2 m hm.1)
      exact ⟨fun h => absurd h.1 (not_lt.mpr hw), fun h => absurd rfl h.1⟩
    · exact (and_iff_right fun h : j = m => hfirst (h ▸ hm)).symm
  have hrest : (((x.group t k).filter fun j =>
      decide (w.Contains (extentComparedAt x t phaseLo k j))).map JoinedExtent.toExtent).Nodup :=
    ((group_nodup x t k).filter _).map_on fun j hj j' hj' h =>
      toExtent_inj (mem_group.mp (List.mem_of_mem_filter hj)).1
        (mem_group.mp (List.mem_of_mem_filter hj')).1 h
  rw [List.countP_eq_length_filter, ← List.length_map JoinedExtent.toExtent]
  refine length_sub_one_of_head (loadedExtents_nodup x t recs w k) hrest (a := m.toExtent)
    (fun e he => ?_) fun e => ?_
  · have hgrp := ((mem_loadedExtents_iff hgen hm).mp he).1
    exact head?_loadedExtents hgen hm (first_mem_loadedExtents hgen hm hgrp)
  · simp only [List.mem_map, List.mem_filter, decide_eq_true_eq]
    rw [mem_loadedExtents_iff hgen hm]
    constructor
    · rintro ⟨j, ⟨hj, hc⟩, rfl⟩
      obtain ⟨hne, hc⟩ := (hdue hj).mp hc
      refine ⟨⟨(mem_grp_iff hgen hm).mpr ⟨j, hj, hc, hne⟩, j, hj, rfl, Or.inl hc⟩, fun h => hne ?_⟩
      exact toExtent_inj (mem_group.mp hj).1 (mem_group.mp hm.1).1 h
    · rintro ⟨⟨-, j, hj, rfl, hsel⟩, hne⟩
      have hjm : j ≠ m := fun h => hne (h ▸ rfl)
      exact ⟨j, ⟨hj, (hdue hj).mpr ⟨hjm, hsel.resolve_right fun h => hjm h.1⟩⟩, rfl⟩

theorem countP_countedExtents (window : FileRow δ → Bool) (k : δ × ℕ) :
    (x.countedExtents t window).countP (fun j => decide (j.key = k)) =
      (x.group t k).countP fun j => window j.file := by
  rw [countedExtents, group, List.countP_filter, List.countP_filter]
  exact List.countP_congr fun j _ => by simp [and_comm]

theorem extentsWork_since (seqLo : ℕ) (k : δ × ℕ) :
    (x.extentsWork t (x.extentsOldMember t seqLo) (fun f => decide (seqLo < f.dedupeSeq)) k).getD 0 =
      k.2 * (x.group t k).countP fun j => decide (seqLo < extentComparedAt x t seqLo k j) := by
  unfold extentsWork
  simp only [countP_countedExtents]
  by_cases hnil : x.group t k = []
  · simp only [hnil, List.countP_nil, mul_zero]
    split_ifs <;> simp
  obtain ⟨m, hm⟩ := exists_first hnil
  have hold : x.extentsOldMember t seqLo k = true ↔ m.file.dedupeSeq ≤ seqLo := by
    simp only [extentsOldMember, Bool.not_eq_true', List.isEmpty_eq_false_iff_exists_mem,
      olderCopies, List.mem_filter, decide_eq_true_eq]
    constructor
    · rintro ⟨j, hj, hle⟩
      have hbefore := hm.2 j hj
      unfold JoinedExtent.Before at hbefore
      omega
    · exact fun hle => ⟨m, hm.1, hle⟩
  have hself : (x.group t k).countP (fun j => decide (j = m)) = 1 :=
    List.count_eq_one_of_mem (group_nodup x t k) hm.1
  have hlate {j : JoinedExtent δ} (hj : j ∈ x.group t k) :
      seqLo < extentComparedAt x t seqLo k j ↔ j ≠ m ∧ seqLo < j.file.dedupeSeq := by
    unfold extentComparedAt
    split_ifs with hfirst
    · obtain rfl : j = m := hm.eq_of_before hj (hfirst.2 m hm.1)
      simp
    · exact (and_iff_right fun h : j = m => hfirst (h ▸ hm)).symm
  by_cases hle : m.file.dedupeSeq ≤ seqLo
  · have hcount : (x.group t k).countP (fun j => decide (seqLo < extentComparedAt x t seqLo k j)) =
        (x.group t k).countP fun j => decide (seqLo < j.file.dedupeSeq) := by
      refine List.countP_congr fun j hj => ?_
      simp only [decide_eq_true_eq, hlate hj]
      exact and_iff_right_of_imp fun h hjm => absurd (hjm ▸ h) (not_lt.mpr hle)
    rw [if_pos (hold.mpr hle), Option.getD_some, hcount]
  · -- every extent of the group is new, and the first one is the target
    have hnew : ∀ j ∈ x.group t k, seqLo < j.file.dedupeSeq := by
      intro j hj
      have hbefore := hm.2 j hj
      unfold JoinedExtent.Before at hbefore
      omega
    have hall : (x.group t k).countP (fun j => decide (seqLo < j.file.dedupeSeq)) =
        (x.group t k).length := List.countP_eq_length.mpr fun j hj => by simpa using hnew j hj
    have hcount : (x.group t k).countP (fun j => decide (seqLo < extentComparedAt x t seqLo k j)) =
        (x.group t k).length - 1 := by
      have hrest : (x.group t k).length = (x.group t k).countP (fun j => decide (j = m)) + _ :=
        List.length_eq_countP_add_countP _
      rw [hrest, hself, Nat.add_sub_cancel_left]
      refine List.countP_congr fun j hj => ?_
      simp [hlate hj, hnew j hj]
    rw [if_neg (by rwa [hold]), hcount, hall]
    split_ifs with hc
    · rw [Option.getD_some]
    · rw [Option.getD_none, Nat.sub_eq_zero_of_le (not_lt.mp hc), mul_zero]

theorem countExtentsWorkAll_eq (hgen : ∀ f ∈ t.rows, 1 ≤ f.dedupeSeq) :
    x.countExtentsWorkAll t 0 = x.countExtentsWorkSince t 0 := by
  have hfile : ∀ j ∈ x.eligible t, 0 < j.file.dedupeSeq := fun j hj =>
    hgen _ (mem_joined.mp (List.mem_of_mem_filter hj)).2.1
  have hwindow : x.countedExtents t (fun _ => true) =
      x.countedExtents t fun f => decide (0 < f.dedupeSeq) :=
    List.filter_congr fun j hj => by simp [hfile j hj]
  have hold : x.extentsOldMember t 0 = fun _ => false := by
    funext k
    have hnone : x.olderCopies t 0 k = [] := by
      refine List.filter_eq_nil_iff.mpr fun j hj => ?_
      simp [Nat.ne_of_gt (hfile j (List.mem_of_mem_filter hj))]
    simp [extentsOldMember, hnone]
  have hwork : x.extentsWork t (fun _ => false) (fun _ => true) =
      x.extentsWork t (fun _ => false) fun f => decide (0 < f.dedupeSeq) := by
    funext k
    simp only [extentsWork, hwindow]
  simp only [countExtentsWorkAll, countExtentsWorkSince, countExtentsWork, hwindow, hold, hwork,
    lt_irrefl, decide_false]

def extentKeys : List (δ × ℕ) := ((x.eligible t).map JoinedExtent.key).dedup

theorem sum_countExtentsWork (seqLo : ℕ) : (x.countExtentsWorkSince t seqLo).2 =
    ((extentKeys x t).map fun k => k.2 * (x.group t k).countP fun j =>
      decide (seqLo < extentComparedAt x t seqLo k j)).sum := by
  simp only [countExtentsWorkSince, countExtentsWork, sum_filterMap_getD, extentsWork_since]
  refine ResultsTree.sum_map_of_subset (List.nodup_dedup _) (List.nodup_dedup _) ?_ ?_
  · intro k hk
    obtain ⟨j, hj, hkey⟩ := List.mem_map.mp (List.mem_dedup.mp hk)
    exact List.mem_dedup.mpr (List.mem_map.mpr ⟨j, List.mem_of_mem_filter hj, hkey⟩)
  · intro k _ hk
    have hzero : (x.group t k).countP
        (fun j => decide (seqLo < extentComparedAt x t seqLo k j)) = 0 := by
      refine List.countP_eq_zero.mpr fun j hj hlate => hk ?_
      obtain ⟨hj, hkey⟩ := List.mem_filter.mp hj
      have hnew : seqLo < j.file.dedupeSeq := by
        unfold extentComparedAt at hlate
        split_ifs at hlate
        · simp at hlate
        · simpa using hlate
      refine List.mem_dedup.mpr (List.mem_map.mpr ⟨j, List.mem_filter.mpr ⟨hj, ?_⟩, ?_⟩)
      · simpa using hnew
      · simpa using hkey
    rw [hzero, mul_zero]

theorem sum_extentTree_work (hgen : ∀ f ∈ t.rows, 1 ≤ f.dedupeSeq)
    (recs : Window ℕ → List Filerec) {seqLo : ℕ} {ws : List (Window ℕ)}
    (hcut : IsCut seqLo ws t.getMaxDedupeSeq) :
    (ws.map fun w => ((extentTree x t (recs w) w).groups.map dextWork).sum).sum =
      (x.countExtentsWorkSince t seqLo).2 := by
  have hwindow : ∀ w ∈ ws, ((extentTree x t (recs w) w).groups.map dextWork).sum =
      ((extentKeys x t).map fun k => k.2 * (x.group t k).countP fun j =>
        decide (w.Contains (extentComparedAt x t seqLo k j))).sum := by
    intro w hw
    have hcounted : (extentTree x t (recs w) w).Counted := by
      rw [extentTree_eq_insertAll]
      exact ResultsTree.Counted.insertAll (by simp [ResultsTree.Counted, ResultsTree.init]) _
    have hkeys : ∀ g ∈ (extentTree x t (recs w) w).groups,
        (g.deHash, g.deLen) ∈ extentKeys x t := by
      intro g hg
      have hempty : (extentTree x t (recs w) w).NoEmptyGroup := by
        rw [extentTree_eq_insertAll]
        exact ResultsTree.NoEmptyGroup.insertAll
          (by simp [ResultsTree.NoEmptyGroup, ResultsTree.init]) _
      obtain ⟨e, he⟩ := List.exists_mem_of_ne_nil _ (hempty g hg)
      rw [← ResultsTree.members_of_mem hg] at he
      have hload : e ∈ loadedExtents x t (recs w) w (g.deHash, g.deLen) := he
      obtain ⟨j, hj, hkey, -⟩ := mem_loadedExtents.mp hload
      obtain ⟨j', hj', hkey'⟩ := (mem_grp.mp (mem_loadedJoined.mp hj).1).1
      exact List.mem_dedup.mpr
        (List.mem_map.mpr ⟨j', List.mem_of_mem_filter hj', hkey'.trans hkey⟩)
    rw [ResultsTree.sum_dextWork hcounted (List.nodup_dedup _) hkeys]
    refine congrArg List.sum (List.map_congr_left fun k _ => ?_)
    rw [← length_loadedExtents_sub_one x t hgen (recs w) (hcut.lo_ge w hw) k, loadedExtents]
  rw [List.map_congr_left hwindow, sum_countExtentsWork]
  refine sum_windows_work hcut (x.group t) (extentComparedAt x t seqLo) (fun k j hj hlate => ?_) _
  unfold extentComparedAt at hlate ⊢
  split_ifs at hlate ⊢
  · exact absurd hlate (lt_irrefl _)
  · exact t.dedupeSeq_le_max (mem_joined.mp (mem_group.mp hj).1).2.1

end Extents

/-- The bytes of the upfront estimate are the work of the groups the windows load, however the
generations are cut into windows. -/
theorem count_dupe_work_eq (x : ExtentsTable δ) (t : FilesTable δ)
    (recs recs' : Window ℕ → List Filerec) (seqLo : ℕ) (ws : List (Window ℕ)) (wholeFileOnly : Bool)
    (hgen : ∀ f ∈ t.rows, 1 ≤ f.dedupeSeq) (hcut : IsCut seqLo ws t.getMaxDedupeSeq) :
    (x.dbfileCountDupeWork t seqLo wholeFileOnly).2 =
      (ws.map fun w => windowWork x t (recs w) (recs' w) w seqLo wholeFileOnly).sum := by
  have hfiles : (if seqLo ≠ 0 then t.countFilesWorkSince seqLo else t.countFilesWorkAll seqLo) =
      t.countFilesWorkSince seqLo := by
    split_ifs with h
    · rfl
    · rw [not_not.mp h, countFilesWorkAll_eq t hgen]
  have hextents : (if seqLo ≠ 0 then x.countExtentsWorkSince t seqLo
      else x.countExtentsWorkAll t seqLo) = x.countExtentsWorkSince t seqLo := by
    split_ifs with h
    · rfl
    · rw [not_not.mp h, countExtentsWorkAll_eq x t hgen]
  simp only [ExtentsTable.dbfileCountDupeWork, windowWork, hfiles, hextents, List.sum_map_add]
  rw [sum_loadedTree_work t recs hcut]
  cases wholeFileOnly with
  | true => simp
  | false => simp [← sum_extentTree_work x t hgen recs' hcut]

/-- Two windows each compare one copy of the shared extent against the first one. -/
theorem count_dupe_work_eq_threeFiles :
    (sharedExtents.dbfileCountDupeWork threeFiles 0 false).2 = 20 ∧
      ([⟨0, 2⟩, ⟨2, 3⟩] : List (Window ℕ)).map
        (fun w => windowWork sharedExtents threeFiles [] [] w 0 false) = [10, 10] ∧
      (sharedExtents.dbfileCountDupeWork threeFiles 0 false).2 =
        (([⟨0, 2⟩, ⟨2, 3⟩] : List (Window ℕ)).map
          fun w => windowWork sharedExtents threeFiles [] [] w 0 false).sum :=
  ⟨by decide, by decide, count_dupe_work_eq sharedExtents threeFiles (fun _ => []) (fun _ => []) 0
    [⟨0, 2⟩, ⟨2, 3⟩] false (by decide) (by decide)⟩

end Oans
