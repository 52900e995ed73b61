import Oans.FilesTable

/-!
# What the windows of one dedupe phase load

`stream_duplicates` cuts the generations above the phase start into windows and loads each with
`GET_DUPLICATE_FILES`. Over all windows together every new member of a group is loaded once, next
to the group's elected target, and old members are reloaded only by a window that holds a new
target.
-/

namespace Oans

open IntervalCut

/-- The windows of `stream_duplicates`: `i` advances by `stride` in 32-bit arithmetic. -/
def streamWindows (max stride : ℕ) : ℕ → ℕ → List (Window ℕ)
  | 0, _ => []
  | fuel + 1, i =>
    if i < max then
      let next := (i + stride) % 2 ^ 32
      ⟨i, if next < max then next else max⟩ :: streamWindows max stride fuel next
    else []

/-- Where the generation counter does not wrap, the loop cuts `(firstSeq, max]`. -/
theorem isCut_streamWindows {max stride : ℕ} (hstride : 0 < stride) (hwrap : max + stride ≤ 2 ^ 32)
    (fuel firstSeq : ℕ) (hfuel : max - firstSeq ≤ fuel) :
    IsCut firstSeq (streamWindows max stride fuel firstSeq) max := by
  induction fuel generalizing firstSeq with
  | zero => exact Nat.sub_eq_zero_iff_le.mp (Nat.le_zero.mp hfuel)
  | succ fuel ih =>
    unfold streamWindows
    split
    next hlt =>
      have hnext : (firstSeq + stride) % 2 ^ 32 = firstSeq + stride := Nat.mod_eq_of_lt (by omega)
      rw [hnext]
      refine ⟨rfl, ?_, ?_, ?_⟩
      · dsimp only
        split <;> omega
      · dsimp only
        split <;> omega
      · dsimp only
        split
        · exact ih _ (by omega)
        next hge =>
          -- the last window ends at `max`; the loop then finds nothing above it
          cases fuel with
          | zero => exact le_refl max
          | succ fuel =>
            unfold streamWindows
            rw [if_neg hge]
            exact le_refl max
    next hge => exact not_lt.mp hge

namespace FilesTable

variable {δ : Type*} (t : FilesTable δ)

theorem eq_of_id_eq {f g : FileRow δ} (hf : f ∈ t.rows) (hg : g ∈ t.rows) (h : f.id = g.id) :
    f = g := List.inj_on_of_nodup_map t.ids_nodup hf hg h

theorem dedupeSeq_le_max {f : FileRow δ} (hf : f ∈ t.rows) :
    f.dedupeSeq ≤ t.getMaxDedupeSeq := by
  obtain ⟨rows, hnodup⟩ := t
  simp only [getMaxDedupeSeq] at hf ⊢
  clear hnodup
  induction rows with
  | nil => simp at hf
  | cons x xs ih =>
    rw [List.map_cons, List.foldr_cons]
    rcases List.mem_cons.mp hf with rfl | hf
    · exact le_max_left _ _
    · exact (ih hf).trans (le_max_right _ _)

variable [DecidableEq δ]

theorem mem_members {k : δ × ℕ} {f : FileRow δ} :
    f ∈ t.members k ↔ f ∈ t.rows ∧ f.notInlined = true ∧ f.key = some k := by
  simp [members, List.mem_filter]

theorem id_ne_of_mem_members {k : δ × ℕ} {f g : FileRow δ} (hf : f ∈ t.members k)
    (hg : g ∈ t.members k) (hne : f ≠ g) : f.id ≠ g.id := fun h =>
  hne (t.eq_of_id_eq (t.mem_members.mp hf).1 (t.mem_members.mp hg).1 h)

theorem one_lt_length_members {k : δ × ℕ} {f g : FileRow δ} (hf : f ∈ t.members k)
    (hg : g ∈ t.members k) (hne : f ≠ g) : 1 < (t.members k).length := by
  by_contra! hlen
  obtain ⟨x, hx⟩ := List.length_eq_one_iff.mp (le_antisymm hlen (List.length_pos_of_mem hf))
  rw [hx, List.mem_singleton] at hf hg
  exact hne (hf.trans hg.symm)

theorem mem_of_target {k : δ × ℕ} {r : FileRow δ} (h : t.target k = some r) : r ∈ t.members k :=
  (List.mem_insertionSort _).mp (List.mem_of_mem_head? h)

theorem target_rankLe {k : δ × ℕ} {r f : FileRow δ} (h : t.target k = some r)
    (hf : f ∈ t.members k) : r.RankLe f := by
  have hsorted := List.pairwise_insertionSort FileRow.RankLe (t.members k)
  have hmem := (List.mem_insertionSort FileRow.RankLe).mpr hf
  unfold target at h
  cases hl : (t.members k).insertionSort FileRow.RankLe with
  | nil => simp [hl] at hmem
  | cons x xs =>
    obtain rfl : x = r := by simpa [hl] using h
    rw [hl] at hsorted hmem
    rcases List.mem_cons.mp hmem with rfl | hmem
    · exact (Std.Total.total (r := FileRow.RankLe) f f).elim id id
    · exact List.rel_of_pairwise_cons hsorted hmem

/-- The purpose of the election: the target ranks first over *all* members of its group. -/
def IsElected (k : δ × ℕ) (r : FileRow δ) : Prop :=
  r ∈ t.members k ∧ ∀ m ∈ t.members k, r.RankLe m

instance (k : δ × ℕ) (r : FileRow δ) : Decidable (t.IsElected k r) :=
  inferInstanceAs (Decidable (_ ∧ _))

theorem exists_target {k : δ × ℕ} (h : 0 < (t.members k).length) : ∃ r, t.target k = some r := by
  unfold target
  cases hl : (t.members k).insertionSort FileRow.RankLe with
  | nil =>
    have hlen := List.length_insertionSort FileRow.RankLe (t.members k)
    rw [hl, List.length_nil] at hlen
    omega
  | cons x xs => exact ⟨x, rfl⟩

/-- The row numbered 1 is the elected one, and ids leave no ties. -/
theorem target_eq_some_iff {k : δ × ℕ} {r : FileRow δ} :
    t.target k = some r ↔ t.IsElected k r := by
  constructor
  · exact fun h => ⟨t.mem_of_target h, fun m hm => t.target_rankLe h hm⟩
  · rintro ⟨hr, hle⟩
    obtain ⟨r', hr'⟩ := t.exists_target (List.length_pos_of_mem hr)
    have hid : r'.id = r.id := by
      have h₁ := t.target_rankLe hr' hr
      have h₂ := hle r' (t.mem_of_target hr')
      unfold FileRow.RankLe at h₁ h₂
      omega
    rw [hr', t.eq_of_id_eq (t.mem_members.mp (t.mem_of_target hr')).1 (t.mem_members.mp hr).1 hid]

theorem mem_grp {lo hi : ℕ} {k : δ × ℕ} :
    k ∈ t.grp lo hi ↔ (∃ f ∈ t.members k, f.inWindow lo hi = true) ∧ 1 < (t.members k).length := by
  unfold grp
  rw [List.mem_filter, List.mem_dedup, List.mem_filterMap, decide_eq_true_eq]
  refine and_congr_left fun _ => ⟨?_, ?_⟩
  · rintro ⟨f, hf, hkey⟩
    rw [List.mem_filter, Bool.and_eq_true] at hf
    exact ⟨f, t.mem_members.mpr ⟨hf.1, hf.2.2, hkey⟩, hf.2.1⟩
  · rintro ⟨f, hf, hwin⟩
    obtain ⟨hrow, hinl, hkey⟩ := t.mem_members.mp hf
    exact ⟨f, List.mem_filter.mpr ⟨hrow, by rw [hwin, hinl]; rfl⟩, hkey⟩

/-- `tgt` keeps the group of a target in the window only if another member loads with it. -/
theorem exists_other_of_keepsTarget {lo hi phaseLo : ℕ} {k : δ × ℕ} {r : FileRow δ}
    (h : t.keepsTarget lo hi phaseLo k r = true) (hwin : r.inWindow lo hi = true) :
    ∃ m ∈ t.members k, m.id ≠ r.id ∧ (m.dedupeSeq ≤ phaseLo ∨ m.inWindow lo hi = true) := by
  rw [FileRow.inWindow, decide_eq_true_eq] at hwin
  have hlo : ¬ r.dedupeSeq ≤ lo := not_le.mpr hwin.1
  have hhi : ¬ hi < r.dedupeSeq := not_lt.mpr hwin.2
  simpa [keepsTarget, hlo, hhi] using h

theorem keepsTarget_of_other {lo hi phaseLo : ℕ} {k : δ × ℕ} {r m : FileRow δ}
    (hm : m ∈ t.members k) (hne : m.id ≠ r.id)
    (hload : m.dedupeSeq ≤ phaseLo ∨ m.inWindow lo hi = true) :
    t.keepsTarget lo hi phaseLo k r = true := by
  simp only [keepsTarget, Bool.or_eq_true, List.any_eq_true, Bool.and_eq_true, decide_eq_true_eq]
  exact Or.inr ⟨m, hm, hne, hload⟩

theorem mem_tgt {lo hi phaseLo : ℕ} {x : TgtRow δ} :
    x ∈ t.tgt lo hi phaseLo ↔ x.key ∈ t.grp lo hi ∧ ∃ r, t.target x.key = some r ∧
      t.keepsTarget lo hi phaseLo x.key r = true ∧ x.fileid = r.id ∧ x.seq = r.dedupeSeq := by
  unfold tgt
  rw [List.mem_filterMap]
  constructor
  · rintro ⟨k, hk, hx⟩
    obtain ⟨r, hr, hx⟩ := Option.bind_eq_some_iff.mp hx
    split at hx
    · next hkeep =>
      obtain rfl := Option.some.inj hx
      exact ⟨hk, r, hr, hkeep, rfl, rfl⟩
    · cases hx
  · rintro ⟨hk, r, hr, hkeep, hid, hseq⟩
    refine ⟨x.key, hk, ?_⟩
    rw [hr, Option.bind_some, if_pos hkeep, ← hid, ← hseq]

theorem tgt_keys_nodup (lo hi phaseLo : ℕ) : ((t.tgt lo hi phaseLo).map TgtRow.key).Nodup := by
  have hsub : ((t.tgt lo hi phaseLo).map TgtRow.key).Sublist (t.grp lo hi) := by
    unfold tgt
    induction t.grp lo hi with
    | nil => simp
    | cons k ks ih =>
      rw [List.filterMap_cons]
      split
      · exact ih.cons k
      · next x hx =>
        obtain ⟨r, -, hx⟩ := Option.bind_eq_some_iff.mp hx
        split at hx
        · obtain rfl := Option.some.inj hx
          exact ih.cons_cons k
        · cases hx
  exact hsub.nodup ((List.nodup_dedup _).filter _)

theorem mem_getDuplicateFiles {lo hi phaseLo : ℕ} {y : LoadedFile δ} :
    y ∈ t.getDuplicateFiles lo hi phaseLo ↔ ∃ f ∈ t.rows, ∃ x ∈ t.tgt lo hi phaseLo,
      f.key = some x.key ∧ selects lo hi phaseLo f x = true ∧
        y = ⟨f.id, f.size, x.key.1, f.filename, f.dedupeSeq, decide (f.id = x.fileid)⟩ := by
  unfold getDuplicateFiles
  rw [List.mem_insertionSort, List.mem_flatMap]
  refine exists_congr fun f => and_congr_right fun _ => ?_
  rw [List.mem_filterMap]
  refine exists_congr fun x => and_congr_right fun _ => ?_
  unfold joinedRow
  split
  · next h => simp [h, eq_comm]
  · next h => simp only [reduceCtorEq, false_iff]; exact fun hy => h ⟨hy.1, hy.2.1⟩

theorem id_eq_of_joinedRow {lo hi phaseLo : ℕ} {f : FileRow δ} {x : TgtRow δ}
    {y : LoadedFile δ} (h : joinedRow lo hi phaseLo f x = some y) :
    y.id = f.id ∧ f.key = some x.key := by
  unfold joinedRow at h
  split at h
  · next hk =>
    obtain rfl := Option.some.inj h
    exact ⟨rfl, hk.1⟩
  · cases h

/-- A row joins at most one target row, since those have different keys. -/
theorem joinedRows_sublist (lo hi phaseLo : ℕ) (f : FileRow δ) (l : List (TgtRow δ))
    (hl : (l.map TgtRow.key).Nodup) :
    ((l.filterMap (joinedRow lo hi phaseLo f)).map LoadedFile.id).Sublist [f.id] := by
  induction l with
  | nil => simp
  | cons x xs ih =>
    rw [List.map_cons, List.nodup_cons] at hl
    rw [List.filterMap_cons]
    split
    · exact ih hl.2
    · next y hy =>
      obtain ⟨hid, hkey⟩ := id_eq_of_joinedRow hy
      have hrest : xs.filterMap (joinedRow lo hi phaseLo f) = [] := by
        rw [List.filterMap_eq_nil_iff]
        intro x' hx'
        cases hj : joinedRow lo hi phaseLo f x' with
        | none => rfl
        | some y' =>
          have hsame : x'.key = x.key :=
            Option.some.inj ((id_eq_of_joinedRow hj).2.symm.trans hkey)
          exact absurd (hsame ▸ List.mem_map_of_mem (f := TgtRow.key) hx') hl.1
      rw [hrest, List.map_singleton, hid]

theorem getDuplicateFiles_ids_nodup (lo hi phaseLo : ℕ) :
    ((t.getDuplicateFiles lo hi phaseLo).map LoadedFile.id).Nodup := by
  have hsub : ((t.rows.flatMap fun f =>
      (t.tgt lo hi phaseLo).filterMap (joinedRow lo hi phaseLo f)).map LoadedFile.id).Sublist
        (t.rows.map FileRow.id) := by
    induction t.rows with
    | nil => simp
    | cons f fs ih =>
      rw [List.flatMap_cons, List.map_append, List.map_cons]
      exact (joinedRows_sublist lo hi phaseLo f _ (t.tgt_keys_nodup lo hi phaseLo)).append ih
  unfold getDuplicateFiles
  rw [((List.perm_insertionSort _ _).map _).nodup_iff]
  exact hsub.nodup t.ids_nodup

end FilesTable

section Load

variable {δ : Type*} [DecidableEq δ]

@[simp] theorem ResultsTree.members_init (digest : δ) (len : ℕ) :
    (ResultsTree.init (δ := δ)).members digest len = [] := rfl

def LoadedFile.extent (y : LoadedFile δ) : Extent := ⟨y.id, 0, 0, y.size⟩

def LoadedFile.key (y : LoadedFile δ) : δ × ℕ := (y.digest, y.size)

/-- Loading rows of distinct files appends the rows of each group, in order, to that group. -/
theorem members_foldl_loadSameFile (k : δ × ℕ) (l : List (LoadedFile δ))
    (st : List Filerec × ResultsTree δ) (hl : (l.map LoadedFile.id).Nodup)
    (hfresh : ∀ e ∈ st.2.members k.1 k.2, e.eFile ∉ l.map LoadedFile.id) :
    (l.foldl loadSameFile st).2.members k.1 k.2 =
      st.2.members k.1 k.2 ++ (l.filter fun y => decide (y.key = k)).map LoadedFile.extent := by
  induction l generalizing st with
  | nil => simp
  | cons y ys ih =>
    rw [List.map_cons, List.nodup_cons] at hl
    rw [List.foldl_cons]
    by_cases hk : y.key = k
    · have hnew : ¬ ∃ x ∈ st.2.members k.1 k.2, x.eFile = y.id ∧ x.eLoff = 0 := by
        rintro ⟨x, hx, hid, -⟩
        exact hfresh x hx (by rw [hid]; exact List.mem_cons_self)
      have hstep : (loadSameFile st y).2.members k.1 k.2 =
          st.2.members k.1 k.2 ++ [y.extent] := by
        subst hk
        exact (ResultsTree.members_insertOneResult st.2 y.digest y.id 0 y.size 0).trans
          (if_neg hnew)
      rw [ih _ hl.2, hstep, List.filter_cons_of_pos (by simpa using hk), List.map_cons,
        List.append_assoc, List.singleton_append]
      intro e he
      rw [hstep, List.mem_append, List.mem_singleton] at he
      rcases he with he | rfl
      · exact fun hmem => hfresh e he (List.mem_cons_of_mem _ hmem)
      · exact hl.1
    · have hstep : (loadSameFile st y).2.members k.1 k.2 = st.2.members k.1 k.2 := by
        refine ResultsTree.members_insertOneResult_of_ne st.2 y.id 0 0 ?_
        intro he
        exact hk (Prod.ext (congrArg Prod.snd he).symm (congrArg Prod.fst he).symm)
      rw [ih _ hl.2, hstep, List.filter_cons_of_neg (by simpa using hk)]
      intro e he
      rw [hstep] at he
      exact fun hmem => hfresh e he (List.mem_cons_of_mem _ hmem)

theorem loadedGroup_eq (t : FilesTable δ) (recs : List Filerec) (w : Window ℕ) (phaseLo : ℕ)
    (k : δ × ℕ) : loadedGroup t recs w phaseLo k =
      ((t.getDuplicateFiles w.lo w.hi phaseLo).filter fun y => decide (y.key = k)).map
        LoadedFile.id := by
  unfold loadedGroup loadedTree dbfileLoadSameFiles
  rw [members_foldl_loadSameFile k _ _ (t.getDuplicateFiles_ids_nodup _ _ _) (by simp)]
  simp [LoadedFile.extent, List.map_map, Function.comp_def]

theorem loadedGroup_nodup (t : FilesTable δ) (recs : List Filerec) (w : Window ℕ) (phaseLo : ℕ)
    (k : δ × ℕ) : (loadedGroup t recs w phaseLo k).Nodup := by
  rw [loadedGroup_eq]
  exact (List.filter_sublist.map _).nodup (t.getDuplicateFiles_ids_nodup _ _ _)

theorem mem_getDuplicateFiles_key {t : FilesTable δ} {lo hi phaseLo : ℕ} {k : δ × ℕ}
    {y : LoadedFile δ} : y ∈ t.getDuplicateFiles lo hi phaseLo ∧ y.key = k ↔
      ∃ r, t.target k = some r ∧ k ∈ t.grp lo hi ∧ t.keepsTarget lo hi phaseLo k r = true ∧
        ∃ f ∈ t.members k, (f.inWindow lo hi = true ∨ f.id = r.id ∨
          r.inWindow lo hi = true ∧ f.dedupeSeq ≤ phaseLo) ∧
          y = ⟨f.id, k.2, k.1, f.filename, f.dedupeSeq, decide (f.id = r.id)⟩ := by
  rw [t.mem_getDuplicateFiles]
  constructor
  · rintro ⟨⟨f, hf, x, hx, hkey, hsel, rfl⟩, hk⟩
    obtain ⟨hgrp, r, hr, hkeep, hid, hseq⟩ := t.mem_tgt.mp hx
    have hsize := FileRow.size_eq_of_key hkey
    obtain rfl : x.key = k := hk ▸ Prod.ext rfl hsize.symm
    simp only [FilesTable.selects, Bool.and_eq_true, Bool.or_eq_true, decide_eq_true_eq] at hsel
    refine ⟨r, hr, hgrp, hkeep, f, t.mem_members.mpr ⟨hf, hsel.1, hkey⟩, ?_, by rw [hsize, hid]⟩
    rcases hsel.2 with (hwin | hid') | hold
    · exact Or.inl hwin
    · exact Or.inr (Or.inl (hid'.trans hid))
    · exact Or.inr (Or.inr ⟨by rw [FileRow.inWindow, ← hseq]; simpa using hold.1, hold.2⟩)
  · rintro ⟨r, hr, hgrp, hkeep, f, hf, hsel, rfl⟩
    obtain ⟨hrow, hinl, hkey⟩ := t.mem_members.mp hf
    have hx : (⟨k, r.id, r.dedupeSeq⟩ : TgtRow δ) ∈ t.tgt lo hi phaseLo :=
      t.mem_tgt.mpr ⟨hgrp, r, hr, hkeep, rfl, rfl⟩
    refine ⟨⟨f, hrow, _, hx, hkey, ?_, by rw [FileRow.size_eq_of_key hkey]⟩, rfl⟩
    simp only [FilesTable.selects, Bool.and_eq_true, Bool.or_eq_true, decide_eq_true_eq]
    refine ⟨hinl, ?_⟩
    rcases hsel with hwin | hid | hold
    · exact Or.inl (Or.inl hwin)
    · exact Or.inl (Or.inr hid)
    · exact Or.inr ⟨by simpa [FileRow.inWindow] using hold.1, hold.2⟩

theorem mem_loadedGroup {t : FilesTable δ} {recs : List Filerec} {w : Window ℕ} {phaseLo : ℕ}
    {k : δ × ℕ} {a : ℤ} : a ∈ loadedGroup t recs w phaseLo k ↔
      ∃ r, t.target k = some r ∧ k ∈ t.grp w.lo w.hi ∧
        t.keepsTarget w.lo w.hi phaseLo k r = true ∧
        ∃ f ∈ t.members k, (f.inWindow w.lo w.hi = true ∨ f.id = r.id ∨
          r.inWindow w.lo w.hi = true ∧ f.dedupeSeq ≤ phaseLo) ∧ f.id = a := by
  simp only [loadedGroup_eq, List.mem_map, List.mem_filter, decide_eq_true_eq,
    mem_getDuplicateFiles_key]
  constructor
  · rintro ⟨y, ⟨r, hr, hgrp, hkeep, f, hf, hsel, rfl⟩, rfl⟩
    exact ⟨r, hr, hgrp, hkeep, f, hf, hsel, rfl⟩
  · rintro ⟨r, hr, hgrp, hkeep, f, hf, hsel, rfl⟩
    exact ⟨_, ⟨r, hr, hgrp, hkeep, f, hf, hsel, rfl⟩, rfl⟩

/-- Whatever a window loads of a group, the elected target comes first. -/
theorem head?_loadedGroup {t : FilesTable δ} {recs : List Filerec} {w : Window ℕ} {phaseLo : ℕ}
    {k : δ × ℕ} {r : FileRow δ} (hr : t.target k = some r) {a : ℤ}
    (ha : a ∈ loadedGroup t recs w phaseLo k) :
    (loadedGroup t recs w phaseLo k).head? = some r.id := by
  obtain ⟨r', hr', hgrp, hkeep, -⟩ := mem_loadedGroup.mp ha
  obtain rfl : r = r' := Option.some.inj (hr.symm.trans hr')
  rw [loadedGroup_eq] at ha ⊢
  have htarget : (⟨r.id, k.2, k.1, r.filename, r.dedupeSeq, true⟩ : LoadedFile δ) ∈
      (t.getDuplicateFiles w.lo w.hi phaseLo).filter fun y => decide (y.key = k) := by
    rw [List.mem_filter, decide_eq_true_eq, mem_getDuplicateFiles_key]
    exact ⟨r, hr, hgrp, hkeep, r, t.mem_of_target hr, Or.inr (Or.inl rfl), by simp⟩
  have hsorted : ((t.getDuplicateFiles w.lo w.hi phaseLo).filter
      fun y => decide (y.key = k)).Pairwise LoadedFile.le :=
    (List.pairwise_insertionSort LoadedFile.le _).filter _
  have hmem : ∀ y ∈ (t.getDuplicateFiles w.lo w.hi phaseLo).filter
      (fun y => decide (y.key = k)), y.isTarget = true → y.id = r.id := by
    intro y hy hyt
    rw [List.mem_filter, decide_eq_true_eq, mem_getDuplicateFiles_key] at hy
    obtain ⟨r', hr', -, -, f, -, -, rfl⟩ := hy
    obtain rfl : r = r' := Option.some.inj (hr.symm.trans hr')
    simpa using hyt
  cases hl : (t.getDuplicateFiles w.lo w.hi phaseLo).filter fun y => decide (y.key = k) with
  | nil => simp [hl] at htarget
  | cons y ys =>
    rw [hl] at htarget hsorted hmem
    -- the target row sorts no later than the head, so the head is a target row too
    have hhead : y.isTarget = true := by
      rcases List.mem_cons.mp htarget with rfl | hin
      · rfl
      · have hle := List.rel_of_pairwise_cons hsorted hin
        have hboth : y.isTarget = true ∧ y.id ≤ r.id := by simpa [LoadedFile.le] using hle
        exact hboth.1
    rw [List.map_cons, List.head?_cons, hmem y List.mem_cons_self hhead]

theorem nonempty_of_mem_loadedTree {t : FilesTable δ} {recs : List Filerec} {w : Window ℕ}
    {phaseLo : ℕ} {g : DupeExtents δ} (hg : g ∈ (loadedTree t recs w phaseLo).groups) :
    g.deExtents ≠ [] := by
  have hfold (l : List (LoadedFile δ)) (st : List Filerec × ResultsTree δ)
      (hst : st.2.NoEmptyGroup) : (l.foldl loadSameFile st).2.NoEmptyGroup := by
    induction l generalizing st with
    | nil => exact hst
    | cons y ys ih => exact ih _ (hst.insertOneResult _ _ _ _ _)
  exact hfold _ (recs, .init) (by simp [ResultsTree.NoEmptyGroup, ResultsTree.init]) g hg

theorem one_lt_length_loadedGroup {t : FilesTable δ} {recs : List Filerec} {w : Window ℕ}
    {phaseLo : ℕ} {k : δ × ℕ} {a : ℤ} (ha : a ∈ loadedGroup t recs w phaseLo k) :
    1 < (loadedGroup t recs w phaseLo k).length := by
  obtain ⟨r, hr, hgrp, hkeep, -⟩ := mem_loadedGroup.mp ha
  have htarget : r.id ∈ loadedGroup t recs w phaseLo k :=
    mem_loadedGroup.mpr ⟨r, hr, hgrp, hkeep, r, t.mem_of_target hr, Or.inr (Or.inl rfl), rfl⟩
  have hother : ∃ b ∈ loadedGroup t recs w phaseLo k, b ≠ r.id := by
    obtain ⟨f, hf, hwin⟩ := (t.mem_grp.mp hgrp).1
    by_cases hid : f.id = r.id
    · obtain rfl : f = r :=
        t.eq_of_id_eq (t.mem_members.mp hf).1 (t.mem_members.mp (t.mem_of_target hr)).1 hid
      obtain ⟨m, hm, hne, hload⟩ := t.exists_other_of_keepsTarget hkeep hwin
      refine ⟨m.id, mem_loadedGroup.mpr ⟨f, hr, hgrp, hkeep, m, hm, ?_, rfl⟩, hne⟩
      exact hload.elim (fun h => Or.inr (Or.inr ⟨hwin, h⟩)) Or.inl
    · exact ⟨f.id, mem_loadedGroup.mpr ⟨r, hr, hgrp, hkeep, f, hf, Or.inl hwin, rfl⟩, hid⟩
  obtain ⟨b, hb, hne⟩ := hother
  by_contra! hlen
  obtain ⟨x, hx⟩ : ∃ x, loadedGroup t recs w phaseLo k = [x] :=
    List.length_eq_one_iff.mp (le_antisymm hlen (List.length_pos_of_mem ha))
  rw [hx, List.mem_singleton] at hb htarget
  exact hne (hb.trans htarget.symm)

end Load

section Phase

variable {δ : Type*} [DecidableEq δ] {t : FilesTable δ} {firstSeq : ℕ} {k : δ × ℕ} {r f : FileRow δ}

/-- A new member other than the target is loaded by the window holding its generation. -/
theorem mem_loadedGroup_of_new {recs : List Filerec} {w : Window ℕ}
    (hr : t.target k = some r) (hf : f ∈ t.members k) (hnew : firstSeq < f.dedupeSeq)
    (hne : f ≠ r) : f.id ∈ loadedGroup t recs w firstSeq k ↔ w.Contains f.dedupeSeq := by
  have hid := t.id_ne_of_mem_members hf (t.mem_of_target hr) hne
  rw [mem_loadedGroup]
  constructor
  · rintro ⟨r', hr', -, -, f', hf', hsel, hff⟩
    obtain rfl : r = r' := Option.some.inj (hr.symm.trans hr')
    obtain rfl : f' = f := by_contra fun hn => t.id_ne_of_mem_members hf' hf hn hff
    rcases hsel with hwin | hid' | hold
    · exact FileRow.inWindow_iff.mp hwin
    · exact absurd hid' hid
    · exact absurd hold.2 (not_le.mpr hnew)
  · intro hc
    have hwin := FileRow.inWindow_iff.mpr hc
    exact ⟨r, hr, t.mem_grp.mpr ⟨⟨f, hf, hwin⟩, t.one_lt_length_members hf (t.mem_of_target hr) hne⟩,
      t.keepsTarget_of_other hf hid (Or.inr hwin), f, hf, Or.inl hwin, rfl⟩

/-- An old member other than the target is loaded by the window holding the target. -/
theorem mem_loadedGroup_of_old {recs : List Filerec} {w : Window ℕ} (hw : firstSeq ≤ w.lo)
    (hr : t.target k = some r) (hf : f ∈ t.members k) (hold : f.dedupeSeq ≤ firstSeq)
    (hne : f ≠ r) : f.id ∈ loadedGroup t recs w firstSeq k ↔ w.Contains r.dedupeSeq := by
  have hid := t.id_ne_of_mem_members hf (t.mem_of_target hr) hne
  rw [mem_loadedGroup]
  constructor
  · rintro ⟨r', hr', -, -, f', hf', hsel, hff⟩
    obtain rfl : r = r' := Option.some.inj (hr.symm.trans hr')
    obtain rfl : f' = f := by_contra fun hn => t.id_ne_of_mem_members hf' hf hn hff
    rcases hsel with hwin | hid' | hold'
    · exact absurd (FileRow.inWindow_iff.mp hwin).1 (not_lt.mpr (hold.trans hw))
    · exact absurd hid' hid
    · exact FileRow.inWindow_iff.mp hold'.1
  · intro hc
    have hwin := FileRow.inWindow_iff.mpr hc
    have hr' := t.mem_of_target hr
    exact ⟨r, hr, t.mem_grp.mpr ⟨⟨r, hr', hwin⟩, t.one_lt_length_members hf hr' hne⟩,
      t.keepsTarget_of_other hf hid (Or.inl hold), f, hf, Or.inr (Or.inr ⟨hwin, hold⟩), rfl⟩

/-- The generation whose window loads a member of the group of target `r`: its own when it is new,
the target's when it is old. -/
def dueAt (firstSeq : ℕ) (r f : FileRow δ) : ℕ :=
  if firstSeq < f.dedupeSeq then f.dedupeSeq else r.dedupeSeq

/-- A member other than the target is loaded by the window it is due in. -/
theorem mem_loadedGroup_iff_due {recs : List Filerec} {w : Window ℕ} (hw : firstSeq ≤ w.lo)
    (hr : t.target k = some r) (hf : f ∈ t.members k) (hne : f ≠ r) :
    f.id ∈ loadedGroup t recs w firstSeq k ↔ w.Contains (dueAt firstSeq r f) := by
  unfold dueAt
  by_cases hnew : firstSeq < f.dedupeSeq
  · rw [if_pos hnew]
    exact mem_loadedGroup_of_new hr hf hnew hne
  · rw [if_neg hnew]
    exact mem_loadedGroup_of_old hw hr hf (not_lt.mp hnew) hne

/-- Over the windows of one dedupe phase every duplicate group is loaded as a whole, each window's
share next to the elected target, and nothing is loaded that has nothing to move onto it. -/
theorem phase_loads_groups (t : FilesTable δ) (recs : Window ℕ → List Filerec) (firstSeq : ℕ)
    (ws : List (Window ℕ)) (hcut : IsCut firstSeq ws t.getMaxDedupeSeq) :
    (∀ k r, 1 < (t.members k).length → t.IsElected k r →
      (∀ f ∈ t.members k, firstSeq < f.dedupeSeq → f ≠ r →
        ws.countP (fun w => f.id ∈ loadedGroup t (recs w) w firstSeq k) = 1 ∧
        ∀ w ∈ ws, f.id ∈ loadedGroup t (recs w) w firstSeq k →
          (loadedGroup t (recs w) w firstSeq k).head? = some r.id) ∧
      (firstSeq < r.dedupeSeq → ∀ f ∈ t.members k, f.dedupeSeq ≤ firstSeq →
        ws.countP (fun w => f.id ∈ loadedGroup t (recs w) w firstSeq k) = 1 ∧
        ∀ w ∈ ws, f.id ∈ loadedGroup t (recs w) w firstSeq k →
          (loadedGroup t (recs w) w firstSeq k).head? = some r.id) ∧
      (r.dedupeSeq ≤ firstSeq → ∀ f ∈ t.members k, f.dedupeSeq ≤ firstSeq → f ≠ r →
        ∀ w ∈ ws, f.id ∉ loadedGroup t (recs w) w firstSeq k)) ∧
    (∀ w ∈ ws, ∀ g ∈ (loadedTree t (recs w) w firstSeq).groups, 1 < g.deExtents.length) := by
  refine ⟨fun k r _ hr => ?_, fun w _ g hg => ?_⟩
  · rw [← t.target_eq_some_iff] at hr
    have hcount (f : FileRow δ) (x : ℕ) (hlt : firstSeq < x) (hle : x ≤ t.getMaxDedupeSeq)
        (hiff : ∀ w ∈ ws, f.id ∈ loadedGroup t (recs w) w firstSeq k ↔ w.Contains x) :
        ws.countP (fun w => f.id ∈ loadedGroup t (recs w) w firstSeq k) = 1 := by
      rw [← hcut.countP_contains hlt hle]
      exact List.countP_congr fun w hw => by simpa using hiff w hw
    have hmax := fun {f : FileRow δ} (hf : f ∈ t.members k) =>
      t.dedupeSeq_le_max (t.mem_members.mp hf).1
    refine ⟨fun f hf hnew hne => ⟨?_, fun w _ hload => head?_loadedGroup hr hload⟩,
      fun hrnew f hf hold => ⟨?_, fun w _ hload => head?_loadedGroup hr hload⟩,
      fun hrold f hf hold hne w hw hload => ?_⟩
    · exact hcount f f.dedupeSeq hnew (hmax hf) fun w _ => mem_loadedGroup_of_new hr hf hnew hne
    · have hne : f ≠ r := fun h => absurd hrnew (not_lt.mpr (h ▸ hold))
      exact hcount f r.dedupeSeq hrnew (hmax (t.mem_of_target hr))
        fun w hw => mem_loadedGroup_of_old (hcut.lo_ge w hw) hr hf hold hne
    · exact hcut.not_contains hrold w hw
        ((mem_loadedGroup_of_old (hcut.lo_ge w hw) hr hf hold hne).mp hload)
  · have hext := ResultsTree.members_of_mem hg
    have hgroup : loadedGroup t (recs w) w firstSeq (g.deHash, g.deLen) =
        g.deExtents.map Extent.eFile := congrArg (List.map Extent.eFile) hext
    obtain ⟨e, he⟩ := List.exists_mem_of_ne_nil _ (nonempty_of_mem_loadedTree hg)
    have htwo := one_lt_length_loadedGroup (a := e.eFile)
      (hgroup ▸ List.mem_map_of_mem (f := Extent.eFile) he)
    rwa [hgroup, List.length_map] at htwo

/-- Three generations of one group, the newest holding the read-only copy that is elected. -/
def exampleTable : FilesTable ℕ where
  rows := [⟨1, "a", 10, 1, some 7, some 0, 1⟩, ⟨2, "b", 10, 2, some 7, some 0, 1⟩,
    ⟨3, "c", 10, 3, some 7, some 2, 5⟩, ⟨4, "d", 10, 3, none, none, 0⟩]
  ids_nodup := by decide

/-- The old copy `a` and the new copy `b` are each loaded once, behind `c`. -/
theorem phase_loads_groups_example :
    ([⟨1, 2⟩, ⟨2, 3⟩] : List (Window ℕ)).countP
        (fun w => (2 : ℤ) ∈ loadedGroup exampleTable [] w 1 (7, 10)) = 1 ∧
      ([⟨1, 2⟩, ⟨2, 3⟩] : List (Window ℕ)).countP
        (fun w => (1 : ℤ) ∈ loadedGroup exampleTable [] w 1 (7, 10)) = 1 := by
  have h := (phase_loads_groups exampleTable (fun _ => []) 1 [⟨1, 2⟩, ⟨2, 3⟩]
    (by decide)).1 (7, 10)
    ⟨3, "c", 10, 3, some 7, some 2, 5⟩ (by decide) (by decide)
  exact ⟨(h.1 ⟨2, "b", 10, 2, some 7, some 0, 1⟩ (by decide) (by decide) (by decide)).1,
    (h.2.1 (by decide) ⟨1, "a", 10, 1, some 7, some 0, 1⟩ (by decide) (by decide)).1⟩

end Phase

end Oans
