import Oans.InodeScan

/-!
# One row per inode

A file is looked up by its inode in a snapshot, and a rename is noticed by the old path being gone.
A row whose file moved while something else took its old path is therefore left as it is.
-/

namespace Oans

open UniqueTable

section

variable {δ : Type*}

namespace InodeRow

theorem clash_refl (a : InodeRow δ) : a.clash a = true := by simp [clash]

theorem clash_symm (a b : InodeRow δ) : a.clash b = b.clash a := by
  simp [clash, eq_comm]

theorem clash_eq_false {a b : InodeRow δ} :
    a.clash b = false ↔ a.id ≠ b.id ∧ a.inode ≠ b.inode ∧ a.filename ≠ b.filename := by
  simp [clash]

structure Same (a b : InodeRow δ) : Prop where
  id : a.id = b.id
  inode : a.inode = b.inode
  filename : a.filename = b.filename
  size : a.size = b.size
  mtime : a.mtime = b.mtime
  digest : a.digest = b.digest

theorem Same.refl (a : InodeRow δ) : a.Same a := ⟨rfl, rfl, rfl, rfl, rfl, rfl⟩

theorem Same.trans {a b c : InodeRow δ} (h : a.Same b) (h' : b.Same c) : a.Same c :=
  ⟨h.id.trans h'.id, h.inode.trans h'.inode, h.filename.trans h'.filename, h.size.trans h'.size,
    h.mtime.trans h'.mtime, h.digest.trans h'.digest⟩

end InodeRow

theorem id_lt_newRowid {rows : List (InodeRow δ)} {r : InodeRow δ} (h : r ∈ rows) :
    r.id < newRowid rows := by
  have hle : r.id ≤ rows.foldr (fun r m => max r.id m) 0 := by
    induction rows with
    | nil => cases h
    | cons a rows ih =>
      rcases List.mem_cons.mp h with rfl | h
      · exact le_max_left _ _
      · exact (ih h).trans (le_max_right _ _)
  unfold newRowid
  omega

section Store

variable {rows : List (InodeRow δ)} {f : DbFile} {inode : InodeKey} {path : String}
  {size mtime : ℕ} {fileRenamed : Bool}

/-- The row a rename leaves for the inode goes with the insert that follows, so only the rows of
other inodes at other paths are left beside the new one. -/
theorem mem_storeFileRow (hrows : Consistent InodeRow.clash rows)
    (hren : fileRenamed = true → ∃ r ∈ rows, r.id = f.id ∧ r.inode = inode) {a : InodeRow δ} :
    a ∈ (storeFileRow rows f inode path size mtime fileRenamed).1 ↔
      a = ⟨(storeFileRow rows f inode path size mtime fileRenamed).2, inode, path, size, mtime,
        none, none⟩ ∨ a ∈ rows ∧ a.inode ≠ inode ∧ a.filename ≠ path := by
  unfold storeFileRow dbfileStoreFileInfo
  have hbase : ∀ rows' : List (InodeRow δ),
      (∀ a, a.inode ≠ inode → a.filename ≠ path → (a ∈ rows' ↔ a ∈ rows)) →
      (a ∈ insertOrReplace InodeRow.clash rows' ⟨newRowid rows', inode, path, size, mtime, none, none⟩ ↔
        a = ⟨newRowid rows', inode, path, size, mtime, none, none⟩ ∨
          a ∈ rows ∧ a.inode ≠ inode ∧ a.filename ≠ path) := by
    intro rows' hmem
    rw [mem_insertOrReplace, InodeRow.clash_eq_false, or_comm]
    refine or_congr_right ⟨fun ⟨ha, _, hi, hp⟩ => ⟨(hmem a hi hp).mp ha, hi, hp⟩, ?_⟩
    rintro ⟨ha, hi, hp⟩
    have ha' := (hmem a hi hp).mpr ha
    exact ⟨ha', (id_lt_newRowid ha').ne, hi, hp⟩
  cases hr : fileRenamed with
  | false => exact hbase rows fun a _ _ => Iff.rfl
  | true =>
    refine hbase _ fun a hi hp => ?_
    obtain ⟨r, hr, hid, hinode⟩ := hren hr
    have hone : ∀ b ∈ rows, b.id = f.id → b = r := fun b hb hbid =>
      hrows.eq_of_clash InodeRow.clash_symm hb hr (by simp [InodeRow.clash, hbid, hid])
    have hfind : rows.find? (fun r => decide (r.id = f.id)) = some r := by
      cases hfind : rows.find? (fun r => decide (r.id = f.id)) with
      | none => simpa [hid] using List.find?_eq_none.mp hfind r hr
      | some b =>
        rw [hone b (List.mem_of_find?_eq_some hfind) (by simpa using List.find?_some hfind)]
    rw [if_pos rfl, dbfileRenameFile, updateOrReplace, hfind]
    simp only [List.mem_map, List.mem_filter, Bool.or_eq_true, decide_eq_true_eq,
      Bool.not_eq_true', InodeRow.clash_eq_false]
    constructor
    · rintro ⟨b, ⟨hb, -⟩, rfl⟩
      by_cases hbid : b.id = f.id
      · rw [if_pos hbid] at hp
        exact absurd rfl hp
      · rwa [if_neg hbid]
    · intro ha
      have haid : a.id ≠ f.id := fun heq => hi (by rw [hone a ha heq, hinode])
      refine ⟨a, ⟨ha, Or.inr ⟨?_, ?_, hp⟩⟩, if_neg haid⟩
      · rwa [hid]
      · rwa [hinode]

theorem consistent_storeFileRow (hrows : Consistent InodeRow.clash rows) :
    Consistent InodeRow.clash (storeFileRow rows f inode path size mtime fileRenamed).1 := by
  refine Consistent.insertOrReplace ?_
  cases fileRenamed with
  | false => exact hrows
  | true =>
    refine hrows.updateOrReplace InodeRow.clash_symm fun a b ha hb => ?_
    simp only [decide_eq_true_eq] at ha hb
    simp [InodeRow.clash, ha, hb]

end Store

/-- The rows one connection sees during a scan that began with the rows `D` and has written rows
for the inodes `seen`: of any other inode only the row it had, unless another file now has its
path. -/
structure Descends (D : List (InodeRow δ)) (tree : DiskTree δ) (seen : List InodeKey)
    (rows : List (InodeRow δ)) : Prop where
  origin : ∀ r ∈ rows, r.inode ∈ seen ∨ ∃ r₀ ∈ D, r.Same r₀
  kept : ∀ r₀ ∈ D, r₀.inode ∈ seen ∨ (∃ r ∈ rows, r.Same r₀) ∨
    ∃ j, j ≠ r₀.inode ∧ tree.entry r₀.filename = some (.regular j)

section Descends

variable {D rows : List (InodeRow δ)} {tree : DiskTree δ} {seen : List InodeKey}

theorem Descends.refl : Descends D tree [] D where
  origin r hr := Or.inr ⟨r, hr, .refl r⟩
  kept r hr := Or.inr (Or.inl ⟨r, hr, .refl r⟩)

theorem Descends.mono (h : Descends D tree seen rows) {seen' : List InodeKey}
    (hsub : ∀ i ∈ seen, i ∈ seen') : Descends D tree seen' rows where
  origin r hr := (h.origin r hr).imp_left (hsub _)
  kept r₀ hr₀ := (h.kept r₀ hr₀).imp_left (hsub _)

theorem Descends.map (h : Descends D tree seen rows) {g : InodeRow δ → InodeRow δ}
    (hg : ∀ r ∈ rows, (g r).inode = r.inode ∧ (r.inode ∈ seen ∨ (g r).Same r)) :
    Descends D tree seen (rows.map g) where
  origin r hr := by
    obtain ⟨a, ha, rfl⟩ := List.mem_map.mp hr
    obtain ⟨hinode, hsame⟩ := hg a ha
    rw [hinode]
    rcases hsame with hseen | hsame
    · exact Or.inl hseen
    · exact (h.origin a ha).imp_right fun ⟨r₀, hr₀, hs⟩ => ⟨r₀, hr₀, hsame.trans hs⟩
  kept r₀ hr₀ := by
    rcases h.kept r₀ hr₀ with hseen | ⟨a, ha, hs⟩ | hmoved
    · exact Or.inl hseen
    · rcases (hg a ha).2 with hseen | hsame
      · exact Or.inl (hs.inode ▸ hseen)
      · exact Or.inr (Or.inl ⟨g a, List.mem_map_of_mem ha, hsame.trans hs⟩)
    · exact Or.inr (Or.inr hmoved)

/-- The lookup of an inode without a row yet finds the row it had, if any. -/
theorem Descends.describeFile (h : Descends D tree seen rows) {inode : InodeKey}
    (hi : inode ∉ seen) (hD : ∀ r ∈ D, r.digest.isSome = true) :
    describeFile rows inode = ⟨0, "", 0, 0, false, 0⟩ ∨
      ∃ r₀ ∈ D, r₀.inode = inode ∧ ∃ flags,
        describeFile rows inode = ⟨r₀.id, r₀.filename, r₀.mtime, r₀.size, true, flags⟩ := by
  unfold Oans.describeFile
  cases hfind : rows.find? fun r => decide (r.inode = inode) with
  | none => exact Or.inl rfl
  | some r =>
    have hr := List.mem_of_find?_eq_some hfind
    have hinode : r.inode = inode := by simpa using List.find?_some hfind
    obtain ⟨r₀, hr₀, hs⟩ := (h.origin r hr).resolve_left (hinode ▸ hi)
    refine Or.inr ⟨r₀, hr₀, hs.inode.symm.trans hinode, r.flags.getD 0, ?_⟩
    dsimp only
    rw [hs.id, hs.filename, hs.mtime, hs.size, hs.digest, hD r₀ hr₀]

end Descends

structure StoredRow (tree : DiskTree δ) (s : InodeScan δ) (r : InodeRow δ) : Prop where
  path : tree.entry r.filename = some (.regular r.inode)
  size : r.size = (tree.inode r.inode).size
  mtime : r.mtime = (tree.inode r.inode).mtime
  seen : r.id ∈ s.seenFiles
  digest : r.digest = some (tree.inode r.inode).digest ∨ ∃ item ∈ s.queued, item.1 = r.id

structure ScanInv (D : List (InodeRow δ)) (tree : DiskTree δ) (s : InodeScan δ) : Prop where
  consistent : Consistent InodeRow.clash s.rows
  rows : Descends D tree s.seenInodes s.rows
  committed : Descends D tree s.seenInodes s.committed
  view : Descends D tree s.seenInodes s.view
  stored : ∀ r ∈ s.rows, r.inode ∈ s.seenInodes → StoredRow tree s r
  exists_row : ∀ i ∈ s.seenInodes, ∃ r ∈ s.rows, r.inode = i
  queued : ∀ item ∈ s.queued, ∃ r ∈ s.rows, r.id = item.1 ∧ r.inode ∈ s.seenInodes ∧
    tree.entry item.2 = some (.regular r.inode)

/-- A path the walk has met: the scan has written a row for its inode, or has found the one there
is up to date. -/
def Met (D : List (InodeRow δ)) (tree : DiskTree δ) (s : InodeScan δ) (path : String) : Prop :=
  ∀ i, tree.entry path = some (.regular i) → i ∈ s.seenInodes ∨
    ∃ r₀ ∈ D, r₀.inode = i ∧ r₀.size = (tree.inode i).size ∧ r₀.mtime = (tree.inode i).mtime ∧
      tree.entry r₀.filename ≠ none ∧ r₀.id ∈ s.seenFiles

theorem ScanInv.init {D : List (InodeRow δ)} (tree : DiskTree δ)
    (hD : Consistent InodeRow.clash D) : ScanInv D tree (.init D) where
  consistent := hD
  rows := .refl
  committed := .refl
  view := .refl
  stored r hr hi := by simp [InodeScan.init] at hi
  exists_row i hi := by simp [InodeScan.init] at hi
  queued item hitem := by simp [InodeScan.init] at hitem

section Steps

variable {D : List (InodeRow δ)} {tree : DiskTree δ} {s : InodeScan δ} (h : ScanInv D tree s)

include h

theorem ScanInv.commit : ScanInv D tree { s with committed := s.rows } where
  consistent := h.consistent
  rows := h.rows
  committed := h.rows
  view := by
    cases hsnap : s.snapshot with
    | none => simpa [InodeScan.view, hsnap] using h.rows
    | some rows => simpa [InodeScan.view, hsnap] using h.view
  stored r hr hi := ⟨(h.stored r hr hi).path, (h.stored r hr hi).size, (h.stored r hr hi).mtime,
    (h.stored r hr hi).seen, (h.stored r hr hi).digest⟩
  exists_row := h.exists_row
  queued := h.queued

theorem ScanInv.setSnapshot (view : Option (List (InodeRow δ)))
    (hview : Descends D tree s.seenInodes (view.getD s.committed)) :
    ScanInv D tree { s with snapshot := view } where
  consistent := h.consistent
  rows := h.rows
  committed := h.committed
  view := hview
  stored r hr hi := ⟨(h.stored r hr hi).path, (h.stored r hr hi).size, (h.stored r hr hi).mtime,
    (h.stored r hr hi).seen, (h.stored r hr hi).digest⟩
  exists_row := h.exists_row
  queued := h.queued

/-- Rows changed in place, by a worker's digest or by flags. -/
theorem ScanInv.mapRows {g : InodeRow δ → InodeRow δ} {queued : List (ℤ × String)}
    {seenFiles : List ℤ} (hid : ∀ r, (g r).id = r.id) (hinode : ∀ r, (g r).inode = r.inode)
    (hfilename : ∀ r, (g r).filename = r.filename) (hsize : ∀ r, (g r).size = r.size)
    (hmtime : ∀ r, (g r).mtime = r.mtime)
    (hsame : ∀ r ∈ s.rows, r.inode ∈ s.seenInodes ∨ (g r).Same r)
    (hdigest : ∀ r ∈ s.rows, r.inode ∈ s.seenInodes →
      (g r).digest = some (tree.inode r.inode).digest ∨
        (g r).digest = r.digest ∧ ∀ item ∈ s.queued, item.1 = r.id → item ∈ queued)
    (hqueued : ∀ item ∈ queued, item ∈ s.queued) (hseen : ∀ id ∈ s.seenFiles, id ∈ seenFiles) :
    ScanInv D tree { s with rows := s.rows.map g, queued := queued, seenFiles := seenFiles } where
  consistent := h.consistent.map fun a b => by simp only [InodeRow.clash, hid, hinode, hfilename]
  rows := h.rows.map fun r hr => ⟨hinode r, hsame r hr⟩
  committed := h.committed
  view := h.view
  stored r hr hi := by
    obtain ⟨a, ha, rfl⟩ := List.mem_map.mp hr
    rw [hinode] at hi
    have hst := h.stored a ha hi
    constructor
    case path => rw [hfilename, hinode, hst.path]
    case size => rw [hsize, hinode, hst.size]
    case mtime => rw [hmtime, hinode, hst.mtime]
    case seen =>
      rw [hid]
      exact hseen _ hst.seen
    case digest =>
      rw [hinode, hid]
      rcases hdigest a ha hi with hd | ⟨hd, hq⟩
      · exact Or.inl hd
      · rw [hd]
        exact hst.digest.imp_right fun ⟨item, hitem, heq⟩ => ⟨item, hq item hitem heq, heq⟩
  exists_row i hi := by
    obtain ⟨r, hr, heq⟩ := h.exists_row i hi
    exact ⟨g r, List.mem_map_of_mem hr, (hinode r).trans heq⟩
  queued item hitem := by
    obtain ⟨r, hr, heq, hi, hentry⟩ := h.queued item (hqueued item hitem)
    exact ⟨g r, List.mem_map_of_mem hr, (hid r).trans heq, by rwa [hinode], by rwa [hinode]⟩

theorem ScanInv.keepRow (f : DbFile) (check : RowCheck) : ScanInv D tree (s.keepRow f check) := by
  have hmap : ∀ g : InodeRow δ → InodeRow δ, (∀ r, (g r).Same r) →
      ScanInv D tree { s with rows := s.rows.map g, seenFiles := f.id :: s.seenFiles } :=
    fun g hg => h.mapRows (fun r => (hg r).id) (fun r => (hg r).inode) (fun r => (hg r).filename)
      (fun r => (hg r).size) (fun r => (hg r).mtime) (fun r _ => Or.inr (hg r))
      (fun r _ _ => Or.inr ⟨(hg r).digest, fun item hitem _ => hitem⟩) (fun item hitem => hitem)
      fun id hid => List.mem_cons_of_mem _ hid
  unfold InodeScan.keepRow
  split_ifs
  · refine hmap _ fun r => ?_
    split_ifs
    · exact ⟨rfl, rfl, rfl, rfl, rfl, rfl⟩
    · exact .refl r
  · have := hmap id .refl
    rwa [List.map_id] at this

theorem ScanInv.hashFile (fileid : ℤ) (extra : ℕ) :
    ScanInv D tree (s.hashFile tree fileid extra) := by
  unfold InodeScan.hashFile
  cases hfind : s.queued.find? fun item => decide (item.1 = fileid) with
  | none => exact h
  | some item =>
    have hitem := List.mem_of_find?_eq_some hfind
    have hid : item.1 = fileid := by simpa using List.find?_some hfind
    obtain ⟨r, hr, hrid, hseen, hentry⟩ := h.queued item hitem
    have hone : ∀ a ∈ s.rows, a.id = fileid → a = r := fun a ha haid =>
      h.consistent.eq_of_clash InodeRow.clash_symm ha hr
        (by simp [InodeRow.clash, haid, hrid, hid])
    simp only [hentry]
    refine h.mapRows ?_ ?_ ?_ ?_ ?_ (fun a ha => ?_) (fun a ha hi => ?_)
      (fun _ => List.mem_of_mem_erase) fun _ hmem => hmem
    case refine_6 =>
      by_cases haid : a.id = fileid
      · exact Or.inl (hone a ha haid ▸ hseen)
      · rw [if_neg haid]
        exact Or.inr (.refl a)
    case refine_7 =>
      by_cases haid : a.id = fileid
      · rw [if_pos haid, hone a ha haid]
        exact Or.inl rfl
      · rw [if_neg haid]
        refine Or.inr ⟨rfl, fun other hother heq => (List.mem_erase_of_ne ?_).mpr hother⟩
        rintro rfl
        exact haid (heq.symm.trans hid)
    all_goals
      intro a
      split_ifs <;> rfl

/-- The row the scan writes for an inode replaces only rows that were wrong. -/
theorem ScanInv.store {f : DbFile} {inode : InodeKey} {path : String} {fileRenamed : Bool}
    (hi : inode ∉ s.seenInodes) (hentry : tree.entry path = some (.regular inode))
    (hren : fileRenamed = true → ∃ r ∈ s.rows, r.id = f.id ∧ r.inode = inode) :
    ScanInv D tree ({ s with rows := (storeFileRow s.rows f inode path (tree.inode inode).size
      (tree.inode inode).mtime fileRenamed).1 }.enqueue (storeFileRow s.rows f inode path
      (tree.inode inode).size (tree.inode inode).mtime fileRenamed).2 inode path) := by
  have hmem := @mem_storeFileRow δ s.rows f inode path (tree.inode inode).size
    (tree.inode inode).mtime fileRenamed h.consistent hren
  -- a row of an inode already seen stands at a path of its own
  have hstays : ∀ r ∈ s.rows, r.inode ∈ s.seenInodes → r.inode ≠ inode ∧ r.filename ≠ path := by
    intro r hr hseen
    have hne : r.inode ≠ inode := fun heq => hi (heq ▸ hseen)
    refine ⟨hne, fun heq => hne ?_⟩
    have := (h.stored r hr hseen).path
    rw [heq, hentry] at this
    simpa using this.symm
  have hsub : ∀ j ∈ s.seenInodes, j ∈ inode :: s.seenInodes := fun _ => List.mem_cons_of_mem _
  constructor
  case consistent => exact consistent_storeFileRow h.consistent
  case rows =>
    constructor
    case origin =>
      intro r hr
      rcases hmem.mp hr with rfl | ⟨hr, -, -⟩
      · exact Or.inl List.mem_cons_self
      · exact (h.rows.origin r hr).imp_left (hsub _)
    case kept =>
      intro r₀ hr₀
      by_cases hinode : r₀.inode = inode
      · exact Or.inl (by rw [hinode]; exact List.mem_cons_self)
      rcases h.rows.kept r₀ hr₀ with hseen | ⟨r, hr, hs⟩ | hmoved
      · exact Or.inl (hsub _ hseen)
      · by_cases hpath : r.filename = path
        · refine Or.inr (Or.inr ⟨inode, Ne.symm hinode, ?_⟩)
          rw [← hs.filename, hpath, hentry]
        · exact Or.inr (Or.inl ⟨r, hmem.mpr (Or.inr ⟨hr, hs.inode ▸ hinode, hpath⟩), hs⟩)
      · exact Or.inr (Or.inr hmoved)
  case committed => exact h.committed.mono hsub
  case view => exact h.view.mono hsub
  case stored =>
    intro r hr hseen
    rcases hmem.mp hr with rfl | ⟨hr, hne, -⟩
    · exact ⟨hentry, rfl, rfl, List.mem_cons_self,
        Or.inr ⟨_, List.mem_append_right _ (List.mem_singleton_self _), rfl⟩⟩
    · have hst := h.stored r hr ((List.mem_cons.mp hseen).resolve_left hne)
      exact ⟨hst.path, hst.size, hst.mtime, List.mem_cons_of_mem _ hst.seen,
        hst.digest.imp_right fun ⟨item, hitem, heq⟩ => ⟨item, List.mem_append_left _ hitem, heq⟩⟩
  case exists_row =>
    intro i hseen
    rcases List.mem_cons.mp hseen with rfl | hseen
    · exact ⟨_, hmem.mpr (Or.inl rfl), rfl⟩
    · obtain ⟨r, hr, rfl⟩ := h.exists_row i hseen
      exact ⟨r, hmem.mpr (Or.inr ⟨hr, hstays r hr hseen⟩), rfl⟩
  case queued =>
    intro item hitem
    rcases List.mem_append.mp hitem with hitem | hitem
    · obtain ⟨r, hr, hid, hseen, hpath⟩ := h.queued item hitem
      exact ⟨r, hmem.mpr (Or.inr ⟨hr, hstays r hr hseen⟩), hid, hsub _ hseen, hpath⟩
    · rw [List.mem_singleton.mp hitem]
      exact ⟨_, hmem.mpr (Or.inl rfl), rfl, List.mem_cons_self, hentry⟩

/-- A rename is only seen for a row that is still there: its path is gone, so nothing has been
written under it. -/
theorem ScanInv.renamed_row (hD : ∀ r ∈ D, r.digest.isSome = true) {inode : InodeKey} {path : String}
    (hi : inode ∉ s.seenInodes)
    (hren : isFileRenamed tree (describeFile s.view inode).filename path = true) :
    ∃ r ∈ s.rows, r.id = (describeFile s.view inode).id ∧ r.inode = inode := by
  rcases h.view.describeFile hi hD with hf | ⟨r₀, hr₀, rfl, flags, hf⟩
  · rw [hf] at hren
    simp [isFileRenamed] at hren
  · rw [hf] at hren ⊢
    have hgone : tree.entry r₀.filename = none := by
      unfold isFileRenamed at hren
      split_ifs at hren
      exact Option.isNone_iff_eq_none.mp hren
    rcases h.rows.kept r₀ hr₀ with hseen | ⟨r, hr, hs⟩ | ⟨j, -, hentry⟩
    · exact absurd hseen hi
    · exact ⟨r, hr, hs.id, hs.inode⟩
    · rw [hgone] at hentry
      cases hentry

theorem ScanInv.scanFile (hD : ∀ r ∈ D, r.digest.isSome = true) (hempty : ∀ r ∈ D, r.filename ≠ "")
    (path : String) (check : RowCheck) (resume : Bool) :
    ScanInv D tree (s.scanFile tree path check resume) ∧
      Met D tree (s.scanFile tree path check resume) path := by
  unfold InodeScan.scanFile
  cases hentry : tree.entry path with
  | none => exact ⟨h, fun i hi => by rw [hentry] at hi; cases hi⟩
  | some e =>
  cases e with
  | other => exact ⟨h, fun i hi => by rw [hentry] at hi; cases hi⟩
  | regular inode =>
  have hmet : ∀ t : InodeScan δ, (inode ∈ t.seenInodes ∨ ∃ r₀ ∈ D, r₀.inode = inode ∧
      r₀.size = (tree.inode inode).size ∧ r₀.mtime = (tree.inode inode).mtime ∧
      tree.entry r₀.filename ≠ none ∧ r₀.id ∈ t.seenFiles) → Met D tree t path := by
    intro t ht i hi
    rw [hentry] at hi
    cases hi
    exact ht
  dsimp only
  by_cases hi : inode ∈ s.seenInodes
  · rw [if_pos hi]
    exact ⟨h, hmet s (Or.inl hi)⟩
  rw [if_neg hi]
  have hsnap := h.setSnapshot (some s.view) h.view
  split_ifs with hkeep hresume
  · refine ⟨hsnap.keepRow _ check, hmet _ (Or.inr ?_)⟩
    simp only [Bool.and_eq_true, decide_eq_true_eq, Bool.not_eq_true'] at hkeep
    obtain ⟨⟨⟨⟨hmtime, hsize⟩, hvalid⟩, hname⟩, -⟩ := hkeep
    rcases h.view.describeFile hi hD with hf | ⟨r₀, hr₀, hinode, flags, hf⟩
    · rw [hf] at hvalid
      cases hvalid
    · rw [hf] at hmtime hsize hname
      refine ⟨r₀, hr₀, hinode, hsize, hmtime, fun hgone => ?_, by rw [hf]; exact List.mem_cons_self⟩
      unfold isFileRenamed at hname
      split_ifs at hname with hsame
      · rcases hsame with hsame | hsame
        · exact hempty r₀ hr₀ hsame
        · dsimp only at hsame
          rw [hsame, hentry] at hgone
          cases hgone
      · simp [hgone] at hname
  · -- only a row without digest is resumed
    simp only [Bool.and_eq_true, decide_eq_true_eq, Bool.not_eq_true'] at hresume
    obtain ⟨⟨⟨⟨hid, -⟩, hvalid⟩, -⟩, -⟩ := hresume
    rcases h.view.describeFile hi hD with hf | ⟨r₀, hr₀, hinode, flags, hf⟩
    · rw [hf] at hid
      exact absurd rfl hid
    · rw [hf] at hvalid
      cases hvalid
  · exact ⟨hsnap.store hi hentry fun hren => h.renamed_row hD hi hren,
      hmet _ (Or.inl List.mem_cons_self)⟩

end Steps

section Run

variable {D : List (InodeRow δ)} {tree : DiskTree δ}

theorem InodeScan.seen_step (s : InodeScan δ) (tree : DiskTree δ) (e : InodeEvent) :
    (∀ i ∈ s.seenInodes, i ∈ (s.step tree e).seenInodes) ∧
      ∀ id ∈ s.seenFiles, id ∈ (s.step tree e).seenFiles := by
  cases e with
  | commit => exact ⟨fun _ hi => hi, fun _ hid => hid⟩
  | readFlush => exact ⟨fun _ hi => hi, fun _ hid => hid⟩
  | hashed fileid extra =>
    simp only [step, hashFile]
    split <;> exact ⟨fun _ hi => hi, fun _ hid => hid⟩
  | visit path check resume =>
    simp only [step, scanFile]
    split
    · split_ifs
      · exact ⟨fun _ hi => hi, fun _ hid => hid⟩
      · exact ⟨fun _ hi => hi, fun _ hid => List.mem_cons_of_mem _ hid⟩
      · exact ⟨fun _ hi => List.mem_cons_of_mem _ hi, fun _ hid => List.mem_cons_of_mem _ hid⟩
      · exact ⟨fun _ hi => List.mem_cons_of_mem _ hi, fun _ hid => List.mem_cons_of_mem _ hid⟩
    · exact ⟨fun _ hi => hi, fun _ hid => hid⟩

theorem Met.step {s : InodeScan δ} {path : String} (h : Met D tree s path) (e : InodeEvent) :
    Met D tree (s.step tree e) path := by
  intro i hi
  obtain ⟨hinodes, hfiles⟩ := s.seen_step tree e
  refine (h i hi).imp (hinodes i) ?_
  rintro ⟨r₀, hr₀, hinode, hsize, hmtime, hentry, hid⟩
  exact ⟨r₀, hr₀, hinode, hsize, hmtime, hentry, hfiles _ hid⟩

theorem ScanInv.step (hD : ∀ r ∈ D, r.digest.isSome = true) (hempty : ∀ r ∈ D, r.filename ≠ "")
    {s : InodeScan δ} (h : ScanInv D tree s) (e : InodeEvent) :
    ScanInv D tree (s.step tree e) ∧ ∀ path ∈ visits [e], Met D tree (s.step tree e) path := by
  cases e with
  | commit => exact ⟨h.commit, fun path hp => by simp [visits] at hp⟩
  | readFlush => exact ⟨h.commit.setSnapshot _ h.rows, fun path hp => by simp [visits] at hp⟩
  | hashed fileid extra => exact ⟨h.hashFile fileid extra, fun path hp => by simp [visits] at hp⟩
  | visit path check resume =>
    obtain ⟨hinv, hmet⟩ := h.scanFile hD hempty path check resume
    refine ⟨hinv, fun p hp => ?_⟩
    obtain rfl : p = path := by simpa [visits] using hp
    exact hmet

theorem ScanInv.run (hD : ∀ r ∈ D, r.digest.isSome = true) (hempty : ∀ r ∈ D, r.filename ≠ "")
    {s : InodeScan δ} (h : ScanInv D tree s) (events : List InodeEvent) (met : List String)
    (hmet : ∀ path ∈ met, Met D tree s path) :
    ScanInv D tree (s.run tree events) ∧
      ∀ path ∈ met ++ visits events, Met D tree (s.run tree events) path := by
  induction events generalizing s met with
  | nil => exact ⟨h, by simpa [visits, InodeScan.run] using hmet⟩
  | cons e events ih =>
    obtain ⟨hinv, hnew⟩ := h.step hD hempty e
    have := ih hinv (met ++ visits [e]) fun path hp => by
      rcases List.mem_append.mp hp with hp | hp
      · exact (hmet path hp).step e
      · exact hnew path hp
    rwa [List.append_assoc, show visits [e] ++ visits events = visits (e :: events) from
      (List.filterMap_append).symm] at this

end Run

/-- Files with the same inode, size and mtime in two of the trees have the same content. -/
def StampsTellContent (trees : List (DiskTree δ)) : Prop :=
  ∀ t ∈ trees, ∀ t' ∈ trees, ∀ i, (∃ p, t.entry p = some (.regular i)) →
    (∃ p, t'.entry p = some (.regular i)) → (t.inode i).size = (t'.inode i).size →
    (t.inode i).mtime = (t'.inode i).mtime → (t.inode i).digest = (t'.inode i).digest

/-- Every inode the walk meets has one row, which is right about it. -/
def Tracks (tree : DiskTree δ) (walk : List String) (rows : List (InodeRow δ)) : Prop :=
  ∀ path ∈ walk, ∀ i, tree.entry path = some (.regular i) →
    ∃ r, rows.filter (fun a => decide (a.inode = i)) = [r] ∧
      r.digest = some (tree.inode i).digest ∧ r.size = (tree.inode i).size ∧
      tree.entry r.filename = some (.regular i)

/-- Where the path of the row of an unchanged file is still taken, it is taken by the file. -/
def Followable (tree : DiskTree δ) (walk : List String) (rows : List (InodeRow δ)) : Prop :=
  ∀ r ∈ rows, (∃ path ∈ walk, tree.entry path = some (.regular r.inode)) →
    r.size = (tree.inode r.inode).size → r.mtime = (tree.inode r.inode).mtime →
    tree.entry r.filename ≠ none → tree.entry r.filename = some (.regular r.inode)

structure TableInv (trees : List (DiskTree δ)) (rows : List (InodeRow δ)) : Prop where
  consistent : Consistent InodeRow.clash rows
  origin : ∀ r ∈ rows, r.filename ≠ "" ∧ ∃ t ∈ trees, (∃ p, t.entry p = some (.regular r.inode)) ∧
    r.size = (t.inode r.inode).size ∧ r.mtime = (t.inode r.inode).mtime ∧
    r.digest = some (t.inode r.inode).digest

section History

variable {trees : List (DiskTree δ)} {rows rows' : List (InodeRow δ)} {tree : DiskTree δ}
  {walk : List String}

theorem TableInv.digest (h : TableInv trees rows) : ∀ r ∈ rows, r.digest.isSome = true := by
  intro r hr
  obtain ⟨-, t, -, -, -, -, hd⟩ := h.origin r hr
  rw [hd]
  rfl

theorem TableInv.pruneUnscanned_eq (h : TableInv trees rows) : pruneUnscanned rows = rows :=
  List.filter_eq_self.mpr h.digest

theorem TableInv.scan (h : TableInv trees rows) (tree : DiskTree δ) (events : List InodeEvent) :
    ScanInv rows tree ((InodeScan.init rows).run tree events) ∧
      ∀ path ∈ visits events, Met rows tree ((InodeScan.init rows).run tree events) path := by
  have := (ScanInv.init tree h.consistent).run h.digest (fun r hr => (h.origin r hr).1)
    events [] (fun path hp => by cases hp)
  rwa [List.nil_append] at this

theorem TableInv.scanned (h : TableInv trees rows) (hs : Scanned tree walk rows rows') :
    TableInv (tree :: trees) rows' := by
  obtain ⟨events, -, hqueue, rfl⟩ := hs
  rw [h.pruneUnscanned_eq] at hqueue ⊢
  obtain ⟨hinv, -⟩ := h.scan tree events
  refine ⟨hinv.consistent.filter _, fun r hr => ?_⟩
  have hr := (List.mem_filter.mp hr).1
  rcases hinv.rows.origin r hr with hseen | ⟨r₀, hr₀, hs⟩
  · have hst := hinv.stored r hr hseen
    refine ⟨fun heq => ?_, tree, List.mem_cons_self, ⟨_, hst.path⟩, hst.size, hst.mtime, ?_⟩
    · have := hst.path
      rw [heq, tree.entry_empty] at this
      cases this
    · refine hst.digest.resolve_right ?_
      rintro ⟨item, hitem, -⟩
      rw [hqueue] at hitem
      cases hitem
  · obtain ⟨hne, t, ht, hp, hsize, hmtime, hdigest⟩ := h.origin r₀ hr₀
    rw [hs.filename, hs.inode, hs.size, hs.mtime, hs.digest]
    exact ⟨hne, t, List.mem_cons_of_mem _ ht, hp, hsize, hmtime, hdigest⟩

theorem ScanHistory.inv (h : ScanHistory trees rows) : TableInv trees rows := by
  induction h with
  | nil => exact ⟨List.Pairwise.nil, fun r hr => by cases hr⟩
  | scan tree walk _ hs ih => exact ih.scanned hs

/-- Nothing of a row that is found right is lost to the prune. -/
theorem tracked_of_row {s : InodeScan δ} (hinv : ScanInv rows tree s) {r : InodeRow δ} {i : InodeKey}
    (hr : r ∈ s.rows) (hi : r.inode = i) (hid : r.id ∈ s.seenFiles)
    (hdigest : r.digest = some (tree.inode i).digest) (hsize : r.size = (tree.inode i).size)
    (hpath : tree.entry r.filename = some (.regular i)) :
    ∃ r, (pruneMissing tree s.seenFiles s.rows).filter (fun a => decide (a.inode = i)) = [r] ∧
      r.digest = some (tree.inode i).digest ∧ r.size = (tree.inode i).size ∧
      tree.entry r.filename = some (.regular i) := by
  refine ⟨r, ?_, hdigest, hsize, hpath⟩
  refine (hinv.consistent.filter _).filter_eq_singleton InodeRow.clash_refl InodeRow.clash_symm
    (List.mem_filter.mpr ⟨hr, by simp [hid]⟩) (by simp [hi]) fun a _ ha => ?_
  have hai : a.inode = i := by simpa using ha
  simp [InodeRow.clash, hai, hi]

theorem TableInv.tracks (h : TableInv trees rows) (hstamps : StampsTellContent (tree :: trees))
    (hfollow : Followable tree walk rows) (hs : Scanned tree walk rows rows') :
    Tracks tree walk rows' := by
  obtain ⟨events, rfl, hqueue, rfl⟩ := hs
  rw [h.pruneUnscanned_eq] at hqueue ⊢
  obtain ⟨hinv, hmet⟩ := h.scan tree events
  intro path hpath i hentry
  rcases hmet path hpath i hentry with hseen | ⟨r₀, hr₀, rfl, hsize, hmtime, hne, hid⟩
  · obtain ⟨r, hr, rfl⟩ := hinv.exists_row i hseen
    have hst := hinv.stored r hr hseen
    refine tracked_of_row hinv hr rfl hst.seen (hst.digest.resolve_right ?_) hst.size hst.path
    rintro ⟨item, hitem, -⟩
    rw [hqueue] at hitem
    cases hitem
  · by_cases hseen : r₀.inode ∈ ((InodeScan.init rows).run tree events).seenInodes
    · obtain ⟨r, hr, heq⟩ := hinv.exists_row _ hseen
      have hst := hinv.stored r hr (heq ▸ hseen)
      refine tracked_of_row hinv hr heq hst.seen (heq ▸ hst.digest.resolve_right ?_)
        (heq ▸ hst.size) (heq ▸ hst.path)
      rintro ⟨item, hitem, -⟩
      rw [hqueue] at hitem
      cases hitem
    · -- its row has been left alone, and nothing else was written under its path
      have hown := hfollow r₀ hr₀ ⟨path, hpath, hentry⟩ hsize hmtime hne
      rcases hinv.rows.kept r₀ hr₀ with hin | ⟨r, hr, hs⟩ | ⟨j, hj, hother⟩
      · exact absurd hin hseen
      · obtain ⟨-, t, ht, hp, hsize', hmtime', hdigest⟩ := h.origin r₀ hr₀
        refine tracked_of_row hinv hr hs.inode (hs.id ▸ hid) ?_ (hs.size.trans hsize)
          (hs.filename ▸ hown)
        rw [hs.digest, hdigest]
        exact congrArg some (hstamps t (List.mem_cons_of_mem _ ht) tree List.mem_cons_self r₀.inode hp
          ⟨path, hentry⟩ (hsize'.symm.trans hsize) (hmtime'.symm.trans hmtime))
      · rw [hown] at hother
        exact absurd (DirEntry.regular.inj (Option.some.inj hother)).symm hj

/-- The workers can always be done with what they have been handed. -/
theorem InodeScan.run_hashed_queued (s : InodeScan δ) (tree : DiskTree δ) :
    ∃ events, visits events = [] ∧
    (s.run tree events).queued = [] ∧ (s.run tree events).seenInodes = s.seenInodes := by
  induction hq : s.queued generalizing s with
  | nil => exact ⟨[], rfl, hq, rfl⟩
  | cons item queued ih =>
    have hstep : (s.hashFile tree item.1 0).queued = queued ∧
        (s.hashFile tree item.1 0).seenInodes = s.seenInodes := by
      have hfind : s.queued.find? (fun i => decide (i.1 = item.1)) = some item := by simp [hq]
      unfold hashFile
      rw [hfind]
      exact ⟨by simp [hq], rfl⟩
    obtain ⟨events, hv, hdone, hseen⟩ := ih _ hstep.1
    exact ⟨.hashed item.1 0 :: events, hv, hdone, hseen.trans hstep.2⟩

/-- While neither connection moves on, the walk passes over a file whose row is up to date and
whose old path is still taken. -/
theorem InodeScan.run_visits_keep (h : TableInv trees rows) {r : InodeRow δ} (hr : r ∈ rows)
    (hsize : r.size = (tree.inode r.inode).size) (hmtime : r.mtime = (tree.inode r.inode).mtime)
    (hentry : tree.entry r.filename ≠ none) (walk : List String) {s : InodeScan δ}
    (hview : s.view = rows) (hseen : r.inode ∉ s.seenInodes) :
    r.inode ∉ (s.run tree (walk.map fun path => .visit path .unasked false)).seenInodes := by
  have hdescribe : ∃ flags, describeFile rows r.inode =
      ⟨r.id, r.filename, r.mtime, r.size, true, flags⟩ := by
    unfold describeFile
    cases hfind : rows.find? fun a => decide (a.inode = r.inode) with
    | none => simpa using List.find?_eq_none.mp hfind r hr
    | some a =>
      have ha : a.inode = r.inode := by simpa using List.find?_some hfind
      obtain rfl : a = r := h.consistent.eq_of_clash InodeRow.clash_symm
        (List.mem_of_find?_eq_some hfind) hr (by simp [InodeRow.clash, ha])
      exact ⟨a.flags.getD 0, by dsimp only; rw [h.digest a hr]⟩
  induction walk generalizing s with
  | nil => exact hseen
  | cons path walk ih =>
    have hstep : (s.scanFile tree path .unasked false).view = rows ∧
        r.inode ∉ (s.scanFile tree path .unasked false).seenInodes := by
      unfold scanFile
      cases hp : tree.entry path with
      | none => exact ⟨hview, hseen⟩
      | some e =>
      cases e with
      | other => exact ⟨hview, hseen⟩
      | regular inode =>
      dsimp only
      rw [hview]
      by_cases hi : inode ∈ s.seenInodes
      · rw [if_pos hi]
        exact ⟨hview, hseen⟩
      rw [if_neg hi]
      by_cases hown : inode = r.inode
      · subst hown
        obtain ⟨flags, hf⟩ := hdescribe
        have hname : isFileRenamed tree r.filename path = false := by
          unfold isFileRenamed
          split_ifs
          · rfl
          · exact Option.isNone_eq_false_iff.mpr (Option.isSome_iff_ne_none.mpr hentry)
        rw [hf, if_pos (by simp [hname, hsize, hmtime])]
        exact ⟨rfl, hseen⟩
      · split_ifs
        · exact ⟨rfl, hseen⟩
        · exact ⟨rfl, List.not_mem_cons_of_ne_of_not_mem (Ne.symm hown) hseen⟩
        · exact ⟨rfl, List.not_mem_cons_of_ne_of_not_mem (Ne.symm hown) hseen⟩
    exact ih hstep.1 hstep.2

/-- A scan in which the row of a moved file is not put right. -/
theorem TableInv.exists_untracked (h : TableInv trees rows) {r : InodeRow δ} (hr : r ∈ rows)
    {path : String} (hpath : path ∈ walk) (hat : tree.entry path = some (.regular r.inode))
    (hsize : r.size = (tree.inode r.inode).size) (hmtime : r.mtime = (tree.inode r.inode).mtime)
    (hentry : tree.entry r.filename ≠ none)
    (hother : tree.entry r.filename ≠ some (.regular r.inode)) :
    ∃ rows', Scanned tree walk rows rows' ∧ ¬ Tracks tree walk rows' := by
  have hseen := InodeScan.run_visits_keep h hr hsize hmtime hentry walk
    (s := InodeScan.init rows) rfl (by simp [InodeScan.init])
  set listed := (InodeScan.init rows).run tree (walk.map fun path => .visit path .unasked false)
    with hlisted
  obtain ⟨events, hv, hdone, hkeeps⟩ := listed.run_hashed_queued tree
  have hrun : (InodeScan.init rows).run tree
      ((walk.map fun path => .visit path .unasked false) ++ events) = listed.run tree events := by
    rw [hlisted, InodeScan.run, List.foldl_append]
    rfl
  refine ⟨_, ⟨(walk.map fun path => .visit path .unasked false) ++ events, ?_, ?_, rfl⟩, ?_⟩
  · have : visits (walk.map fun path => InodeEvent.visit path .unasked false) = walk := by
      simp [visits, List.filterMap_map]
    rw [visits, List.filterMap_append, ← visits, ← visits, hv, this, List.append_nil]
  · rw [h.pruneUnscanned_eq, hrun, hdone]
  · intro htracks
    rw [h.pruneUnscanned_eq, hrun] at htracks
    obtain ⟨a, ha, -, -, hown⟩ := htracks path hpath r.inode hat
    obtain ⟨hinv, -⟩ := h.scan tree
      ((walk.map fun path => .visit path .unasked false) ++ events)
    rw [hrun] at hinv
    have hmem : a ∈ List.filter (fun a => decide (a.inode = r.inode)) _ := ha ▸ List.mem_singleton_self a
    obtain ⟨hmem, hai⟩ := List.mem_filter.mp hmem
    have hai : a.inode = r.inode := by simpa using hai
    rcases hinv.rows.origin a (List.mem_filter.mp hmem).1 with hin | ⟨r₀, hr₀, hs⟩
    · rw [hai, hkeeps] at hin
      exact hseen hin
    · obtain rfl : r₀ = r := h.consistent.eq_of_clash InodeRow.clash_symm hr₀ hr
        (by simp [InodeRow.clash, ← hs.inode, hai])
      exact hother (hs.filename ▸ hown)

end History

/-- After any history of complete scans, every complete scan of a tree leaves each inode it meets
one row that is right about it, if and only if no unchanged file has left its path to something
else. -/
theorem scan_tracks_inodes_iff (trees : List (DiskTree δ)) (rows : List (InodeRow δ))
    (h : ScanHistory trees rows) (tree : DiskTree δ) (walk : List String)
    (hstamps : StampsTellContent (tree :: trees)) :
    (∀ rows', Scanned tree walk rows rows' → Tracks tree walk rows') ↔
      Followable tree walk rows := by
  constructor
  · intro htracks r hr hwalk hsize hmtime hentry
    by_contra hother
    obtain ⟨path, hpath, hat⟩ := hwalk
    obtain ⟨rows', hs, hnot⟩ := h.inv.exists_untracked hr hpath hat hsize hmtime hentry hother
    exact hnot (htracks rows' hs)
  · exact fun hfollow rows' hs => h.inv.tracks hstamps hfollow hs

end

section Example

def pairTree (a b : InodeKey) : DiskTree ℕ where
  entry path := if path = "a" then some (.regular a) else if path = "b" then some (.regular b)
    else none
  missing path := decide (path ≠ "a" ∧ path ≠ "b")
  inode i := ⟨10, 100 + i.ino, i.ino⟩
  entry_empty := by simp
  missing_regular path i h := by
    by_cases ha : path = "a"
    · simp [ha]
    · by_cases hb : path = "b"
      · simp [hb]
      · simp [ha, hb] at h

theorem stampsTellContent_pairTree (a b c d : InodeKey) :
    StampsTellContent [pairTree a b, pairTree c d] := by
  intro t ht t' ht' i _ _ _ _
  simp only [List.mem_cons, List.not_mem_nil, or_false] at ht ht'
  rcases ht with rfl | rfl <;> rcases ht' with rfl | rfl <;> rfl

def pairRows : List (InodeRow ℕ) :=
  [⟨1, ⟨1, 5⟩, "a", 10, 101, some 1, some FILE_SCAN_CHECKED⟩,
    ⟨2, ⟨2, 5⟩, "b", 10, 102, some 2, some FILE_SCAN_CHECKED⟩]

theorem scanHistory_pairRows : ScanHistory [pairTree ⟨1, 5⟩ ⟨2, 5⟩] pairRows :=
  .scan _ ["a", "b"] .nil
    ⟨[.visit "a" .rehash false, .visit "b" .rehash false, .hashed 1 0, .hashed 2 0],
      by decide +kernel, by decide +kernel, by decide +kernel⟩

/-- The two files have swapped their names since the last scan. -/
theorem scan_loses_swapped : ∃ rows', ScanHistory [pairTree ⟨1, 5⟩ ⟨2, 5⟩] pairRows ∧
    StampsTellContent [pairTree ⟨2, 5⟩ ⟨1, 5⟩, pairTree ⟨1, 5⟩ ⟨2, 5⟩] ∧
    Scanned (pairTree ⟨2, 5⟩ ⟨1, 5⟩) ["a", "b"] pairRows rows' ∧
    ¬ Tracks (pairTree ⟨2, 5⟩ ⟨1, 5⟩) ["a", "b"] rows' := by
  refine ⟨pairRows, scanHistory_pairRows, stampsTellContent_pairTree _ _ _ _,
    ⟨[.visit "a" .rehash false, .visit "b" .rehash false], by decide +kernel, by decide +kernel,
      by decide +kernel⟩, fun htracks => ?_⟩
  obtain ⟨r, hr, -, -, hpath⟩ := htracks "a" (by decide) ⟨2, 5⟩ (by decide)
  obtain rfl : r = ⟨2, ⟨2, 5⟩, "b", 10, 102, some 2, some FILE_SCAN_CHECKED⟩ := by
    simpa [pairRows, eq_comm] using hr
  exact absurd hpath (by decide)

theorem scan_tracks_inodes_iff_pair :
    (∀ rows', Scanned (pairTree ⟨1, 5⟩ ⟨3, 5⟩) ["b", "a"] pairRows rows' →
      Tracks (pairTree ⟨1, 5⟩ ⟨3, 5⟩) ["b", "a"] rows') ↔
      Followable (pairTree ⟨1, 5⟩ ⟨3, 5⟩) ["b", "a"] pairRows :=
  scan_tracks_inodes_iff _ _ scanHistory_pairRows _ _ (stampsTellContent_pairTree _ _ _ _)

end Example

end Oans
