import Oans.SeedWalk

/-!
# Seeding and the walk

A way down from a root is open where every directory on it is listed and every entry accepted. A
walker on the way always goes on: the next name is in a queue, or among the entries that a walker
has still to meet. When nothing is left to walk, the end of the way has been queued.
-/

namespace Oans

open PathResolution Relation

namespace TreeWalk

variable {ν Dev U : Type*} {n : ℕ} (w : TreeWalk ν Dev U n)
  (r : LockedFs Dev U × Entry Path Path)

@[simp] theorem queue_locked : (w.queue r).locked = r.1 := by
  obtain ⟨l, entry⟩ := r
  cases entry <;> rfl

@[simp] theorem queue_reader : (w.queue r).reader = w.reader := by
  obtain ⟨l, entry⟩ := r
  cases entry <;> rfl

theorem mem_queue_walkFileq {f : Path} :
    f ∈ (w.queue r).walkFileq ↔ f ∈ w.walkFileq ∨ r.2 = .file f := by
  obtain ⟨l, entry⟩ := r
  cases entry <;> simp [queue, eq_comm]

theorem mem_queue_walkDirq {d : Path} :
    d ∈ (w.queue r).walkDirq ↔ d ∈ w.walkDirq ∨ r.2 = .dir d := by
  obtain ⟨l, entry⟩ := r
  cases entry <;> simp [queue, eq_comm]

theorem forall_setReader {P : DirReader ν → Prop} {t : Fin n} {r : Option (DirReader ν)}
    (hr : ∀ r' ∈ r, P r') (hw : ∀ t, ∀ r' ∈ w.reader t, P r') :
    ∀ t', ∀ r' ∈ (w.setReader t r).reader t', P r' := by
  intro t' r' hr'
  by_cases ht : t' = t
  · subst ht
    exact hr r' (by simpa [setReader] using hr')
  · exact hw t' r' (by simpa [setReader, ht] using hr')

end TreeWalk

namespace Scan

variable {ν Dev U : Type*} [DecidableEq Dev] [DecidableEq U] {s : Scan ν Dev U}
  {l l' : LockedFs Dev U}

/-- A name in a directory is listed, and is queued by any walker that meets it from now on. -/
structure Enters (s : Scan ν Dev U) (l : LockedFs Dev U) (dirs : List Path) (c : Path)
    (rest : List Path) : Prop where
  lists : s.Lists (render dirs) c
  queued : ∀ l' dirp e, LockedFs.Later l l' → s.Answered l' →
    s.volume.longpathOpendir (render dirs) = some dirp → e.name = c → s.takesEntry e = true →
    (s.processEntry l' (render dirs) dirp e).2 =
      if rest = [] then .file (render (dirs ++ [c])) else .dir (render (dirs ++ [c]))

def Coming (s : Scan ν Dev U) {n : ℕ} (w : TreeWalk ν Dev U n) (root : List Path)
    (p : CanonicalPath) : Prop :=
  p.bytes ∈ w.walkFileq ∨ ∃ dirs c rest, p.names = dirs ++ c :: rest ∧ root <+: dirs ∧
    (render dirs ∈ w.walkDirq ∨ ∃ t dirp es e, w.reader t = some ⟨render dirs, dirp, es⟩ ∧
      s.volume.longpathOpendir (render dirs) = some dirp ∧ e ∈ es ∧ e.name = c ∧
      s.takesEntry e = true)

/-- A step of the walk brings it nearer to a path with an open way, or leaves it as near. -/
theorem Coming.step {n : ℕ} {w w' : TreeWalk ν Dev U n} {root : List Path} {p : CanonicalPath}
    (hway : ∀ dirs c rest, p.names = dirs ++ c :: rest → root <+: dirs → s.Enters l dirs c rest)
    (hlater : LockedFs.Later l w.locked) (ha : s.Answered w.locked) (h : s.Coming w root p)
    (hstep : TreeWalk.Step s w w') : s.Coming w' root p := by
  cases hstep with
  | @opendir t path q hidle hq =>
    refine h.imp id ?_
    rintro ⟨dirs, c, rest, hnames, hroot, hwhere⟩
    refine ⟨dirs, c, rest, hnames, hroot, ?_⟩
    rcases hwhere with hdirq | ⟨t', dirp, es, e, hreader, hopen, hrest⟩
    · rw [hq, List.mem_cons] at hdirq
      rcases hdirq with heq | hdirq
      · obtain ⟨dirp, hopen, e, he, hname, htakes⟩ := (hway dirs c rest hnames hroot).lists
        refine Or.inr ⟨t, dirp, s.volume.readdir dirp, e, ?_, hopen, he, hname, htakes⟩
        simp [TreeWalk.setReader, ← heq, hopen]
      · exact Or.inl hdirq
    · have hne : t' ≠ t := by
        rintro rfl
        rw [hidle] at hreader
        cases hreader
      exact Or.inr ⟨t', dirp, es, e, by simpa [TreeWalk.setReader, hne] using hreader, hopen, hrest⟩
  | @entry t path dirp e es hreader =>
    rcases h with hfile | ⟨dirs, c, rest, hnames, hroot, hwhere⟩
    · exact Or.inl ((w.mem_queue_walkFileq _).mpr (Or.inl hfile))
    · rcases hwhere with hdirq | ⟨t', dirp', es', e', hreader', hopen, he', hname, htakes⟩
      · exact Or.inr ⟨dirs, c, rest, hnames, hroot,
          Or.inl ((w.mem_queue_walkDirq _).mpr (Or.inl hdirq))⟩
      · by_cases ht : t' = t
        · subst ht
          rw [hreader, Option.some.injEq, DirReader.mk.injEq] at hreader'
          obtain ⟨rfl, rfl, rfl⟩ := hreader'
          rcases List.mem_cons.mp he' with rfl | he'
          · -- the walker meets the name the way goes on with
            have hqueued := (hway dirs c rest hnames hroot).queued w.locked dirp e' hlater ha hopen
              hname htakes
            cases rest with
            | nil =>
              refine Or.inl ((w.mem_queue_walkFileq _).mpr (Or.inr ?_))
              rw [hqueued, if_pos rfl, CanonicalPath.bytes, hnames]
            | cons c' rest =>
              rw [if_neg (List.cons_ne_nil c' rest)] at hqueued
              exact Or.inr ⟨dirs ++ [c], c', rest, by simp [hnames],
                hroot.trans (List.prefix_append _ _),
                Or.inl ((w.mem_queue_walkDirq _).mpr (Or.inr hqueued))⟩
          · exact Or.inr ⟨dirs, c, rest, hnames, hroot, Or.inr ⟨t', dirp, es, e', by
              simp [TreeWalk.setReader], hopen, he', hname, htakes⟩⟩
        · exact Or.inr ⟨dirs, c, rest, hnames, hroot, Or.inr ⟨t', dirp', es', e', by
            simpa [TreeWalk.setReader, ht] using hreader', hopen, he', hname, htakes⟩⟩
  | @closedir t path dirp hreader =>
    refine h.imp id ?_
    rintro ⟨dirs, c, rest, hnames, hroot, hwhere⟩
    refine ⟨dirs, c, rest, hnames, hroot, hwhere.imp id ?_⟩
    rintro ⟨t', dirp', es, e, hreader', hopen, he, hrest⟩
    have hne : t' ≠ t := by
      rintro rfl
      rw [hreader] at hreader'
      cases hreader'
      cases he
    exact ⟨t', dirp', es, e, by simpa [TreeWalk.setReader, hne] using hreader', hopen, he, hrest⟩

theorem processEntry_goes (ha : s.Answered l) (hl : l.Locked) (path : Path) (dirp : ν)
    (e : Dirent) : s.Goes l (s.processEntry l path dirp e).1 := by
  unfold processEntry
  split
  · exact ⟨ha, .refl l⟩
  · split
    · exact ⟨ha, .refl l⟩
    · split
      · exact ⟨ha, .refl l⟩
      · next st _ =>
        split
        · exact ⟨ha, .refl l⟩
        · exact goes_checkFile ha hl _ st

theorem step_goes {n : ℕ} {w w' : TreeWalk ν Dev U n} (ha : s.Answered w.locked)
    (hl : w.locked.Locked) (hstep : TreeWalk.Step s w w') : s.Goes w.locked w'.locked := by
  cases hstep with
  | opendir => exact ⟨ha, .refl _⟩
  | @entry t path dirp e es =>
    have hgoes := processEntry_goes ha hl path dirp e
    simpa [TreeWalk.setReader] using hgoes
  | closedir => exact ⟨ha, .refl _⟩

theorem run_goes {n : ℕ} {w w' : TreeWalk ν Dev U n} (ha : s.Answered w.locked)
    (hl : w.locked.Locked) (hrun : ReflTransGen (TreeWalk.Step s) w w') :
    s.Goes w.locked w'.locked := by
  induction hrun with
  | refl => exact ⟨ha, .refl _⟩
  | tail _ hstep ih =>
    obtain ⟨ha', hlater⟩ := step_goes ih.answered (ih.later.locked hl) hstep
    exact ⟨ha', ih.later.trans hlater⟩

theorem Coming.run {n : ℕ} {w w' : TreeWalk ν Dev U n} {root : List Path} {p : CanonicalPath}
    (hway : ∀ dirs c rest, p.names = dirs ++ c :: rest → root <+: dirs →
      s.Enters w.locked dirs c rest)
    (ha : s.Answered w.locked) (hl : w.locked.Locked) (h : s.Coming w root p)
    (hrun : ReflTransGen (TreeWalk.Step s) w w') : s.Coming w' root p := by
  induction hrun with
  | refl => exact h
  | tail hrun hstep ih =>
    obtain ⟨ha', hlater⟩ := run_goes ha hl hrun
    exact ih.step hway hlater ha' hstep

omit [DecidableEq Dev] [DecidableEq U] in
/-- Nothing left to walk: the end of the way has been queued. -/
theorem Coming.of_finished {n : ℕ} {w : TreeWalk ν Dev U n} {root : List Path}
    {p : CanonicalPath} (h : s.Coming w root p) (hdone : w.Finished) : p.bytes ∈ w.walkFileq := by
  rcases h with hfile | ⟨_, _, _, _, _, hdirq | ⟨t, _, _, _, hreader, _⟩⟩
  · exact hfile
  · rw [hdone.1] at hdirq
    cases hdirq
  · rw [hdone.2 t] at hreader
    cases hreader

structure ReaderListed (s : Scan ν Dev U) (scanRootPaths : List Path) (r : DirReader ν) : Prop where
  listed : s.Listed scanRootPaths r.path
  opendir : s.volume.longpathOpendir r.path = some r.dirp
  entries : r.entries ⊆ s.volume.readdir r.dirp

structure WalkListed (s : Scan ν Dev U) (scanRootPaths : List Path) {n : ℕ}
    (w : TreeWalk ν Dev U n) : Prop where
  walkDirq : ∀ path ∈ w.walkDirq, s.Listed scanRootPaths path
  walkFileq : ∀ path ∈ w.walkFileq, s.Listed scanRootPaths path
  reader : ∀ t, ∀ r ∈ w.reader t, s.ReaderListed scanRootPaths r

theorem processEntry_queues {path child : Path} {dirp : ν} {e : Dirent}
    (h : (s.processEntry l path dirp e).2 = .file child ∨
      (s.processEntry l path dirp e).2 = .dir child) :
    s.takesEntry e = true ∧ child = childPath path e.name := by
  unfold processEntry at h
  split at h
  · simp at h
  · next htakes =>
    refine ⟨by simpa using htakes, ?_⟩
    split at h
    · simp at h
    · split at h
      · simp at h
      · split at h
        · simp at h
        · dsimp only at h
          split_ifs at h <;> simp_all

theorem walkListed_step {scanRootPaths : List Path} {n : ℕ} {w w' : TreeWalk ν Dev U n}
    (h : s.WalkListed scanRootPaths w) (hstep : TreeWalk.Step s w w') :
    s.WalkListed scanRootPaths w' := by
  cases hstep with
  | @opendir t path q hidle hq =>
    refine ⟨fun d hd => h.walkDirq d (hq ▸ List.mem_cons_of_mem path hd), h.walkFileq,
      TreeWalk.forall_setReader _ (fun r hr => ?_) h.reader⟩
    obtain ⟨dirp, hopen, rfl⟩ := Option.map_eq_some_iff.mp hr
    exact ⟨h.walkDirq path (hq ▸ List.mem_cons_self), hopen, List.Subset.refl _⟩
  | @entry t path dirp e es hreader =>
    obtain ⟨hlisted, hopen, hsub⟩ := h.reader t _ hreader
    obtain ⟨he, hes⟩ := List.cons_subset.mp hsub
    have hchild : ∀ child, ((s.processEntry w.locked path dirp e).2 = .file child ∨
        (s.processEntry w.locked path dirp e).2 = .dir child) →
        s.Listed scanRootPaths child := fun child hqueued => by
      obtain ⟨htakes, rfl⟩ := processEntry_queues hqueued
      exact .entry hlisted ⟨dirp, hopen, e, he, rfl, htakes⟩
    refine ⟨fun d hd => ?_, fun f hf => ?_,
      TreeWalk.forall_setReader _ (fun r hr => ?_) (fun t' => ?_)⟩
    · rcases (w.mem_queue_walkDirq _).mp hd with hold | hnew
      · exact h.walkDirq d hold
      · exact hchild d (Or.inr hnew)
    · rcases (w.mem_queue_walkFileq _).mp hf with hold | hnew
      · exact h.walkFileq f hold
      · exact hchild f (Or.inl hnew)
    · obtain rfl := Option.some.inj hr
      exact ⟨hlisted, hopen, hes⟩
    · rw [TreeWalk.queue_reader]
      exact h.reader t'
  | @closedir t path dirp hreader =>
    exact ⟨h.walkDirq, h.walkFileq,
      TreeWalk.forall_setReader _ (fun r hr => by cases hr) h.reader⟩

omit [DecidableEq Dev] [DecidableEq U] in
/-- A listed path in names: from a root, every name is listed in the directory before it. -/
theorem Listed.names {scanRootPaths : List Path} (hroots : Canonical scanRootPaths) {path : Path}
    (h : s.Listed scanRootPaths path) : ∃ p : CanonicalPath, ∃ root, path = p.bytes ∧
      root <+: p.names ∧ render root ∈ scanRootPaths ∧
      ∀ dirs c rest, p.names = dirs ++ c :: rest → root <+: dirs → s.Lists (render dirs) c := by
  induction h with
  | @root path hmem =>
    obtain ⟨p, rfl⟩ := hroots path hmem
    refine ⟨p, p.names, rfl, List.prefix_rfl, hmem, fun dirs c rest hnames hroot => ?_⟩
    have := hroot.length_le
    have := congrArg List.length hnames
    simp at this
    omega
  | @entry path name _ hlists ih =>
    obtain ⟨p, root, rfl, hunder, hmem, hway⟩ := ih
    have hname : IsName name := by
      obtain ⟨dirp, -, e, he, rfl, -⟩ := hlists
      exact s.volume.readdir_name he
    have hvalid : ∀ c ∈ p.names ++ [name], IsName c := by
      intro c hc
      rcases List.mem_append.mp hc with hc | hc
      · exact p.isName c hc
      · exact List.mem_singleton.mp hc ▸ hname
    refine ⟨⟨p.names ++ [name], hvalid⟩, root, childPath_render p.isName name,
      hunder.trans (List.prefix_append _ _), hmem, fun dirs c rest hnames hroot => ?_⟩
    have hsplit : p.names ++ [name] = dirs ++ c :: rest := hnames
    rcases List.eq_nil_or_concat rest with rfl | ⟨rest, last, rfl⟩
    · obtain ⟨hfront, hlast⟩ := List.append_inj' hsplit rfl
      obtain rfl := List.singleton_inj.mp hlast
      exact hfront ▸ hlists
    · have hnames : p.names ++ [name] = dirs ++ c :: rest ++ [last] := by simpa using hsplit
      obtain ⟨hfront, -⟩ := List.append_inj' hnames rfl
      exact hway dirs c rest hfront hroot

/-- Whether the path can be opened, where the answer about its subvolume matters. -/
def Settled (s : Scan ν Dev U) (l : LockedFs Dev U) (path : Path) : Prop :=
  ∀ st, s.volume.statxAt path false = some st → s.Readonly l st →
    (s.volume.longpathOpen path false).isSome

omit [DecidableEq Dev] [DecidableEq U] in
theorem Settled.later {path : Path} (h : s.Settled l path) (hlater : LockedFs.Later l l') :
    s.Settled l' path :=
  fun st hst hro => h st hst ⟨hlater.isBtrfs.symm.trans hro.1, hro.2⟩

theorem Vouched.accepts {path : Path} {kind : FileKind} (h : s.Vouched l path kind)
    (hsettled : s.Settled l path) (hlater : LockedFs.Later l l') (ha' : s.Answered l') :
    ∃ st, s.volume.statxAt path false = some st ∧ st.kind = kind ∧
      (s.checkFile l' path st true).1 = true := by
  obtain ⟨l₀, st, ha, hl, hst, hkind, haccept, hfrom⟩ := h.accepted
  refine ⟨st, hst, hkind, checkFile_again ha hl haccept (fun hro => hsettled st hst ?_)
    (hfrom.trans hlater) ha'⟩
  exact ⟨(((checkFile_later ha hl).trans hfrom).isBtrfs).trans hro.1, hro.2⟩

omit [DecidableEq Dev] [DecidableEq U] in
/-- What the seeder found at a path is what is looked up in its directory. -/
theorem lookup_of_statxAt {dirs : List Path} {c : Path} {n : ν} {st : Statx Dev}
    (hvalid : ∀ d ∈ dirs ++ [c], IsName d)
    (hleads : Leads s.volume.toDirTree s.volume.root dirs n)
    (hst : s.volume.statxAt (render (dirs ++ [c])) false = some st) :
    ∃ m, s.volume.lookup n c = .ok m ∧ s.volume.statx m = some st := by
  unfold Volume.statxAt at hst
  split at hst
  · obtain ⟨m, hresolve, hstatx⟩ := Option.bind_eq_some_iff.mp hst
    rw [s.volume.resolve_eq_some_iff, components_render hvalid, hleads.resolves_concat] at hresolve
    exact ⟨m, hresolve, hstatx⟩
  · cases hst

/-- An entry that is accepted goes to the queue of its kind. -/
theorem processEntry_of_accepted {path : Path} {dirp m : ν} {e : Dirent} {st : Statx Dev}
    (htakes : s.takesEntry e = true) (hlookup : s.volume.lookup dirp e.name = .ok m)
    (hst : s.volume.statx m = some st)
    (hkind : st.kind = .reg ∨ st.kind = .dir ∧ s.options.recurseDirs = true)
    (haccept : (s.checkFile l (childPath path e.name) st true).1 = true) :
    (s.processEntry l path dirp e).2 = if st.kind = .reg then .file (childPath path e.name)
      else .dir (childPath path e.name) := by
  have hwalk : s.walkTakes (st.kind = .reg) (st.kind = .dir) = true := by
    rcases hkind with hreg | ⟨hdir, hrecurse⟩
    · simp [walkTakes, hreg]
    · simp [walkTakes, hdir, hrecurse]
  unfold processEntry
  rw [htakes, if_neg (by simp)]
  simp only [hlookup, hst, hwalk, haccept]
  rcases hkind with hreg | ⟨hdir, hrecurse⟩
  · simp [hreg]
  · simp [hdir, hrecurse]

/-- A directory below the seeder's root, on the way to the path. -/
theorem Seeded.dir {scanRootPaths root dirs rest : List Path} {p : CanonicalPath} {c c' : Path}
    (h : s.Seeded scanRootPaths l p root) (hroot : root <+: dirs)
    (hnames : p.names = dirs ++ c :: c' :: rest) :
    s.options.recurseDirs = true ∧ s.Vouched l (render (dirs ++ [c])) .dir := by
  obtain ⟨more, rfl⟩ := hroot
  obtain ⟨r, below, hmore⟩ := List.exists_cons_of_ne_nil (show more ++ [c] ≠ [] by simp)
  have hdirs : root ++ more ++ [c] = root ++ r :: below := by rw [List.append_assoc, hmore]
  rw [hdirs]
  refine h.between r below c' rest ?_
  rw [← hdirs, hnames]
  simp

/-- From the start of an open way its directories are looked up one in the other. -/
theorem Seeded.leads {r : ScanRoots Dev U} {root start dirs rest : List Path} {p : CanonicalPath}
    {c : Path} (h : s.Seeded r.scanRootPaths l p root) (hr : s.RootsHold r)
    (hstart : render start ∈ r.scanRootPaths) (hroot : root <+: start)
    (hnames : p.names = start ++ dirs ++ c :: rest) :
    ∃ n, Leads s.volume.toDirTree s.volume.root (start ++ dirs) n ∧
      (dirs ≠ [] → s.volume.target n = none) := by
  induction dirs using List.reverseRecOn generalizing c rest with
  | nil =>
    obtain ⟨q, n, st, hq, hleads, -⟩ := hr.root _ hstart
    have hvalid : ∀ d ∈ start, IsName d := fun d hd => p.isName d (by simp [hnames, hd])
    have hsame := render_injOn hvalid q.isName hq
    exact ⟨n, by rwa [List.append_nil, hsame], fun hne => absurd rfl hne⟩
  | append_singleton dirs d ih =>
    have hnames' : p.names = start ++ dirs ++ d :: c :: rest := by simp [hnames]
    obtain ⟨n, hleads, -⟩ := ih hnames'
    obtain ⟨-, hvouched⟩ := h.dir (hroot.trans (List.prefix_append start dirs)) hnames'
    obtain ⟨l₀, st, -, -, hst, hkind, -, -⟩ := hvouched.accepted
    have hvalid : ∀ d' ∈ start ++ dirs ++ [d], IsName d' := fun d' hd' => by
      refine p.isName d' ?_
      rw [hnames']
      simp only [List.mem_append, List.mem_cons] at hd' ⊢
      tauto
    obtain ⟨m, hlookup, hstatx⟩ := lookup_of_statxAt hvalid hleads hst
    have hstay : s.volume.target m = none :=
      Volume.target_of_statx hstatx (by rw [hkind]; decide)
    rw [← List.append_assoc]
    exact ⟨m, leads_concat hleads hlookup hstay, fun _ => hstay⟩

/-- A seeded path that is listed has an open way, from the lower of the roots that seeding and the
listing begin at. -/
theorem Seeded.exists_way {r : ScanRoots Dev U} {root : List Path} {p : CanonicalPath}
    (h : s.Seeded r.scanRootPaths l p root) (hr : s.RootsHold r)
    (hlisted : s.Listed r.scanRootPaths p.bytes) (hsettled : s.Settled l p.bytes) :
    ∃ start, render start ∈ r.scanRootPaths ∧ start <+: p.names ∧
      ∀ dirs c rest, p.names = dirs ++ c :: rest → start <+: dirs → s.Enters l dirs c rest := by
  obtain ⟨p', root', hbytes, hunder', hmem', hlists'⟩ := hlisted.names hr.canonical
  rw [← CanonicalPath.bytes_inj hbytes] at hunder' hlists'
  obtain ⟨start, hmem, hunder, hroot, hlists⟩ : ∃ start, render start ∈ r.scanRootPaths ∧
      start <+: p.names ∧ root <+: start ∧
      ∀ dirs c rest, p.names = dirs ++ c :: rest → start <+: dirs → s.Lists (render dirs) c := by
    rcases List.prefix_or_prefix_of_prefix h.under hunder' with hle | hle
    · exact ⟨root', hmem', hunder', hle, hlists'⟩
    · exact ⟨root, h.mem, h.under, List.prefix_rfl,
        fun dirs c rest hnames hstart => hlists' dirs c rest hnames (hle.trans hstart)⟩
  refine ⟨start, hmem, hunder, fun dirs c rest hnames hstart =>
    ⟨hlists dirs c rest hnames hstart, fun l' dirp e hlater ha' hopen hname htakes => ?_⟩⟩
  have hrootdirs := hroot.trans hstart
  obtain ⟨more, rfl⟩ := hstart
  obtain ⟨n, hleads, -⟩ := h.leads hr hmem hroot hnames
  have hvalid : ∀ d ∈ start ++ more ++ [c], IsName d := fun d hd => by
    refine p.isName d ?_
    rw [hnames]
    simp only [List.mem_append, List.mem_cons] at hd ⊢
    tauto
  have hdirp : dirp = n := by
    have hvalid' : ∀ d ∈ start ++ more, IsName d := fun d hd =>
      hvalid d (List.mem_append_left _ hd)
    have hopen' := @Volume.longpathOpendir_of_leads _ _ _ s.volume ⟨start ++ more, hvalid'⟩ n hleads
    rw [CanonicalPath.bytes, hopen] at hopen'
    split at hopen'
    · exact Option.some.inj hopen'
    · cases hopen'
  have hchild : childPath (render (start ++ more)) e.name = render (start ++ more ++ [c]) := by
    rw [hname, childPath_render fun d hd => hvalid d (List.mem_append_left _ hd)]
  subst hdirp
  cases rest with
  | nil =>
    have hend : p.bytes = render (start ++ more ++ [c]) := by rw [CanonicalPath.bytes, hnames]
    obtain ⟨st, hst, hkind, haccept⟩ := h.file.accepts hsettled hlater ha'
    rw [hend] at hst haccept
    obtain ⟨m, hlookup, hstatx⟩ := lookup_of_statxAt hvalid hleads hst
    rw [processEntry_of_accepted htakes (hname ▸ hlookup) hstatx (Or.inl hkind) (hchild ▸ haccept),
      if_pos hkind, if_pos rfl, hchild]
  | cons c' rest =>
    obtain ⟨hrecurse, hvouched⟩ := h.dir hrootdirs hnames
    have hbelow : p.names = start ++ (more ++ [c]) ++ c' :: rest := by simp [hnames]
    obtain ⟨m', hleads', hstay⟩ := h.leads hr hmem hroot hbelow
    have hsettled' : s.Settled l (render (start ++ more ++ [c])) := fun _ _ _ => by
      obtain ⟨dirp', hopen', -⟩ := hlists _ c' rest hbelow (List.prefix_append start _)
      rw [← List.append_assoc] at hopen' hleads'
      exact @Volume.longpathOpen_isSome_of_opendir _ _ _ s.volume ⟨_, hvalid⟩ m' dirp' false
        hleads' (hstay (by simp)) hopen'
    obtain ⟨st, hst, hkind, haccept⟩ := hvouched.accepts hsettled' hlater ha'
    obtain ⟨m, hlookup, hstatx⟩ := lookup_of_statxAt hvalid hleads hst
    rw [processEntry_of_accepted htakes (hname ▸ hlookup) hstatx (Or.inr ⟨hkind, hrecurse⟩)
      (hchild ▸ haccept), if_neg (by rw [hkind]; decide), if_neg (List.cons_ne_nil c' rest), hchild]

theorem foldl_seedPath_nil (seeding : LockedFs Dev U × List Path) (paths : List Path) :
    paths.foldl (s.seedPath []) seeding = seeding := by
  induction paths with
  | nil => rfl
  | cons path paths ih => exact ih

/-- Nothing is seeded without a root, and what is seeded is vouched for. -/
theorem mem_seedCheckpointedFiles {r : ScanRoots Dev U} (hr : s.RootsHold r)
    {checkpointed : Option (List CanonicalPath)} {path : Path}
    (h : path ∈ (s.seedCheckpointedFiles r checkpointed).2) :
    r.locked.Locked ∧ s.Goes r.locked (s.seedCheckpointedFiles r checkpointed).1 ∧
      ∃ p root, path = p.bytes ∧
        s.Seeded r.scanRootPaths (s.seedCheckpointedFiles r checkpointed).1 p root := by
  unfold seedCheckpointedFiles at h ⊢
  split_ifs at h ⊢
  · cases h
  · cases checkpointed with
    | none => cases h
    | some paths =>
      dsimp only at h ⊢
      by_cases hnil : r.scanRootPaths = []
      · rw [hnil, foldl_seedPath_nil] at h
        cases h
      · have hl := hr.locked hnil
        refine ⟨hl, foldl_seedPath_goes hr.answered hl _ _ _, ?_⟩
        exact (mem_foldl_seedPath hr.answered hl hr.canonical h).resolve_left List.not_mem_nil

theorem walkOf_coming {args : List Path} {checkpointed : Option (List CanonicalPath)} {n : ℕ}
    {start : List Path} {p : CanonicalPath}
    (hstart : render start ∈ (s.rootsOf args).scanRootPaths) (hunder : start <+: p.names)
    (hway : ∀ dirs c rest, p.names = dirs ++ c :: rest → start <+: dirs →
      s.Enters l dirs c rest)
    (hreg : ∀ n st, Leads s.volume.toDirTree s.volume.root p.names n →
      s.volume.statx n = some st → st.kind = .reg) :
    s.Coming (s.walkOf args checkpointed n) start p := by
  obtain ⟨q, m, st, hq, hleads, hstatx, hfile, hdir⟩ :=
    (rootsOf_rootsHold args).root _ hstart
  have hvalid : ∀ d ∈ start, IsName d := fun d hd => p.isName d (hunder.subset hd)
  obtain rfl : start = q.names := render_injOn hvalid q.isName hq
  obtain ⟨rest, hrest⟩ := hunder
  cases rest with
  | nil =>
    rw [List.append_nil] at hrest
    rw [← hrest] at hreg
    left
    rw [CanonicalPath.bytes, ← hrest]
    exact hfile (hreg m st hleads hstatx)
  | cons c rest =>
    refine Or.inr ⟨q.names, c, rest, hrest.symm, List.prefix_rfl, Or.inl (hdir ?_)⟩
    obtain ⟨dirp, hopen, -⟩ := (hway _ c rest hrest.symm List.prefix_rfl).lists
    have hopen' := Volume.longpathOpendir_of_leads hleads
    rw [CanonicalPath.bytes, hopen] at hopen'
    have hisDir : s.volume.isDir m = true := by
      by_contra hnot
      simp [Bool.eq_false_of_not_eq_true hnot] at hopen'
    rw [s.volume.isDir_kind hisDir hstatx]
    decide

/-- Once the walk is over, a seeded file that it has queued as well is listed on the way from a
root; and one that is listed so has been queued, if it can be opened where the answer about its
subvolume matters. -/
theorem seeded_walked (args : List Path) (checkpointed : Option (List CanonicalPath)) {n : ℕ}
    {w : TreeWalk ν Dev U n}
    (hrun : ReflTransGen (TreeWalk.Step s) (s.walkOf args checkpointed n) w)
    (hdone : w.Finished) {path : Path}
    (hseeded : path ∈ (s.seedCheckpointedFiles (s.rootsOf args) checkpointed).2) :
    (path ∈ w.walkFileq → s.Listed (s.rootsOf args).scanRootPaths path) ∧
      (s.Listed (s.rootsOf args).scanRootPaths path →
        s.Settled (s.rootsOf args).locked path → path ∈ w.walkFileq) := by
  have hr := @rootsOf_rootsHold _ _ _ _ _ s args
  obtain ⟨hl, ⟨ha, hlater⟩, p, root, rfl, h⟩ := mem_seedCheckpointedFiles hr hseeded
  constructor
  · have hstart : s.WalkListed (s.rootsOf args).scanRootPaths (s.walkOf args checkpointed n) :=
      ⟨fun d hd => .root (hr.walkDirq hd), fun f hf => .root (hr.walkFileq hf),
        fun _ _ hr => by cases hr⟩
    have hlisted : s.WalkListed (s.rootsOf args).scanRootPaths w := by
      clear hdone
      induction hrun with
      | refl => exact hstart
      | tail _ hstep ih => exact walkListed_step ih hstep
    exact hlisted.walkFileq _
  · intro hlisted hsettled
    obtain ⟨start, hmem, hunder, hway⟩ := h.exists_way hr hlisted (hsettled.later hlater)
    have hreg : ∀ m st, Leads s.volume.toDirTree s.volume.root p.names m →
        s.volume.statx m = some st → st.kind = .reg := fun m st hleads hst => by
      obtain ⟨_, st', -, -, hst', hkind, -, -⟩ := h.file.accepted
      rw [statxAt_of_leads hleads hst', Option.some.injEq] at hst
      exact hst ▸ hkind
    exact ((walkOf_coming hmem hunder hway hreg).run hway ha (hlater.locked hl) hrun).of_finished
      hdone

end Scan

def rName : Path := [114]
def dName : Path := [100]
def fName : Path := [102]

def chainTree : FileTree (Fin 4) where
  root := 0
  lookup n c :=
    if n = 0 ∧ c = rName then .ok 1
    else if n = 1 ∧ c = dName then .ok 2
    else if n = 2 ∧ c = fName then .ok 3
    else if n = 3 then .error .ENOTDIR
    else .error .ENOENT
  target _ := none
  isDir n := n ≠ 3
  notDir {d c} h := by
    obtain rfl : d = 3 := by simpa using h
    simp
  nameFits {d n c} h := by
    have hlength : c = rName ∨ c = dName ∨ c = fName := by
      split_ifs at h <;> simp_all
    rcases hlength with rfl | rfl | rfl <;> decide

def chainVolume (readable : Bool) : Volume (Fin 4) Unit ℕ where
  toFileTree := chainTree
  statx n := some ⟨if n = 3 then .reg else .dir, 4096, ()⟩
  opens n := n ≠ 2 || readable
  readdir
    | 0 => [⟨rName, .known .dir⟩]
    | 1 => [⟨dName, .known .dir⟩]
    | 2 => [⟨fName, .known .reg⟩]
    | 3 => []
  fstatfs _ := some false
  fsuuid _ := some 1
  rdonlySubvol _ := false
  resolve path _ := lookups chainTree.toDirTree 0 (components path)
  realpath path := if path = slash :: rName then some ⟨[rName], by decide⟩ else none
  resolve_eq_some_iff := (resolves_iff_lookups fun _ => rfl).symm
  realpath_leads {path p} h := by
    split_ifs at h
    obtain rfl := Option.some.inj h
    exact ⟨by decide, 1, 1, rfl, rfl, rfl⟩
  link_kind h := absurd rfl h
  isDir_kind {n st} hdir hst := by
    obtain rfl := Option.some.inj hst
    have hn : n ≠ 3 := by simpa [chainTree] using hdir
    simp [hn]
  readdir_name {n e} h := by
    fin_cases n <;> simp_all <;> decide

def chainScan (readable : Bool) : Scan (Fin 4) Unit ℕ where
  volume := chainVolume readable
  options := ⟨true, true, 1, 0, false⟩
  isExcluded _ _ := false
  fsUuid := some none

def chainFile : CanonicalPath := ⟨[rName, dName, fName], by decide⟩

theorem chainFile_seeded (readable : Bool) : ((chainScan readable).seedCheckpointedFiles
    ((chainScan readable).rootsOf [slash :: rName]) (some [chainFile])).2 = [chainFile.bytes] := by
  cases readable <;> rfl

/-- With `d` readable one walker lists both directories and queues the file. -/
theorem chain_walked : ∃ w : TreeWalk (Fin 4) Unit ℕ 1,
    ReflTransGen (TreeWalk.Step (chainScan true))
      ((chainScan true).walkOf [slash :: rName] (some [chainFile]) 1) w ∧ w.Finished ∧
      w.walkFileq = [chainFile.bytes] := by
  refine ⟨_, .tail (.tail (.tail (.tail (.tail (.tail .refl (.opendir (t := 0) rfl rfl))
    (.entry (t := 0) rfl)) (.closedir (t := 0) rfl)) (.opendir (t := 0) rfl rfl))
    (.entry (t := 0) rfl)) (.closedir (t := 0) rfl), ⟨rfl, fun t => ?_⟩, rfl⟩
  fin_cases t
  rfl

/-- Otherwise it cannot open `d`, and the walk is over. -/
theorem chain_unwalked : ∃ w : TreeWalk (Fin 4) Unit ℕ 1,
    ReflTransGen (TreeWalk.Step (chainScan false))
      ((chainScan false).walkOf [slash :: rName] (some [chainFile]) 1) w ∧ w.Finished ∧
      w.walkFileq = [] := by
  refine ⟨_, .tail (.tail (.tail (.tail .refl (.opendir (t := 0) rfl rfl))
    (.entry (t := 0) rfl)) (.closedir (t := 0) rfl)) (.opendir (t := 0) rfl rfl),
    ⟨rfl, fun t => ?_⟩, rfl⟩
  fin_cases t
  rfl

theorem seeded_walked_readable : ∃ w : TreeWalk (Fin 4) Unit ℕ 1, w.Finished ∧
    (chainFile.bytes ∈ w.walkFileq →
      (chainScan true).Listed ((chainScan true).rootsOf [slash :: rName]).scanRootPaths
        chainFile.bytes) ∧ chainFile.bytes ∈ w.walkFileq := by
  obtain ⟨w, hrun, hdone, hfileq⟩ := chain_walked
  have hseeded : chainFile.bytes ∈ ((chainScan true).seedCheckpointedFiles
      ((chainScan true).rootsOf [slash :: rName]) (some [chainFile])).2 := by
    rw [chainFile_seeded]
    exact List.mem_singleton_self _
  have hmem : chainFile.bytes ∈ w.walkFileq := hfileq ▸ List.mem_singleton_self _
  have hsettled : (chainScan true).Settled ((chainScan true).rootsOf [slash :: rName]).locked
      chainFile.bytes := fun _ _ h => by cases h.2.1
  obtain ⟨hlisted, hwalked⟩ :=
    Scan.seeded_walked [slash :: rName] (some [chainFile]) hrun hdone hseeded
  exact ⟨w, hdone, hlisted, hwalked (hlisted hmem) hsettled⟩

/-- A file in a directory that can be searched but not read is seeded, and the walk never lists
it. -/
theorem seeded_unlisted : ¬ ∀ (s : Scan (Fin 4) Unit ℕ) (args : List Path)
    (checkpointed : Option (List CanonicalPath)) (n : ℕ) (w : TreeWalk (Fin 4) Unit ℕ n),
    ReflTransGen (TreeWalk.Step s) (s.walkOf args checkpointed n) w → w.Finished →
      ∀ path ∈ (s.seedCheckpointedFiles (s.rootsOf args) checkpointed).2,
        path ∈ w.walkFileq := by
  intro hclaim
  obtain ⟨w, hrun, hdone, hfileq⟩ := chain_unwalked
  have hseeded : chainFile.bytes ∈ ((chainScan false).seedCheckpointedFiles
      ((chainScan false).rootsOf [slash :: rName]) (some [chainFile])).2 := by
    rw [chainFile_seeded]
    exact List.mem_singleton_self _
  have hwalked := hclaim _ _ _ _ w hrun hdone _ hseeded
  rw [hfileq] at hwalked
  cases hwalked

end Oans
