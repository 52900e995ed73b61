import Oans.CheckFile
import Oans.WalkQueue

/-!
# Seeding ahead of the walk

Checkpointed files are queued before the walkers start, from their paths alone: each has to lie
under a root, and every directory on the way down from it has to pass the checks of the walk. The
walk comes to the same files by listing those directories. A seeded file is one it puts on the queue
as well exactly where it can list its way there.
-/

namespace Oans

open PathResolution

/-- What `scan_file()` leaves: the lock, the roots accepted, and both queues. -/
structure ScanRoots (Dev U : Type*) where
  locked : LockedFs Dev U
  scanRootPaths : List Path
  walkDirq : List Path
  walkFileq : List Path

def ScanRoots.init {Dev U : Type*} : ScanRoots Dev U where
  locked := ⟨none, none, false, [], fun _ => none⟩
  scanRootPaths := []
  walkDirq := []
  walkFileq := []

/-- The root `path` is under: the first that it begins with, up to its end or a slash. -/
def pathUnderARoot (scanRootPaths : List Path) (path : Path) : Option Path :=
  scanRootPaths.find? fun root =>
    root.isPrefixOf path &&
      (path[root.length]? == none || path[root.length]? == some slash || root == [slash])

def childPath (dir name : Path) : Path :=
  (if dir.length ≠ 1 ∨ dir.head? ≠ some slash then dir ++ [slash] else dir) ++ name

structure DirReader (ν : Type*) where
  path : Path
  dirp : ν
  entries : List Dirent

/-- The walkers at work. The file queue is what the roots and the walkers have put on it, without
the checkpointed files. -/
structure TreeWalk (ν Dev U : Type*) (n : ℕ) where
  locked : LockedFs Dev U
  walkDirq : List Path
  walkFileq : List Path
  reader : Fin n → Option (DirReader ν)

def TreeWalk.Finished {ν Dev U : Type*} {n : ℕ} (w : TreeWalk ν Dev U n) : Prop :=
  w.walkDirq = [] ∧ ∀ t, w.reader t = none

namespace Scan

variable {ν Dev U : Type*} [DecidableEq Dev] [DecidableEq U] (s : Scan ν Dev U)

def scanFile (r : ScanRoots Dev U) (inPath : Path) : ScanRoots Dev U :=
  match s.volume.realpath inPath with
  | none => r
  | some path =>
    match s.volume.statxAt path.bytes true with
    | none => r
    | some st =>
      let checked := s.checkFile r.locked path.bytes st false
      if checked.1 then
        { locked := checked.2
          scanRootPaths := r.scanRootPaths ++ [path.bytes]
          walkDirq := if st.kind = .reg then r.walkDirq else r.walkDirq ++ [path.bytes]
          walkFileq := if st.kind = .reg then r.walkFileq ++ [path.bytes] else r.walkFileq }
      else { r with locked := checked.2 }

/-- The loop of `walk_would_reach()`, which stops at every slash. `dir` is the path up to there. -/
def walkWouldReachFrom (l : LockedFs Dev U) (dir : Path) : Path → Bool × LockedFs Dev U
  | [] => (true, l)
  | c :: rest =>
    if c ≠ slash then walkWouldReachFrom l (dir ++ [c]) rest
    else if !s.options.recurseDirs then (false, l)
    else
      match s.volume.statxAt dir false with
      | none => (false, l)
      | some st =>
        if st.kind ≠ .dir then (false, l)
        else
          let checked := s.checkFile l dir st true
          if checked.1 then walkWouldReachFrom checked.2 (dir ++ [slash]) rest
          else (false, checked.2)

def walkWouldReach (l : LockedFs Dev U) (root path : Path) : Bool × LockedFs Dev U :=
  if path = root then (true, l)
  else s.walkWouldReachFrom l (path.take (root.length + 1)) (path.drop (root.length + 1))

def seedPath (scanRootPaths : List Path) (seeding : LockedFs Dev U × List Path) (path : Path) :
    LockedFs Dev U × List Path :=
  match pathUnderARoot scanRootPaths path with
  | none => seeding
  | some root =>
    let reach := s.walkWouldReach seeding.1 root path
    if !reach.1 then (reach.2, seeding.2)
    else
      match s.volume.statxAt path false with
      | none => (reach.2, seeding.2)
      | some st =>
        if st.kind ≠ .reg then (reach.2, seeding.2)
        else
          let checked := s.checkFile reach.2 path st true
          (checked.2, if checked.1 then seeding.2 ++ [path] else seeding.2)

/-- `seed_checkpointed_files()`; no paths where they cannot be read. -/
def seedCheckpointedFiles (r : ScanRoots Dev U) (checkpointed : Option (List CanonicalPath)) :
    LockedFs Dev U × List Path :=
  if !s.options.hashfile then (r.locked, [])
  else
    match checkpointed with
    | none => (r.locked, [])
    | some paths =>
      (paths.map CanonicalPath.bytes).foldl (s.seedPath r.scanRootPaths) (r.locked, [])

def walkTakes (reg dir : Bool) : Bool := reg || (dir && s.options.recurseDirs)

def takesEntry (e : Dirent) : Bool :=
  e.name ≠ [46] && e.name ≠ [46, 46] &&
    (match e.dType with
      | .unknown => true
      | .known kind => s.walkTakes (kind = .reg) (kind = .dir)) &&
    decide (e.name.length ≤ NAME_MAX)

def processEntry (l : LockedFs Dev U) (path : Path) (dirp : ν) (e : Dirent) :
    LockedFs Dev U × Entry Path Path :=
  if !s.takesEntry e then (l, .skip)
  else
    match s.volume.lookup dirp e.name with
    | .error _ => (l, .skip)
    | .ok n =>
      match s.volume.statx n with
      | none => (l, .skip)
      | some st =>
        if e.dType = .unknown ∧ !s.walkTakes (st.kind = .reg) (st.kind = .dir) then (l, .skip)
        else
          let child := childPath path e.name
          let checked := s.checkFile l child st true
          (checked.2,
            if !checked.1 then .skip
            else if st.kind = .reg then .file child
            else if s.options.recurseDirs then .dir child
            else .skip)

end Scan

namespace TreeWalk

variable {ν Dev U : Type*} {n : ℕ}

def setReader (w : TreeWalk ν Dev U n) (t : Fin n) (r : Option (DirReader ν)) :
    TreeWalk ν Dev U n :=
  { w with reader := Function.update w.reader t r }

def queue (w : TreeWalk ν Dev U n) : LockedFs Dev U × Entry Path Path → TreeWalk ν Dev U n
  | (l, .skip) => { w with locked := l }
  | (l, .file f) => { w with locked := l, walkFileq := w.walkFileq ++ [f] }
  | (l, .dir d) => { w with locked := l, walkDirq := w.walkDirq ++ [d] }

/-- A walker takes a directory and opens it, meets its next entry, or closes it. -/
inductive Step [DecidableEq Dev] [DecidableEq U] (s : Scan ν Dev U) :
    TreeWalk ν Dev U n → TreeWalk ν Dev U n → Prop
  | opendir {w : TreeWalk ν Dev U n} {t : Fin n} {path : Path} {q : List Path}
      (hidle : w.reader t = none) (hq : w.walkDirq = path :: q) :
      Step s w ({ w with walkDirq := q }.setReader t
        ((s.volume.longpathOpendir path).map fun dirp => ⟨path, dirp, s.volume.readdir dirp⟩))
  | entry {w : TreeWalk ν Dev U n} {t : Fin n} {path : Path} {dirp : ν} {e : Dirent}
      {es : List Dirent} (hreader : w.reader t = some ⟨path, dirp, e :: es⟩) :
      Step s w ((w.queue (s.processEntry w.locked path dirp e)).setReader t
        (some ⟨path, dirp, es⟩))
  | closedir {w : TreeWalk ν Dev U n} {t : Fin n} {path : Path} {dirp : ν}
      (hreader : w.reader t = some ⟨path, dirp, []⟩) : Step s w (w.setReader t none)

end TreeWalk

namespace Scan

variable {ν Dev U : Type*} [DecidableEq Dev] [DecidableEq U] (s : Scan ν Dev U)

def rootsOf (args : List Path) : ScanRoots Dev U := args.foldl s.scanFile .init

def walkOf (args : List Path) (checkpointed : Option (List CanonicalPath)) (n : ℕ) :
    TreeWalk ν Dev U n where
  locked := (s.seedCheckpointedFiles (s.rootsOf args) checkpointed).1
  walkDirq := (s.rootsOf args).walkDirq
  walkFileq := (s.rootsOf args).walkFileq
  reader _ := none

def Lists (path name : Path) : Prop :=
  ∃ dirp, s.volume.longpathOpendir path = some dirp ∧
    ∃ e ∈ s.volume.readdir dirp, e.name = name ∧ s.takesEntry e = true

/-- From a root, every directory on the way can be opened and lists the next name. -/
inductive Listed (scanRootPaths : List Path) : Path → Prop
  | root {path : Path} (h : path ∈ scanRootPaths) : Listed scanRootPaths path
  | entry {path name : Path} (h : Listed scanRootPaths path) (hlists : s.Lists path name) :
      Listed scanRootPaths (childPath path name)

end Scan

theorem childPath_render {names : List Path} (h : ∀ c ∈ names, IsName c) (name : Path) :
    childPath (render names) name = render (names ++ [name]) := by
  rw [childPath, render_append_singleton]
  cases names with
  | nil => simp
  | cons c cs =>
    obtain ⟨⟨hne, -⟩, -⟩ := List.forall_mem_cons.mp h
    have hlong : (render (c :: cs)).length ≠ 1 := by
      have := List.length_pos_iff.mpr hne
      rw [render_of_ne_nil (List.cons_ne_nil c cs), below_cons, List.length_append,
        List.length_cons]
      omega
    rw [if_pos (Or.inl hlong), render_of_ne_nil (List.cons_ne_nil c cs)]
    simp

theorem length_render_lt {names rest : List Path} {c : Path} (hc : c ≠ []) :
    (render names).length < (render (names ++ c :: rest)).length := by
  have := List.length_pos_iff.mpr hc
  rw [render_of_ne_nil (show names ++ c :: rest ≠ [] by simp), below_append, below_cons]
  by_cases hnil : names = []
  · subst hnil
    simp
    omega
  · rw [render_of_ne_nil hnil]
    simp

theorem render_append_cons {names rest : List Path} {c : Path} (hne : names ≠ []) :
    render (names ++ c :: rest) = render names ++ slash :: (c ++ below rest) := by
  rw [render_of_ne_nil (show names ++ c :: rest ≠ [] by simp), render_of_ne_nil hne, below_append,
    below_cons, List.cons_append]

theorem pathUnderARoot_eq_some {scanRootPaths names : List Path} {root : Path}
    (h : pathUnderARoot scanRootPaths (render names) = some root)
    (hnames : ∀ c ∈ names, IsName c) : root ∈ scanRootPaths ∧
      ∀ roots, (∀ c ∈ roots, IsName c) → root = render roots → roots <+: names := by
  refine ⟨List.mem_of_find?_eq_some h, fun roots hroots heq => ?_⟩
  have hmatch := List.find?_some h
  rw [Bool.and_eq_true, List.isPrefixOf_iff_prefix, Bool.or_eq_true, Bool.or_eq_true] at hmatch
  obtain ⟨⟨t, ht⟩, hend⟩ := hmatch
  have hget : (render names)[root.length]? = t.head? := by
    rw [← ht, List.getElem?_append_right le_rfl, Nat.sub_self, List.head?_eq_getElem?]
  rw [hget, beq_iff_eq, beq_iff_eq, beq_iff_eq] at hend
  rcases hend with (hend | hend) | hend
  · obtain rfl := List.head?_eq_none_iff.mp hend
    rw [List.append_nil, heq] at ht
    exact (render_injOn hroots hnames ht) ▸ List.prefix_rfl
  · obtain ⟨t', rfl⟩ := List.head?_eq_some_iff.mp hend
    exact isPrefix_of_render_append hnames hroots (heq ▸ ht.symm)
  · have hnil : roots = [] := by
      refine render_injOn hroots (fun c hc => absurd hc List.not_mem_nil) ?_
      rw [← heq, hend, render_nil]
    exact hnil ▸ List.nil_prefix

namespace Scan

variable {ν Dev U : Type*} [DecidableEq Dev] [DecidableEq U] {s : Scan ν Dev U}
  {l l' : LockedFs Dev U}

/-- The seeder found an object of the kind at the path and accepted it, before the lock was `l`. -/
structure Vouched (s : Scan ν Dev U) (l : LockedFs Dev U) (path : Path) (kind : FileKind) :
    Prop where
  intro ::
  accepted : ∃ l₀ st, s.Answered l₀ ∧ l₀.Locked ∧ s.volume.statxAt path false = some st ∧
    st.kind = kind ∧ (s.checkFile l₀ path st true).1 = true ∧
    LockedFs.Later (s.checkFile l₀ path st true).2 l

theorem Vouched.later {path : Path} {kind : FileKind} (h : s.Vouched l path kind)
    (hlater : LockedFs.Later l l') : s.Vouched l' path kind := by
  obtain ⟨l₀, st, ha, hl, hst, hkind, haccept, hfrom⟩ := h.accepted
  exact ⟨l₀, st, ha, hl, hst, hkind, haccept, hfrom.trans hlater⟩

structure Goes (s : Scan ν Dev U) (l l' : LockedFs Dev U) : Prop where
  answered : s.Answered l'
  later : LockedFs.Later l l'

theorem goes_checkFile (ha : s.Answered l) (hl : l.Locked) (path : Path) (st : Statx Dev) :
    s.Goes l (s.checkFile l path st true).2 :=
  ⟨checkFile_answered ha, checkFile_later ha hl⟩

theorem walkWouldReachFrom_goes (ha : s.Answered l) (hl : l.Locked) (dir rest : Path) :
    s.Goes l (s.walkWouldReachFrom l dir rest).2 := by
  induction rest generalizing l dir with
  | nil => exact ⟨ha, .refl l⟩
  | cons c rest ih =>
    rw [walkWouldReachFrom]
    split
    · exact ih ha hl _
    · split
      · exact ⟨ha, .refl l⟩
      · split
        · exact ⟨ha, .refl l⟩
        · next st _ =>
          split
          · exact ⟨ha, .refl l⟩
          · obtain ⟨ha', hlater⟩ := goes_checkFile ha hl dir st
            dsimp only
            split
            · obtain ⟨ha'', hlater'⟩ := ih ha' (hlater.locked hl) (dir ++ [slash])
              exact ⟨ha'', hlater.trans hlater'⟩
            · exact ⟨ha', hlater⟩

/-- The loop goes past a slash only if the path up to it is a directory it accepts. -/
theorem walkWouldReachFrom_slash {dir rest : Path}
    (h : (s.walkWouldReachFrom l dir (slash :: rest)).1 = true) :
    ∃ st, s.options.recurseDirs = true ∧ s.volume.statxAt dir false = some st ∧ st.kind = .dir ∧
      (s.checkFile l dir st true).1 = true ∧ s.walkWouldReachFrom l dir (slash :: rest) =
        s.walkWouldReachFrom (s.checkFile l dir st true).2 (dir ++ [slash]) rest := by
  rw [walkWouldReachFrom, if_neg (by simp)] at h ⊢
  cases hrecurse : s.options.recurseDirs with
  | false => simp [hrecurse] at h
  | true =>
    rw [hrecurse, if_neg (by simp)] at h
    cases hst : s.volume.statxAt dir false with
    | none => simp [hst] at h
    | some st =>
      by_cases hkind : st.kind = .dir
      · by_cases haccept : (s.checkFile l dir st true).1 = true
        · exact ⟨st, rfl, rfl, hkind, haccept, by simp [hkind, haccept]⟩
        · simp [hst, hkind, haccept] at h
      · simp [hst, hkind] at h

/-- Every slash the loop passes ends a directory that is vouched for. -/
theorem vouched_of_walkWouldReachFrom (ha : s.Answered l) (hl : l.Locked) {dir before after : Path}
    (h : (s.walkWouldReachFrom l dir (before ++ slash :: after)).1 = true) :
    s.options.recurseDirs = true ∧
      s.Vouched (s.walkWouldReachFrom l dir (before ++ slash :: after)).2 (dir ++ before) .dir := by
  induction before generalizing l dir with
  | nil =>
    rw [List.nil_append] at h ⊢
    obtain ⟨st, hrecurse, hst, hkind, haccept, heq⟩ := walkWouldReachFrom_slash h
    obtain ⟨ha', hlater⟩ := goes_checkFile ha hl dir st
    refine ⟨hrecurse, l, st, ha, hl, by rwa [List.append_nil], hkind, by rwa [List.append_nil], ?_⟩
    rw [heq, List.append_nil]
    exact (walkWouldReachFrom_goes ha' (hlater.locked hl) _ _).later
  | cons c before ih =>
    rw [List.cons_append] at h ⊢
    by_cases hc : c = slash
    · subst hc
      obtain ⟨st, hrecurse, hst, hkind, haccept, heq⟩ := walkWouldReachFrom_slash h
      obtain ⟨ha', hlater⟩ := goes_checkFile ha hl dir st
      rw [heq] at h ⊢
      simpa using ih ha' (hlater.locked hl) h
    · rw [walkWouldReachFrom, if_pos hc] at h ⊢
      simpa using ih ha hl h

theorem walkWouldReach_goes (ha : s.Answered l) (hl : l.Locked) (root path : Path) :
    s.Goes l (s.walkWouldReach l root path).2 := by
  unfold walkWouldReach
  split
  · exact ⟨ha, .refl l⟩
  · exact walkWouldReachFrom_goes ha hl _ _

theorem vouched_of_walkWouldReach (ha : s.Answered l) (hl : l.Locked) {roots dirs rest : List Path}
    {c r : Path} (hr : r ≠ [])
    (h : (s.walkWouldReach l (render roots) (render (roots ++ r :: dirs ++ c :: rest))).1 = true) :
    s.options.recurseDirs = true ∧
      s.Vouched (s.walkWouldReach l (render roots) (render (roots ++ r :: dirs ++ c :: rest))).2
        (render (roots ++ r :: dirs)) .dir := by
  have hroot : (render roots).length < (render (roots ++ r :: dirs)).length := length_render_lt hr
  have hsplit := @render_append_cons (roots ++ r :: dirs) rest c (by simp)
  have hne : render (roots ++ r :: dirs ++ c :: rest) ≠ render roots := fun heq => by
    have := congrArg List.length (heq.symm.trans hsplit)
    rw [List.length_append] at this
    omega
  rw [walkWouldReach, if_neg hne, hsplit] at h ⊢
  rw [List.take_append_of_le_length hroot, List.drop_append_of_le_length hroot] at h ⊢
  have hvouched := vouched_of_walkWouldReachFrom ha hl h
  rwa [List.take_append_drop] at hvouched

/-- What is known of a seeded path: it lies under a root, and the directories in between and the
file are vouched for. -/
structure Seeded (s : Scan ν Dev U) (scanRootPaths : List Path) (l : LockedFs Dev U)
    (p : CanonicalPath) (root : List Path) : Prop where
  isName : ∀ c ∈ root, IsName c
  mem : render root ∈ scanRootPaths
  under : root <+: p.names
  between : ∀ r dirs c rest, p.names = root ++ r :: dirs ++ c :: rest →
    s.options.recurseDirs = true ∧ s.Vouched l (render (root ++ r :: dirs)) .dir
  file : s.Vouched l p.bytes .reg

theorem Seeded.later {scanRootPaths : List Path} {p : CanonicalPath} {root : List Path}
    (h : s.Seeded scanRootPaths l p root) (hlater : LockedFs.Later l l') :
    s.Seeded scanRootPaths l' p root :=
  ⟨h.isName, h.mem, h.under, fun r dirs c rest heq =>
    ⟨(h.between r dirs c rest heq).1, (h.between r dirs c rest heq).2.later hlater⟩,
    h.file.later hlater⟩

def Canonical (scanRootPaths : List Path) : Prop :=
  ∀ root ∈ scanRootPaths, ∃ p : CanonicalPath, root = p.bytes

theorem seedPath_goes (ha : s.Answered l) (hl : l.Locked) (scanRootPaths seeded : List Path)
    (path : Path) : s.Goes l (s.seedPath scanRootPaths (l, seeded) path).1 := by
  unfold seedPath
  split
  · exact ⟨ha, .refl l⟩
  · next root _ =>
    obtain ⟨ha', hlater⟩ := walkWouldReach_goes ha hl root path
    dsimp only
    split
    · exact ⟨ha', hlater⟩
    · split
      · exact ⟨ha', hlater⟩
      · next st _ =>
        split
        · exact ⟨ha', hlater⟩
        · obtain ⟨ha'', hlater'⟩ := goes_checkFile ha' (hlater.locked hl) path st
          exact ⟨ha'', hlater.trans hlater'⟩

/-- A path is seeded only if it is under a root, reached and accepted. -/
theorem seedPath_cases (scanRootPaths seeded : List Path) (path : Path) :
    (s.seedPath scanRootPaths (l, seeded) path).2 = seeded ∨
      ∃ root st, pathUnderARoot scanRootPaths path = some root ∧
        (s.walkWouldReach l root path).1 = true ∧ s.volume.statxAt path false = some st ∧
        st.kind = .reg ∧
        (s.checkFile (s.walkWouldReach l root path).2 path st true).1 = true ∧
        s.seedPath scanRootPaths (l, seeded) path =
          ((s.checkFile (s.walkWouldReach l root path).2 path st true).2, seeded ++ [path]) := by
  unfold seedPath
  cases hroot : pathUnderARoot scanRootPaths path with
  | none => exact Or.inl rfl
  | some root =>
    dsimp only
    cases hreach : (s.walkWouldReach l root path).1 with
    | false => exact Or.inl rfl
    | true =>
      cases hst : s.volume.statxAt path false with
      | none => exact Or.inl rfl
      | some st =>
        by_cases hkind : st.kind = .reg
        · by_cases haccept : (s.checkFile (s.walkWouldReach l root path).2 path st true).1 = true
          · exact Or.inr ⟨root, st, rfl, hreach, rfl, hkind, haccept, by simp [hkind, haccept]⟩
          · exact Or.inl (by simp [hkind, haccept])
        · exact Or.inl (by simp [hkind])

theorem mem_seedPath (ha : s.Answered l) (hl : l.Locked) {scanRootPaths seeded : List Path}
    (hroots : Canonical scanRootPaths) {p : CanonicalPath} {path : Path}
    (h : path ∈ (s.seedPath scanRootPaths (l, seeded) p.bytes).2) : path ∈ seeded ∨
      path = p.bytes ∧ ∃ root,
        s.Seeded scanRootPaths (s.seedPath scanRootPaths (l, seeded) p.bytes).1 p root := by
  rcases @seedPath_cases _ _ _ _ _ s l scanRootPaths seeded p.bytes with
    hsame | ⟨root, st, hroot, hreach, hst, hkind, haccept, heq⟩
  · exact Or.inl (hsame ▸ h)
  · rw [heq, List.mem_append, List.mem_singleton] at h
    refine h.imp_right fun hpath => ⟨hpath, ?_⟩
    obtain ⟨hmem, hunder⟩ := pathUnderARoot_eq_some hroot p.isName
    obtain ⟨q, rfl⟩ := hroots root hmem
    obtain ⟨ha', hlater⟩ := walkWouldReach_goes ha hl q.bytes p.bytes
    obtain ⟨ha'', hlater'⟩ := goes_checkFile ha' (hlater.locked hl) p.bytes st
    refine ⟨q.names, q.isName, hmem, hunder q.names q.isName rfl, fun r dirs c rest hnames => ?_, ?_⟩
    · have hr : r ≠ [] := (p.isName r (by simp [hnames])).1
      rw [CanonicalPath.bytes, CanonicalPath.bytes, hnames] at hreach
      obtain ⟨hrecurse, hvouched⟩ := vouched_of_walkWouldReach ha hl hr hreach
      rw [← hnames] at hvouched
      rw [heq]
      exact ⟨hrecurse, hvouched.later hlater'⟩
    · rw [heq]
      exact ⟨_, st, ha', hlater.locked hl, hst, hkind, haccept, .refl _⟩

theorem foldl_seedPath_goes (ha : s.Answered l) (hl : l.Locked) (scanRootPaths : List Path)
    (seeded : List Path) (paths : List Path) :
    s.Goes l (paths.foldl (s.seedPath scanRootPaths) (l, seeded)).1 := by
  induction paths generalizing l seeded with
  | nil => exact ⟨ha, .refl l⟩
  | cons path paths ih =>
    obtain ⟨ha', hlater⟩ := seedPath_goes ha hl scanRootPaths seeded path
    obtain ⟨ha'', hlater'⟩ :=
      ih ha' (hlater.locked hl) (s.seedPath scanRootPaths (l, seeded) path).2
    exact ⟨ha'', hlater.trans hlater'⟩

theorem mem_foldl_seedPath (ha : s.Answered l) (hl : l.Locked) {scanRootPaths seeded : List Path}
    (hroots : Canonical scanRootPaths) {paths : List CanonicalPath} {path : Path}
    (h : path ∈ ((paths.map CanonicalPath.bytes).foldl (s.seedPath scanRootPaths)
      (l, seeded)).2) : path ∈ seeded ∨ ∃ p root, path = p.bytes ∧
        s.Seeded scanRootPaths ((paths.map CanonicalPath.bytes).foldl (s.seedPath scanRootPaths)
          (l, seeded)).1 p root := by
  induction paths generalizing l seeded with
  | nil => exact Or.inl h
  | cons p paths ih =>
    rw [List.map_cons, List.foldl_cons] at h ⊢
    obtain ⟨ha', hlater⟩ := seedPath_goes ha hl scanRootPaths seeded p.bytes
    obtain ⟨l', seeded', hstep⟩ : ∃ l' seeded',
        s.seedPath scanRootPaths (l, seeded) p.bytes = (l', seeded') := ⟨_, _, rfl⟩
    have hmem := @mem_seedPath _ _ _ _ _ s l ha hl scanRootPaths seeded hroots p path
    rw [hstep] at ha' hlater h hmem ⊢
    have hl' := hlater.locked hl
    rcases ih ha' hl' h with hseeded | hseeded
    · rcases hmem hseeded with hbefore | ⟨hpath, root, hroot⟩
      · exact Or.inl hbefore
      · exact Or.inr ⟨p, root, hpath,
          hroot.later (foldl_seedPath_goes ha' hl' scanRootPaths seeded' _).later⟩
    · exact Or.inr hseeded

/-- The roots recorded exist, without links on the way, and each waits in the queue of its kind. Once
there is one, a filesystem is locked. -/
structure RootsHold (s : Scan ν Dev U) (r : ScanRoots Dev U) : Prop where
  answered : s.Answered r.locked
  locked : r.scanRootPaths ≠ [] → r.locked.Locked
  root : ∀ root ∈ r.scanRootPaths, ∃ p : CanonicalPath, ∃ n st, root = p.bytes ∧
    Leads s.volume.toDirTree s.volume.root p.names n ∧ s.volume.statx n = some st ∧
    (st.kind = .reg → root ∈ r.walkFileq) ∧ (st.kind ≠ .reg → root ∈ r.walkDirq)
  walkDirq : r.walkDirq ⊆ r.scanRootPaths
  walkFileq : r.walkFileq ⊆ r.scanRootPaths

omit [DecidableEq Dev] [DecidableEq U] in
theorem rootsHold_init : s.RootsHold .init where
  answered := fun _ _ h => by cases h
  locked := fun h => absurd rfl h
  root := fun _ h => absurd h List.not_mem_nil
  walkDirq := List.Subset.refl _
  walkFileq := List.Subset.refl _

omit [DecidableEq Dev] [DecidableEq U] in
theorem statxAt_of_leads {p : CanonicalPath} {n : ν} {st : Statx Dev} {follow : Bool}
    (h : Leads s.volume.toDirTree s.volume.root p.names n)
    (hst : s.volume.statxAt p.bytes follow = some st) : s.volume.statx n = some st := by
  unfold Volume.statxAt at hst
  rw [Volume.resolve_of_leads h] at hst
  split at hst
  · exact hst
  · cases hst

theorem scanFile_rootsHold {r : ScanRoots Dev U} (h : s.RootsHold r) (inPath : Path) :
    s.RootsHold (s.scanFile r inPath) := by
  unfold scanFile
  split
  · exact h
  · next p hpath =>
    obtain ⟨-, n, hleads⟩ := s.volume.realpath_leads hpath
    split
    · exact h
    · next st hst =>
      have hstatx := statxAt_of_leads hleads hst
      have hanswered : s.Answered (s.checkFile r.locked p.bytes st false).2 :=
        checkFile_answered h.answered
      dsimp only
      split
      · next haccept =>
        refine ⟨hanswered, fun _ => checkFile_locked haccept, fun root hroot => ?_, ?_, ?_⟩
        · rcases List.mem_append.mp hroot with hold | hnew
          · obtain ⟨q, m, st', hq, hm, hst', hreg, hdir⟩ := h.root root hold
            refine ⟨q, m, st', hq, hm, hst', fun hkind => ?_, fun hkind => ?_⟩
            · dsimp only
              split
              · exact List.mem_append_left _ (hreg hkind)
              · exact hreg hkind
            · dsimp only
              split
              · exact hdir hkind
              · exact List.mem_append_left _ (hdir hkind)
          · rw [List.mem_singleton] at hnew
            subst hnew
            exact ⟨p, n, st, rfl, hleads, hstatx, fun hkind => by simp [hkind],
              fun hkind => by simp [hkind]⟩
        · dsimp only
          split
          · exact List.Subset.trans h.walkDirq (List.subset_append_left _ _)
          · exact List.append_subset.mpr ⟨List.Subset.trans h.walkDirq
              (List.subset_append_left _ _), List.subset_append_right _ _⟩
        · dsimp only
          split
          · exact List.append_subset.mpr ⟨List.Subset.trans h.walkFileq
              (List.subset_append_left _ _), List.subset_append_right _ _⟩
          · exact List.Subset.trans h.walkFileq (List.subset_append_left _ _)
      · exact ⟨hanswered, fun hne => (checkFile_later h.answered (h.locked hne)).locked
          (h.locked hne), h.root, h.walkDirq, h.walkFileq⟩

theorem rootsOf_rootsHold (args : List Path) : s.RootsHold (s.rootsOf args) := by
  unfold rootsOf
  generalize hr : (ScanRoots.init : ScanRoots Dev U) = r
  have h : s.RootsHold r := hr ▸ rootsHold_init
  clear hr
  induction args generalizing r with
  | nil => exact h
  | cons arg args ih => exact ih _ (scanFile_rootsHold h arg)

omit [DecidableEq Dev] [DecidableEq U] in
theorem RootsHold.canonical {r : ScanRoots Dev U} (h : s.RootsHold r) :
    Canonical r.scanRootPaths := fun root hroot =>
  let ⟨p, _, _, hp, _⟩ := h.root root hroot
  ⟨p, hp⟩

end Scan

end Oans
