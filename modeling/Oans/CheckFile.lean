import Oans.CanonicalPath
import Oans.LongPath

/-!
# The locked filesystem

`check_file()` decides for a root, for an entry of a directory and for a checkpointed path alike. The
first root it accepts locks the run on a filesystem. From then on what it remembers only grows: a
device known to be on that filesystem stays known, and the one answer about a subvolume stays. What
it has accepted it therefore accepts again, unless it could not open a path to ask.
-/

namespace Oans

open PathResolution

inductive FileKind
  | reg
  | dir
  /-- links, devices, sockets and pipes -/
  | other
  deriving DecidableEq, Repr

structure Statx (Dev : Type*) where
  kind : FileKind
  size : ℕ
  dev : Dev

inductive DType
  | unknown
  | known (kind : FileKind)
  deriving DecidableEq, Repr

structure Dirent where
  name : Path
  dType : DType
  deriving DecidableEq, Repr

/-- A tree that does not change, with what the system calls say of its nodes. A device number and
an identifier that is set are never null. -/
structure Volume (ν Dev U : Type*) extends FileTree ν where
  /-- `statx()` on the node; none where it fails or leaves out basic fields. -/
  statx : ν → Option (Statx Dev)
  /-- `open()` for reading. -/
  opens : ν → Bool
  /-- The entries until `readdir()` ends or fails. -/
  readdir : ν → List Dirent
  /-- Whether `fstatfs()` says btrfs, where it succeeds. -/
  fstatfs : ν → Option Bool
  /-- The identifier of its filesystem, in whichever way it is found. -/
  fsuuid : ν → Option U
  /-- A subvolume has a device number of its own. -/
  rdonlySubvol : Dev → Bool
  /-- Where an absolute path leads. -/
  resolve : Path → Bool → Option ν
  realpath : Path → Option CanonicalPath
  resolve_eq_some_iff : ∀ {path : Path} {follow : Bool} {n : ν}, resolve path follow = some n ↔
    Resolves toDirTree root (components path) follow (.ok n)
  realpath_leads : ∀ {path : Path} {p : CanonicalPath}, realpath path = some p →
    p.bytes.length < PATH_MAX ∧ ∃ n, Leads toDirTree root p.names n
  link_kind : ∀ {n : ν} {st : Statx Dev}, target n ≠ none → statx n = some st → st.kind = .other
  isDir_kind : ∀ {n : ν} {st : Statx Dev}, isDir n = true → statx n = some st → st.kind = .dir
  readdir_name : ∀ {n : ν} {e : Dirent}, e ∈ readdir n → IsName e.name

structure ScanOptions where
  hashfile : Bool
  recurseDirs : Bool
  minFilesize : ℕ
  maxFilesize : ℕ
  skipReadonlySubvols : Bool
  deriving Repr

/-- A run's options and excludes, the identifier that its hashfile records (none where it cannot be
read), and the tree. -/
structure Scan (ν Dev U : Type*) where
  volume : Volume ν Dev U
  options : ScanOptions
  isExcluded : Path → Bool → Bool
  fsUuid : Option (Option U)

/-- `locked_fs`, `verified_devs` and `ro_subvols`. -/
structure LockedFs (Dev U : Type*) where
  uuid : Option U
  dev : Option Dev
  isBtrfs : Bool
  verifiedDevs : List Dev
  roSubvols : Dev → Option Bool

structure FsProbe (U : Type*) where
  uuid : Option U
  isBtrfs : Bool

namespace Volume

variable {ν Dev U : Type*} (V : Volume ν Dev U)

/-- `longpath_open()`: without `follow`, a link does not open. -/
def longpathOpen (path : Path) (follow : Bool) : Option ν :=
  match V.resolve path follow with
  | none => none
  | some n => if (follow || (V.target n).isNone) && V.opens n then some n else none

def longpathOpendir (path : Path) : Option ν :=
  match V.resolve path true with
  | none => none
  | some n => if V.isDir n && V.opens n then some n else none

/-- `statx()` on a path, which has to fit the call. -/
def statxAt (path : Path) (follow : Bool) : Option (Statx Dev) :=
  if path.length < PATH_MAX then (V.resolve path follow).bind V.statx else none

variable {V} {p : CanonicalPath} {n : ν}

theorem resolve_of_leads (h : Leads V.toDirTree V.root p.names n) (follow : Bool) :
    V.resolve p.bytes follow = some n := by
  rw [V.resolve_eq_some_iff, p.components_bytes]
  exact h.resolves follow

theorem target_of_statx {st : Statx Dev} (h : V.statx n = some st) (hkind : st.kind ≠ .other) :
    V.target n = none := by
  by_contra hlink
  exact hkind (V.link_kind hlink h)

theorem longpathOpendir_of_leads (h : Leads V.toDirTree V.root p.names n) :
    V.longpathOpendir p.bytes = if V.isDir n && V.opens n then some n else none := by
  rw [longpathOpendir, resolve_of_leads h]

theorem longpathOpen_isSome_of_opendir {m : ν} {follow : Bool}
    (h : Leads V.toDirTree V.root p.names n) (hstay : V.target n = none)
    (hopen : V.longpathOpendir p.bytes = some m) : (V.longpathOpen p.bytes follow).isSome := by
  rw [longpathOpendir_of_leads h] at hopen
  have hopens : V.opens n = true := by
    by_contra hnot
    simp [Bool.eq_false_of_not_eq_true hnot] at hopen
  rw [longpathOpen, resolve_of_leads h]
  simp [hstay, hopens]

end Volume

namespace Scan

variable {ν Dev U : Type*} [DecidableEq Dev] [DecidableEq U] (s : Scan ν Dev U)

def probeFs (path : Path) (btrfsOnly : Bool) : Option (FsProbe U) :=
  match s.volume.longpathOpen path true with
  | none => none
  | some n =>
    match s.volume.fstatfs n with
    | none => none
    | some true =>
      match s.volume.fsuuid n with
      | none => none
      | some uuid => some ⟨some uuid, true⟩
    | some false =>
      if btrfsOnly then some ⟨none, false⟩
      else
        match s.volume.fsuuid n with
        | none => none
        | some uuid => some ⟨some uuid, false⟩

/-- `dev_is_readonly_subvol()`, with `ro_subvol_lookup()`. -/
def devIsReadonlySubvol (l : LockedFs Dev U) (dev : Dev) (path : Path) : Bool × LockedFs Dev U :=
  match l.roSubvols dev with
  | some rdonly => (rdonly, l)
  | none =>
    match s.volume.longpathOpen path false with
    | none => (false, l)
    | some _ =>
      let rdonly := s.volume.rdonlySubvol dev
      (rdonly, { l with roSubvols := Function.update l.roSubvols dev (some rdonly) })

/-- The end of `check_file()`, with a filesystem locked: on btrfs the subvolumes found to be on it
are remembered. -/
def checkDevice (l : LockedFs Dev U) (uuid : U) (dev : Dev) (path : Path) (st : Statx Dev) :
    Bool × LockedFs Dev U :=
  if !l.isBtrfs then (decide (dev = st.dev), l)
  else if st.dev ∈ l.verifiedDevs then (true, l)
  else
    match s.probeFs path true with
    | none => (false, l)
    | some probe =>
      if !probe.isBtrfs || decide (probe.uuid ≠ some uuid) then (false, l)
      else (true, { l with verifiedDevs := st.dev :: l.verifiedDevs })

def checkLockedFs (l : LockedFs Dev U) (path : Path) (st : Statx Dev) : Bool × LockedFs Dev U :=
  match (if l.uuid = none then s.fsUuid else some l.uuid) with
  | none => (false, l)
  | some none =>
    match s.probeFs path false with
    | none => (false, l)
    | some probe =>
      (true, { l with uuid := probe.uuid, dev := some st.dev, isBtrfs := probe.isBtrfs })
  | some (some uuid) =>
    let l := { l with uuid := some uuid }
    match l.dev with
    | none =>
      match s.probeFs path false with
      | none => (false, l)
      | some probe =>
        if probe.uuid ≠ some uuid then (false, l)
        else (true, { l with dev := some st.dev, isBtrfs := probe.isBtrfs })
    | some dev => s.checkDevice l uuid dev path st

def checkReadonly (l : LockedFs Dev U) (path : Path) (st : Statx Dev) : Bool × LockedFs Dev U :=
  if l.isBtrfs && s.options.skipReadonlySubvols then s.devIsReadonlySubvol l st.dev path
  else (false, l)

/-- What comes of a path that is neither excluded nor left out for its kind or size. -/
def checkTaken (l : LockedFs Dev U) (path : Path) (st : Statx Dev) (parentChecked : Bool) :
    Bool × LockedFs Dev U :=
  let checked := s.checkReadonly l path st
  if checked.1 then (false, checked.2)
  else if st.kind = .reg ∧ parentChecked then (true, checked.2)
  else s.checkLockedFs checked.2 path st

def checkFile (l : LockedFs Dev U) (path : Path) (st : Statx Dev) (parentChecked : Bool) :
    Bool × LockedFs Dev U :=
  if s.isExcluded path (st.kind = .dir) then (false, l)
  else if st.kind ≠ .reg ∧ st.kind ≠ .dir then (false, l)
  else if st.kind = .reg ∧ st.size < s.options.minFilesize then (false, l)
  else if st.kind = .reg ∧ s.options.maxFilesize ≠ 0 ∧ s.options.maxFilesize < st.size then
    (false, l)
  else s.checkTaken l path st parentChecked

end Scan

namespace LockedFs

variable {Dev U : Type*}

structure Locked (l : LockedFs Dev U) : Prop where
  uuid : l.uuid ≠ none
  dev : l.dev ≠ none

structure Later (l l' : LockedFs Dev U) : Prop where
  uuid : l'.uuid = l.uuid
  dev : l'.dev = l.dev
  isBtrfs : l'.isBtrfs = l.isBtrfs
  verifiedDevs : l.verifiedDevs ⊆ l'.verifiedDevs

theorem Later.refl (l : LockedFs Dev U) : Later l l := ⟨rfl, rfl, rfl, List.Subset.refl _⟩

theorem Later.trans {l l' l'' : LockedFs Dev U} (h : Later l l') (h' : Later l' l'') :
    Later l l'' :=
  ⟨h'.uuid.trans h.uuid, h'.dev.trans h.dev, h'.isBtrfs.trans h.isBtrfs,
    List.Subset.trans h.verifiedDevs h'.verifiedDevs⟩

theorem Later.locked {l l' : LockedFs Dev U} (h : Later l l') (hl : l.Locked) : l'.Locked :=
  ⟨h.uuid ▸ hl.uuid, h.dev ▸ hl.dev⟩

def Covers (l : LockedFs Dev U) (dev : Dev) : Prop :=
  if l.isBtrfs then dev ∈ l.verifiedDevs else l.dev = some dev

theorem Later.covers {l l' : LockedFs Dev U} (h : Later l l') {dev : Dev} (hdev : l.Covers dev) :
    l'.Covers dev := by
  unfold Covers at hdev ⊢
  rw [h.isBtrfs, h.dev]
  split_ifs at hdev ⊢
  · exact h.verifiedDevs hdev
  · exact hdev

end LockedFs

namespace Scan

variable {ν Dev U : Type*} [DecidableEq Dev] [DecidableEq U] {s : Scan ν Dev U}
  {l : LockedFs Dev U} {path : Path} {st : Statx Dev} {parentChecked : Bool}

/-- What is remembered about subvolumes is what asking would say. -/
def Answered (s : Scan ν Dev U) (l : LockedFs Dev U) : Prop :=
  ∀ dev rdonly, l.roSubvols dev = some rdonly → rdonly = s.volume.rdonlySubvol dev

/-- Whether a subvolume's read-only property keeps the path out. -/
def Readonly (s : Scan ν Dev U) (l : LockedFs Dev U) (st : Statx Dev) : Prop :=
  l.isBtrfs = true ∧ s.options.skipReadonlySubvols = true ∧ s.volume.rdonlySubvol st.dev = true

omit [DecidableEq U] in
theorem devIsReadonlySubvol_later (dev : Dev) :
    LockedFs.Later l (s.devIsReadonlySubvol l dev path).2 := by
  unfold devIsReadonlySubvol
  split
  · exact .refl l
  · split
    · exact .refl l
    · exact ⟨rfl, rfl, rfl, List.Subset.refl _⟩

omit [DecidableEq U] in
theorem devIsReadonlySubvol_answered (h : s.Answered l) (dev : Dev) :
    s.Answered (s.devIsReadonlySubvol l dev path).2 := by
  unfold devIsReadonlySubvol
  split
  · exact h
  · split
    · exact h
    · intro dev' rdonly hdev'
      rcases eq_or_ne dev' dev with rfl | hne
      · exact (by simpa using hdev' : _ = rdonly).symm
      · exact h dev' rdonly (by simpa [hne] using hdev')

omit [DecidableEq U] in
/-- The answer is right, unless the path could not be opened to ask. -/
theorem devIsReadonlySubvol_eq (h : s.Answered l) {dev : Dev} :
    ((s.devIsReadonlySubvol l dev path).1 = true → s.volume.rdonlySubvol dev = true) ∧
      ((s.devIsReadonlySubvol l dev path).1 = false → s.volume.rdonlySubvol dev = true →
        s.volume.longpathOpen path false = none) := by
  unfold devIsReadonlySubvol
  split
  · next rdonly hdev =>
    rw [h dev rdonly hdev]
    simp_all
  · split <;> simp_all

theorem checkDevice_spec {uuid : U} {dev : Dev} (hdev : l.dev = some dev) :
    LockedFs.Later l (s.checkDevice l uuid dev path st).2 ∧
      (s.checkDevice l uuid dev path st).2.roSubvols = l.roSubvols ∧
      ((s.checkDevice l uuid dev path st).1 = true →
        (s.checkDevice l uuid dev path st).2.Covers st.dev) := by
  unfold checkDevice
  cases hbtrfs : l.isBtrfs with
  | false =>
    refine ⟨.refl l, rfl, fun haccept => ?_⟩
    simpa [LockedFs.Covers, hbtrfs, hdev] using haccept
  | true =>
    simp only [Bool.not_true, Bool.false_eq_true, if_false]
    split
    · next hknown =>
      exact ⟨.refl l, rfl, fun _ => by simpa [LockedFs.Covers, hbtrfs] using hknown⟩
    · split
      · exact ⟨.refl l, rfl, fun haccept => by cases haccept⟩
      · split
        · exact ⟨.refl l, rfl, fun haccept => by cases haccept⟩
        · refine ⟨⟨rfl, rfl, hbtrfs.symm, List.subset_cons_self _ _⟩, rfl, fun _ => ?_⟩
          simp [LockedFs.Covers]

theorem checkDevice_of_covers {uuid : U} {dev : Dev} (hdev : l.dev = some dev)
    (h : l.Covers st.dev) : (s.checkDevice l uuid dev path st).1 = true := by
  unfold checkDevice
  unfold LockedFs.Covers at h
  cases hbtrfs : l.isBtrfs with
  | false =>
    rw [hbtrfs, if_neg Bool.false_ne_true, hdev] at h
    simpa using h
  | true =>
    rw [hbtrfs, if_pos rfl] at h
    simp [h]

/-- With a filesystem locked, only the device is left to check. -/
theorem checkLockedFs_of_locked (hl : l.Locked) : ∃ uuid dev, l.dev = some dev ∧
    s.checkLockedFs l path st = s.checkDevice l uuid dev path st := by
  obtain ⟨uuid, dev, isBtrfs, verifiedDevs, roSubvols⟩ := l
  obtain ⟨uuid, rfl⟩ := Option.ne_none_iff_exists'.mp hl.uuid
  obtain ⟨dev, rfl⟩ := Option.ne_none_iff_exists'.mp hl.dev
  exact ⟨uuid, dev, rfl, rfl⟩

omit [DecidableEq Dev] [DecidableEq U] in
theorem probeFs_uuid {probe : FsProbe U} (h : s.probeFs path false = some probe) :
    probe.uuid ≠ none := by
  unfold probeFs at h
  simp only [Bool.false_eq_true, if_false] at h
  grind

theorem checkLockedFs_locked (h : (s.checkLockedFs l path st).1 = true) :
    (s.checkLockedFs l path st).2.Locked := by
  unfold checkLockedFs at h ⊢
  split
  · next hconfig => simp [hconfig] at h
  · next hconfig =>
    rw [hconfig] at h
    cases hprobe : s.probeFs path false with
    | none => simp [hprobe] at h
    | some probe => exact ⟨probeFs_uuid hprobe, Option.some_ne_none _⟩
  · next uuid hconfig =>
    rw [hconfig] at h
    cases hdev : l.dev with
    | some dev =>
      exact (checkDevice_spec rfl).1.locked ⟨Option.some_ne_none _, Option.some_ne_none _⟩
    | none =>
      simp only [hdev] at h ⊢
      cases hprobe : s.probeFs path false with
      | none => simp [hprobe] at h
      | some probe =>
        by_cases huuid : probe.uuid = some uuid
        · simpa [huuid] using LockedFs.Locked.mk (by simp) (by simp)
        · simp [hprobe, huuid] at h

theorem checkLockedFs_roSubvols : (s.checkLockedFs l path st).2.roSubvols = l.roSubvols := by
  unfold checkLockedFs
  split
  · rfl
  · split <;> rfl
  · next uuid _ =>
    cases hdev : l.dev with
    | some dev => exact (checkDevice_spec rfl).2.1
    | none =>
      cases s.probeFs path false with
      | none => rfl
      | some probe => by_cases huuid : probe.uuid = some uuid <;> simp [huuid]

omit [DecidableEq U] in
theorem checkReadonly_spec (ha : s.Answered l) :
    LockedFs.Later l (s.checkReadonly l path st).2 ∧ s.Answered (s.checkReadonly l path st).2 ∧
      ((s.checkReadonly l path st).1 = true → s.Readonly l st) ∧
      ((s.checkReadonly l path st).1 = false → s.Readonly l st →
        s.volume.longpathOpen path false = none) := by
  unfold checkReadonly Readonly
  split
  · next hasked =>
    rw [Bool.and_eq_true] at hasked
    obtain ⟨htrue, hfalse⟩ := @devIsReadonlySubvol_eq _ _ _ _ s l path ha st.dev
    exact ⟨devIsReadonlySubvol_later st.dev, devIsReadonlySubvol_answered ha st.dev,
      fun h => ⟨hasked.1, hasked.2, htrue h⟩, fun h hro => hfalse h hro.2.2⟩
  · next hasked =>
    exact ⟨.refl l, ha, by simp, fun _ hro => absurd (by simp [hro.1, hro.2.1]) hasked⟩

structure Takes (s : Scan ν Dev U) (path : Path) (st : Statx Dev) : Prop where
  notExcluded : s.isExcluded path (st.kind = .dir) = false
  kind : st.kind = .reg ∨ st.kind = .dir
  minFilesize : st.kind = .reg → s.options.minFilesize ≤ st.size
  maxFilesize : st.kind = .reg → s.options.maxFilesize ≠ 0 → st.size ≤ s.options.maxFilesize

theorem checkFile_of_takes (h : s.Takes path st) :
    s.checkFile l path st parentChecked = s.checkTaken l path st parentChecked := by
  have hkind : ¬ (st.kind ≠ .reg ∧ st.kind ≠ .dir) := by
    rcases h.kind with hreg | hdir
    · simp [hreg]
    · simp [hdir]
  rw [checkFile, if_neg (by simp [h.notExcluded]), if_neg hkind,
    if_neg fun hmin => (h.minFilesize hmin.1).not_gt hmin.2,
    if_neg fun hmax => (h.maxFilesize hmax.1 hmax.2.1).not_gt hmax.2.2]

theorem checkFile_of_not_takes (h : ¬ s.Takes path st) :
    s.checkFile l path st parentChecked = (false, l) := by
  unfold checkFile
  split_ifs with hexcluded hkind hmin hmax
  · rfl
  · rfl
  · rfl
  · rfl
  · refine absurd ⟨Bool.eq_false_of_not_eq_true hexcluded, ?_, ?_, ?_⟩ h
    · exact or_iff_not_and_not.mpr hkind
    · exact fun hreg => Nat.le_of_not_lt fun hlt => hmin ⟨hreg, hlt⟩
    · exact fun hreg hne => Nat.le_of_not_lt fun hlt => hmax ⟨hreg, hne, hlt⟩

theorem checkTaken_of_readonly (h : (s.checkReadonly l path st).1 = true) :
    s.checkTaken l path st parentChecked = (false, (s.checkReadonly l path st).2) := by
  rw [checkTaken, if_pos h]

theorem checkTaken_of_reg (h : (s.checkReadonly l path st).1 = false) (hreg : st.kind = .reg) :
    s.checkTaken l path st true = (true, (s.checkReadonly l path st).2) := by
  rw [checkTaken, if_neg (by simp [h]), if_pos ⟨hreg, rfl⟩]

theorem checkTaken_of_unchecked (h : (s.checkReadonly l path st).1 = false)
    (hun : ¬ (st.kind = .reg ∧ parentChecked = true)) :
    s.checkTaken l path st parentChecked =
      s.checkLockedFs (s.checkReadonly l path st).2 path st := by
  rw [checkTaken, if_neg (by simp [h]), if_neg hun]

/-- The cache keeps right answers, and a filesystem once locked stays locked. -/
theorem checkTaken_keeps (ha : s.Answered l) :
    s.Answered (s.checkTaken l path st parentChecked).2 ∧
      (l.Locked → LockedFs.Later l (s.checkTaken l path st parentChecked).2) := by
  obtain ⟨hlater, hanswered, -, -⟩ := @checkReadonly_spec _ _ _ _ s l path st ha
  cases hro : (s.checkReadonly l path st).1 with
  | true =>
    rw [checkTaken_of_readonly hro]
    exact ⟨hanswered, fun _ => hlater⟩
  | false =>
    by_cases hun : st.kind = .reg ∧ parentChecked = true
    · obtain ⟨hreg, rfl⟩ := hun
      rw [checkTaken_of_reg hro hreg]
      exact ⟨hanswered, fun _ => hlater⟩
    · rw [checkTaken_of_unchecked hro hun]
      refine ⟨fun dev rdonly hdev => hanswered dev rdonly ?_, fun hl => ?_⟩
      · rwa [checkLockedFs_roSubvols] at hdev
      · obtain ⟨uuid, dev, hdev, heq⟩ :=
          @checkLockedFs_of_locked _ _ _ _ _ s _ path st (hlater.locked hl)
        rw [heq]
        exact hlater.trans (checkDevice_spec hdev).1

theorem checkFile_answered (ha : s.Answered l) :
    s.Answered (s.checkFile l path st parentChecked).2 := by
  by_cases htakes : s.Takes path st
  · rw [checkFile_of_takes htakes]
    exact (checkTaken_keeps ha).1
  · rw [checkFile_of_not_takes htakes]
    exact ha

theorem checkFile_later (ha : s.Answered l) (hl : l.Locked) :
    LockedFs.Later l (s.checkFile l path st parentChecked).2 := by
  by_cases htakes : s.Takes path st
  · rw [checkFile_of_takes htakes]
    exact (checkTaken_keeps ha).2 hl
  · rw [checkFile_of_not_takes htakes]
    exact .refl l

theorem takes_of_checkFile (h : (s.checkFile l path st parentChecked).1 = true) :
    s.Takes path st := by
  by_contra hnot
  rw [checkFile_of_not_takes hnot] at h
  cases h

theorem checkFile_locked (h : (s.checkFile l path st false).1 = true) :
    (s.checkFile l path st false).2.Locked := by
  have htakes := takes_of_checkFile h
  rw [checkFile_of_takes htakes] at h ⊢
  cases hro : (s.checkReadonly l path st).1 with
  | true =>
    rw [checkTaken_of_readonly hro] at h
    cases h
  | false =>
    rw [checkTaken_of_unchecked hro (by simp)] at h ⊢
    exact checkLockedFs_locked h

/-- What is accepted below a checked parent: its subvolume does not keep it out, as far as could be
asked, and a directory lies on a device that is covered from then on. -/
theorem checkFile_accepts (ha : s.Answered l) (hl : l.Locked)
    (h : (s.checkFile l path st true).1 = true) :
    (s.Readonly l st → s.volume.longpathOpen path false = none) ∧
      (st.kind = .reg ∨ (s.checkFile l path st true).2.Covers st.dev) := by
  have htakes := takes_of_checkFile h
  rw [checkFile_of_takes htakes] at h ⊢
  obtain ⟨hlater, -, -, hunasked⟩ := @checkReadonly_spec _ _ _ _ s l path st ha
  cases hro : (s.checkReadonly l path st).1 with
  | true =>
    rw [checkTaken_of_readonly hro] at h
    cases h
  | false =>
    refine ⟨hunasked hro, ?_⟩
    by_cases hreg : st.kind = .reg
    · exact Or.inl hreg
    · rw [checkTaken_of_unchecked hro (by simp [hreg])] at h ⊢
      obtain ⟨uuid, dev, hdev, heq⟩ :=
        @checkLockedFs_of_locked _ _ _ _ _ s _ path st (hlater.locked hl)
      rw [heq] at h ⊢
      exact Or.inr ((checkDevice_spec hdev).2.2 h)

theorem checkFile_of_covers (ha : s.Answered l) (hl : l.Locked) (htakes : s.Takes path st)
    (hro : ¬ s.Readonly l st) (hdev : st.kind = .reg ∨ l.Covers st.dev) :
    (s.checkFile l path st true).1 = true := by
  obtain ⟨hlater, -, hasked, -⟩ := @checkReadonly_spec _ _ _ _ s l path st ha
  have hpass : (s.checkReadonly l path st).1 = false :=
    Bool.eq_false_of_not_eq_true fun htrue => hro (hasked htrue)
  rw [checkFile_of_takes htakes]
  by_cases hreg : st.kind = .reg
  · rw [checkTaken_of_reg hpass hreg]
  · rw [checkTaken_of_unchecked hpass (by simp [hreg])]
    obtain ⟨uuid, dev, hlocked, heq⟩ :=
      @checkLockedFs_of_locked _ _ _ _ _ s _ path st (hlater.locked hl)
    rw [heq]
    exact checkDevice_of_covers hlocked (hlater.covers (hdev.resolve_left hreg))

/-- What is accepted is accepted again, if it could be opened where its subvolume matters. -/
theorem checkFile_again {l' : LockedFs Dev U} (ha : s.Answered l) (hl : l.Locked)
    (h : (s.checkFile l path st true).1 = true)
    (hopen : s.Readonly l st → (s.volume.longpathOpen path false).isSome)
    (hlater : LockedFs.Later (s.checkFile l path st true).2 l') (ha' : s.Answered l') :
    (s.checkFile l' path st true).1 = true := by
  obtain ⟨hunasked, hcovers⟩ := checkFile_accepts ha hl h
  have hfrom := (checkFile_later ha hl).trans hlater
  refine checkFile_of_covers ha' (hfrom.locked hl) (takes_of_checkFile h) (fun hro => ?_)
    (hcovers.imp_right hlater.covers)
  have hbefore : s.Readonly l st := ⟨hfrom.isBtrfs ▸ hro.1, hro.2⟩
  simpa [hunasked hbefore] using hopen hbefore

end Scan

end Oans
