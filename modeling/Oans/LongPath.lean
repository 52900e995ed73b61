import Oans.PathResolution

/-!
# Paths longer than one system call

A path over `PATH_MAX` bytes is opened piece by piece: `open_ancestor()` cuts the parent path into
chunks of whole components that fit one `openat()` each, and the leaf is looked up in the
directory the last one opened. The calls are a parameter of the model. Cutting needs no answers,
so it is a function of its own, and the walk is that of its chunks.
-/

namespace Oans

open PathResolution

def PATH_MAX : ℕ := 4096

def NAME_MAX : ℕ := 255

def LONGPATH_MAXLEN : ℕ := PATH_MAX - 1

inductive Errno
  | ENOENT
  | ENOTDIR
  | ENAMETOOLONG
  | other (code : ℕ)
  deriving DecidableEq, Repr

/-- `memrchr()`: the last `c` among the first `n` bytes. -/
def memrchr (s : Path) (c : UInt8) : ℕ → Option ℕ
  | 0 => none
  | n + 1 => if s[n]? = some c then some n else memrchr s c n

def strrchr (s : Path) (c : UInt8) : Option ℕ := memrchr s c s.length

theorem memrchr_eq_some {s : Path} {c : UInt8} {n i : ℕ} (h : memrchr s c n = some i) :
    i < n ∧ s[i]? = some c ∧ ∀ j, i < j → j < n → s[j]? ≠ some c := by
  induction n with
  | zero => simp [memrchr] at h
  | succ n ih =>
    rw [memrchr] at h
    by_cases hn : s[n]? = some c
    · rw [if_pos hn, Option.some.injEq] at h
      subst h
      exact ⟨by omega, hn, fun j hj hlt => by omega⟩
    · rw [if_neg hn] at h
      obtain ⟨hi, hc, hlast⟩ := ih h
      refine ⟨by omega, hc, fun j hj hlt => ?_⟩
      rcases Nat.lt_or_ge j n with hjn | hjn
      · exact hlast j hj hjn
      · obtain rfl : j = n := by omega
        exact hn

theorem memrchr_eq_none {s : Path} {c : UInt8} {n : ℕ} (h : memrchr s c n = none) :
    ∀ j < n, s[j]? ≠ some c := by
  induction n with
  | zero => exact fun j hj => absurd hj (Nat.not_lt_zero j)
  | succ n ih =>
    rw [memrchr] at h
    by_cases hn : s[n]? = some c
    · rw [if_pos hn] at h
      cases h
    · rw [if_neg hn] at h
      intro j hj
      rcases Nat.lt_or_ge j n with hjn | hjn
      · exact ih h j hjn
      · obtain rfl : j = n := by omega
        exact hn

def chunkEnd (s : Path) : Option ℕ :=
  if s.length ≤ LONGPATH_MAXLEN then some s.length
  else memrchr s slash (LONGPATH_MAXLEN + 1)

def skipSlashes (s : Path) : Path := s.dropWhile (· = slash)

theorem skipSlashes_length_le (s : Path) : (skipSlashes s).length ≤ s.length :=
  (List.dropWhile_suffix _).length_le

theorem skipSlashes_head {s t : Path} {c : UInt8} (h : skipSlashes s = c :: t) : c ≠ slash := by
  unfold skipSlashes at h
  have hne : s.dropWhile (· = slash) ≠ [] := by
    rw [h]
    exact List.cons_ne_nil c t
  have hhead := List.head_dropWhile_not _ hne
  simpa [h] using hhead

/-- A chunk that starts with a name byte is not empty, fits one call and ends on a boundary. -/
theorem chunkEnd_spec {c : UInt8} {s : Path} {fit : ℕ} (hc : c ≠ slash)
    (h : chunkEnd (c :: s) = some fit) :
    0 < fit ∧ fit ≤ (c :: s).length ∧ fit ≤ LONGPATH_MAXLEN ∧
      (fit = (c :: s).length ∨ (c :: s)[fit]? = some slash) := by
  unfold chunkEnd at h
  by_cases hlen : (c :: s).length ≤ LONGPATH_MAXLEN
  · rw [if_pos hlen, Option.some.injEq] at h
    subst h
    exact ⟨Nat.succ_pos _, le_rfl, hlen, Or.inl rfl⟩
  · rw [if_neg hlen] at h
    obtain ⟨hlt, hslash, -⟩ := memrchr_eq_some h
    have hpos : 0 < fit := by
      rcases Nat.eq_zero_or_pos fit with rfl | hpos
      · exact absurd (Option.some.inj hslash) hc
      · exact hpos
    exact ⟨hpos, by omega, by omega, Or.inr hslash⟩

theorem drop_chunkEnd_lt {s t : Path} {c : UInt8} {fit : ℕ} (h : skipSlashes s = c :: t)
    (hfit : chunkEnd (c :: t) = some fit) : ((c :: t).drop fit).length < s.length := by
  obtain ⟨hpos, hle, -, -⟩ := chunkEnd_spec (skipSlashes_head h) hfit
  have := skipSlashes_length_le s
  rw [h] at this
  rw [List.length_drop]
  omega

section Walk

variable {ν : Type*} (openat : ν → Path → Option (Except Errno ν))

/-- `open_ancestor()` from the directory it has reached: the chunks it passes to `openat()`, and
what it returns, unless a call never does. -/
def openAncestor (dfd : ν) (p : Path) : List Path × Option (Except Errno ν) :=
  match _h : skipSlashes p with
  | [] => ([], some (.ok dfd))
  | c :: start =>
    match _hfit : chunkEnd (c :: start) with
    | none => ([], some (.error .ENAMETOOLONG))
    | some fit =>
      let chunk := (c :: start).take fit
      match openat dfd chunk with
      | none => ([chunk], none)
      | some (.error e) => ([chunk], some (.error e))
      | some (.ok next) =>
        let run := openAncestor next ((c :: start).drop fit)
        (chunk :: run.1, run.2)
termination_by p.length
decreasing_by exact drop_chunkEnd_lt _h _hfit

structure ParentDir (ν : Type*) where
  passed : List Path
  dfd : Option (Except Errno ν)
  baseOut : Path

/-- `open_parent_dir()`; no result where it aborts for want of a slash. -/
def openParentDir (root : ν) (abspath : Path) : Option (ParentDir ν) :=
  match strrchr abspath slash with
  | none => none
  | some i =>
    if abspath.drop (i + 1) = [] then some ⟨[], some (.error .ENOTDIR), []⟩
    else
      let run := openAncestor openat root (abspath.take i)
      some ⟨run.1, run.2, abspath.drop (i + 1)⟩

/-- `openat_leaf()` and the body of `longpath_statat()` past the fast path: `leaf` is the call on
the final component. -/
def openatLeaf {α : Type*} (leaf : ν → Path → Option (Except Errno α)) (root : ν)
    (abspath : Path) : Option (Except Errno α) :=
  match openParentDir openat root abspath with
  | none => none
  | some parent =>
    match parent.dfd with
    | none => none
    | some (.error e) => some (.error e)
    | some (.ok dfd) => leaf dfd parent.baseOut

end Walk

def fitsOneSyscall (abspath : Path) : Bool :=
  decide (min abspath.length PATH_MAX ≤ LONGPATH_MAXLEN) || abspath.head? != some slash

/-- `longpath_open()` and `longpath_statat()`: one call where the path fits, else the pieces. -/
def longpathAt {ν α : Type*} (openat : ν → Path → Option (Except Errno ν))
    (leaf : ν → Path → Option (Except Errno α)) (root : ν) (abspath : Path) :
    Option (Except Errno α) :=
  if fitsOneSyscall abspath then leaf root abspath else openatLeaf openat leaf root abspath

/-- The chunks of a path in order, and whether the cutting stops at a component that fits no
call. -/
def splitPath (p : Path) : List Path × Bool :=
  match _h : skipSlashes p with
  | [] => ([], false)
  | c :: start =>
    match _hfit : chunkEnd (c :: start) with
    | none => ([], true)
    | some fit =>
      let rest := splitPath ((c :: start).drop fit)
      ((c :: start).take fit :: rest.1, rest.2)
termination_by p.length
decreasing_by exact drop_chunkEnd_lt _h _hfit

theorem splitPath_end {p : Path} (h : skipSlashes p = []) : splitPath p = ([], false) := by
  rw [splitPath]
  split <;> simp_all

theorem splitPath_tooLong {p start : Path} {c : UInt8} (h : skipSlashes p = c :: start)
    (hfit : chunkEnd (c :: start) = none) : splitPath p = ([], true) := by
  rw [splitPath]
  split
  · simp_all
  · next heq =>
    obtain ⟨rfl, rfl⟩ := List.cons.inj (heq.symm.trans h)
    split <;> simp_all

theorem splitPath_chunk {p start : Path} {c : UInt8} {fit : ℕ} (h : skipSlashes p = c :: start)
    (hfit : chunkEnd (c :: start) = some fit) :
    splitPath p = ((c :: start).take fit :: (splitPath ((c :: start).drop fit)).1,
      (splitPath ((c :: start).drop fit)).2) := by
  rw [splitPath]
  split
  · simp_all
  · next heq =>
    obtain ⟨rfl, rfl⟩ := List.cons.inj (heq.symm.trans h)
    split <;> simp_all

section Walk

variable {ν : Type*} (openat : ν → Path → Option (Except Errno ν))

def openChunks (tooLong : Bool) : ν → List Path → List Path × Option (Except Errno ν)
  | dfd, [] => ([], some (if tooLong then .error .ENAMETOOLONG else .ok dfd))
  | dfd, chunk :: chunks =>
    match openat dfd chunk with
    | none => ([chunk], none)
    | some (.error e) => ([chunk], some (.error e))
    | some (.ok next) =>
      let run := openChunks tooLong next chunks
      (chunk :: run.1, run.2)

theorem openAncestor_eq (dfd : ν) (p : Path) :
    openAncestor openat dfd p = openChunks openat (splitPath p).2 dfd (splitPath p).1 := by
  induction p using splitPath.induct generalizing dfd with
  | case1 p h =>
    rw [splitPath_end h, openAncestor]
    split <;> simp_all [openChunks]
  | case2 p c start h hfit =>
    rw [splitPath_tooLong h hfit, openAncestor]
    split
    · simp_all
    · next heq =>
      obtain ⟨rfl, rfl⟩ := List.cons.inj (heq.symm.trans h)
      split <;> simp_all [openChunks]
  | case3 p c start h fit hfit ih =>
    rw [splitPath_chunk h hfit, openAncestor, openChunks]
    split
    · simp_all
    · next heq =>
      obtain ⟨rfl, rfl⟩ := List.cons.inj (heq.symm.trans h)
      split
      · simp_all
      · next heq =>
        obtain rfl := Option.some.inj (heq.symm.trans hfit)
        simp only [ih]

end Walk

/-- A chunk of a path: it fits one call, and starts and ends on component boundaries. -/
structure IsChunk (p chunk : Path) : Prop where
  nonempty : chunk ≠ []
  relative : chunk.head? ≠ some slash
  fits : chunk.length ≤ LONGPATH_MAXLEN
  boundary : ∃ before after, p = before ++ chunk ++ after ∧
    (after = [] ∨ after.head? = some slash)

theorem IsChunk.append {p q chunk : Path} (h : IsChunk p chunk) : IsChunk (q ++ p) chunk := by
  obtain ⟨before, after, rfl, hafter⟩ := h.boundary
  exact ⟨h.nonempty, h.relative, h.fits, q ++ before, after, by simp, hafter⟩

theorem skipSlashes_suffix (p : Path) : ∃ before, p = before ++ skipSlashes p := by
  obtain ⟨before, h⟩ := List.dropWhile_suffix (fun c => decide (c = slash)) (l := p)
  exact ⟨before, h.symm⟩

theorem isChunk_of_mem_splitPath {p chunk : Path} (h : chunk ∈ (splitPath p).1) :
    IsChunk p chunk := by
  induction p using splitPath.induct with
  | case1 p hskip =>
    rw [splitPath_end hskip] at h
    cases h
  | case2 p c start hskip hfit =>
    rw [splitPath_tooLong hskip hfit] at h
    cases h
  | case3 p c start hskip fit hfit ih =>
    rw [splitPath_chunk hskip hfit, List.mem_cons] at h
    have hc := skipSlashes_head hskip
    obtain ⟨hpos, hle, hmax, hend⟩ := chunkEnd_spec hc hfit
    obtain ⟨before, hp⟩ := skipSlashes_suffix p
    rw [hskip] at hp
    rcases h with rfl | h
    · refine ⟨?_, ?_, ?_, before, (c :: start).drop fit, ?_, ?_⟩
      · rw [← List.length_pos_iff, List.length_take]
        omega
      · rw [List.head?_take, if_neg (by omega)]
        simpa using hc
      · rw [List.length_take]
        omega
      · rw [List.append_assoc, List.take_append_drop, ← hp]
      · rcases hend with hend | hend
        · exact Or.inl (List.drop_eq_nil_of_le hend.ge)
        · exact Or.inr (by rw [List.head?_drop, hend])
    · have hsuffix : p = before ++ (c :: start).take fit ++ (c :: start).drop fit := by
        rw [List.append_assoc, List.take_append_drop, ← hp]
      rw [hsuffix]
      exact (ih h).append

/-- The chunks hold the components of the path in order, up to one that fits no call. -/
theorem splitPath_components (p : Path) :
    ∃ rest, components p = (splitPath p).1.flatMap components ++ rest ∧
      ((splitPath p).2 = false → rest = []) ∧
      ((splitPath p).2 = true → ∃ c cs, rest = c :: cs ∧ LONGPATH_MAXLEN < c.length) := by
  induction p using splitPath.induct with
  | case1 p h =>
    refine ⟨[], ?_, fun _ => rfl, fun htrue => ?_⟩
    · rw [splitPath_end h, ← components_dropWhile_slash p, ← skipSlashes, h]
      rfl
    · rw [splitPath_end h] at htrue
      cases htrue
  | case2 p c start h hfit =>
    have hcomps : components p = components (c :: start) := by
      rw [← h, skipSlashes, components_dropWhile_slash]
    have hlen : ¬ (c :: start).length ≤ LONGPATH_MAXLEN := by
      intro hle
      rw [chunkEnd, if_pos hle] at hfit
      cases hfit
    rw [chunkEnd, if_neg hlen] at hfit
    have hnone : slash ∉ (c :: start).take (LONGPATH_MAXLEN + 1) := by
      intro hmem
      obtain ⟨i, hi, hget⟩ := List.mem_take_iff_getElem.mp hmem
      refine memrchr_eq_none hfit i (by omega) ?_
      rw [List.getElem?_eq_getElem (by omega), hget]
    obtain ⟨name, names, hnames, hlong⟩ :=
      components_eq_cons_of_take (Nat.succ_pos _) (Nat.lt_of_not_le hlen) hnone
    rw [splitPath_tooLong h (by rw [chunkEnd, if_neg hlen, hfit])]
    exact ⟨name :: names, by rw [hcomps, hnames]; rfl, by simp,
      fun _ => ⟨name, names, rfl, hlong⟩⟩
  | case3 p c start h fit hfit ih =>
    obtain ⟨rest, hrest, hshort, hlong⟩ := ih
    rw [splitPath_chunk h hfit]
    refine ⟨rest, ?_, hshort, hlong⟩
    obtain ⟨-, hle, -, hend⟩ := chunkEnd_spec (skipSlashes_head h) hfit
    have hcut : components (c :: start) =
        components ((c :: start).take fit) ++ components ((c :: start).drop fit) := by
      rcases hend with hend | hend
      · rw [List.take_of_length_le hend.ge, List.drop_eq_nil_of_le hend.ge, components_nil,
          List.append_nil]
      · obtain ⟨hlt, hget⟩ := List.getElem?_eq_some_iff.mp hend
        have hdrop := List.drop_eq_getElem_cons hlt
        rw [hget] at hdrop
        rw [hdrop, components_slash_cons, ← components_append_slash, ← hdrop,
          List.take_append_drop]
    rw [← components_dropWhile_slash p, ← skipSlashes, h, hcut, hrest, List.flatMap_cons,
      List.append_assoc]

section Walk

variable {ν : Type*} (openat : ν → Path → Option (Except Errno ν))

theorem openChunks_initial (tooLong : Bool) (dfd : ν) (chunks : List Path) :
    (openChunks openat tooLong dfd chunks).1 <+: chunks := by
  induction chunks generalizing dfd with
  | nil => exact List.prefix_rfl
  | cons chunk chunks ih =>
    rw [openChunks]
    split
    · exact ⟨chunks, rfl⟩
    · exact ⟨chunks, rfl⟩
    · exact (List.prefix_cons_inj chunk).mpr (ih _)

theorem openChunks_of_ok {tooLong : Bool} {dfd m : ν} {chunks : List Path}
    (h : (openChunks openat tooLong dfd chunks).2 = some (.ok m)) :
    (openChunks openat tooLong dfd chunks).1 = chunks ∧ tooLong = false := by
  induction chunks generalizing dfd with
  | nil => cases tooLong <;> simp_all [openChunks]
  | cons chunk chunks ih =>
    rw [openChunks] at h ⊢
    split at h
    · cases h
    · cases h
    · next next _ =>
      simp only
      obtain ⟨hpassed, hshort⟩ := ih h
      exact ⟨by rw [hpassed], hshort⟩

theorem openChunks_isSome (hanswers : ∀ d chunk, (openat d chunk).isSome) (tooLong : Bool)
    (dfd : ν) (chunks : List Path) : (openChunks openat tooLong dfd chunks).2.isSome := by
  induction chunks generalizing dfd with
  | nil => rfl
  | cons chunk chunks ih =>
    rw [openChunks]
    split
    · next hnone =>
      have := hanswers dfd chunk
      rw [hnone] at this
      cases this
    · rfl
    · exact ih _

/-- Where no call reports a name too long, only the cutting does. -/
theorem openChunks_tooLong (hshort : ∀ d chunk, openat d chunk ≠ some (.error .ENAMETOOLONG))
    {tooLong : Bool} {dfd : ν} {chunks : List Path}
    (h : (openChunks openat tooLong dfd chunks).2 = some (.error .ENAMETOOLONG)) :
    tooLong = true := by
  induction chunks generalizing dfd with
  | nil => cases tooLong <;> simp_all [openChunks]
  | cons chunk chunks ih =>
    rw [openChunks] at h
    split at h
    · cases h
    · next e he =>
      obtain rfl : e = .ENAMETOOLONG := by simpa using h
      exact absurd he (hshort dfd chunk)
    · exact ih h

/-- A component that fits no call fails the walk where it would have ended. -/
theorem openChunks_true (dfd : ν) (chunks : List Path) :
    (openChunks openat true dfd chunks).2 =
      (openChunks openat false dfd chunks).2.map fun r => r.bind fun _ => .error .ENAMETOOLONG := by
  induction chunks generalizing dfd with
  | nil => rfl
  | cons chunk chunks ih =>
    rw [openChunks, openChunks]
    split
    · rfl
    · rfl
    · exact ih _

end Walk

/-- A directory tree as the kernel shows it: a node that is no directory has no entries, and no
entry has a name over `NAME_MAX`. -/
structure FileTree (ν : Type*) extends DirTree ν Errno where
  isDir : ν → Bool
  notDir : ∀ {d : ν} {c : Path}, isDir d = false → lookup d c = .error .ENOTDIR
  nameFits : ∀ {d n : ν} {c : Path}, lookup d c = .ok n → c.length ≤ NAME_MAX

namespace FileTree

variable {ν : Type*} (T : FileTree ν)

def Finds (follow : Bool) (d : ν) (arg : Path) (r : Except Errno ν) : Prop :=
  if arg = [] then r = .error .ENOENT
  else if LONGPATH_MAXLEN < arg.length then r = .error .ENAMETOOLONG
  else Resolves T.toDirTree (T.origin d arg) (components arg) follow r

theorem Finds.unique {follow : Bool} {d : ν} {arg : Path} {r r' : Except Errno ν}
    (h : T.Finds follow d arg r) (h' : T.Finds follow d arg r') : r = r' := by
  unfold Finds at h h'
  split_ifs at h h' with hnil hlong
  · exact h.trans h'.symm
  · exact h.trans h'.symm
  · exact h.unique h'

/-- `fstatat()`, and `openat()` past the search: no answer where the links never end. -/
noncomputable def find (follow : Bool) (d : ν) (arg : Path) : Option (Except Errno ν) :=
  answer (T.Finds follow d arg)

def requireDir (n : ν) : Except Errno ν := if T.isDir n then .ok n else .error .ENOTDIR

noncomputable def openatDir (d : ν) (arg : Path) : Option (Except Errno ν) :=
  (T.find true d arg).map fun r => r.bind T.requireDir

variable {T}

theorem find_eq_some_iff {follow : Bool} {d : ν} {arg : Path} {r : Except Errno ν} :
    T.find follow d arg = some r ↔ T.Finds follow d arg r :=
  answer_eq_some_iff (fun _ _ => Finds.unique T) r

theorem find_of_isChunk {follow : Bool} {d : ν} {p chunk : Path} {r : Except Errno ν}
    (h : IsChunk p chunk) : T.find follow d chunk = some r ↔
      Resolves T.toDirTree d (components chunk) follow r := by
  rw [find_eq_some_iff, Finds, if_neg h.nonempty, if_neg (Nat.not_lt.mpr h.fits),
    DirTree.origin, if_neg h.relative]

theorem resolves_notDir {d : ν} {cs : List Path} {follow : Bool} {r : Except Errno ν}
    (hcs : cs ≠ []) (hd : T.isDir d = false) :
    Resolves T.toDirTree d cs follow r ↔ r = .error .ENOTDIR := by
  obtain ⟨c, cs, rfl⟩ := List.exists_cons_of_ne_nil hcs
  exact resolves_cons_of_error (T.notDir hd)

theorem exists_lookup_error {c : Path} (hlong : LONGPATH_MAXLEN < c.length) (d : ν) :
    ∃ e, T.lookup d c = .error e := by
  cases h : T.lookup d c with
  | error e => exact ⟨e, rfl⟩
  | ok n =>
    have := T.nameFits h
    simp only [LONGPATH_MAXLEN, PATH_MAX, NAME_MAX] at hlong this
    omega

/-- Opening the chunks and going on where they lead is resolving their components and going on:
what a chunk ends on must be a directory either way. -/
theorem openChunks_resolves {p : Path} {chunks : List Path}
    (hchunks : ∀ chunk ∈ chunks, IsChunk p chunk) {tail : List Path} (htail : tail ≠ [])
    (d : ν) (follow : Bool) (r : Except Errno ν) :
    ((∃ m, (openChunks T.openatDir false d chunks).2 = some (.ok m) ∧
        Resolves T.toDirTree m tail follow r) ∨
      ∃ e, (openChunks T.openatDir false d chunks).2 = some (.error e) ∧ r = .error e) ↔
      Resolves T.toDirTree d (chunks.flatMap components ++ tail) follow r := by
  induction chunks generalizing d with
  | nil => simp [openChunks]
  | cons chunk chunks ih =>
    have hchunk := hchunks chunk List.mem_cons_self
    have hrest : chunks.flatMap components ++ tail ≠ [] := by simp [htail]
    rw [List.flatMap_cons, List.append_assoc, resolves_append hrest, openChunks]
    have hfind : ∀ {r}, T.find true d chunk = some r ↔
        Resolves T.toDirTree d (components chunk) true r := find_of_isChunk hchunk
    cases h : T.find true d chunk with
    | none =>
      have hnone : T.openatDir d chunk = none := by rw [openatDir, h]; rfl
      simp only [hnone, reduceCtorEq, false_and, exists_false, or_self, false_iff, not_or,
        not_exists, not_and]
      exact ⟨fun m hm => absurd (hfind.mpr hm) (by simp [h]),
        fun e he => absurd (hfind.mpr he) (by simp [h])⟩
    | some found =>
      have hfound := hfind.mp h
      cases found with
      | error e =>
        have herror : T.openatDir d chunk = some (.error e) := by rw [openatDir, h]; rfl
        simp only [herror, Option.some.injEq, reduceCtorEq, false_and, exists_false, false_or,
          Except.error.injEq, exists_eq_left']
        constructor
        · exact fun hr => Or.inr ⟨e, hfound, hr⟩
        · rintro (⟨m, hm, -⟩ | ⟨e', he', hr⟩)
          · cases hfound.unique hm
          · cases hfound.unique he'
            exact hr
      | ok m =>
        have hgoes : (∃ m, Resolves T.toDirTree d (components chunk) true (.ok m) ∧
            Resolves T.toDirTree m (chunks.flatMap components ++ tail) follow r) ∨
            (∃ e, Resolves T.toDirTree d (components chunk) true (.error e) ∧ r = .error e) ↔
            Resolves T.toDirTree m (chunks.flatMap components ++ tail) follow r := by
          constructor
          · rintro (⟨m', hm', hr⟩ | ⟨e, he, -⟩)
            · cases hfound.unique hm'
              exact hr
            · cases hfound.unique he
          · exact fun hr => Or.inl ⟨m, hfound, hr⟩
        rw [hgoes]
        cases hdir : T.isDir m with
        | true =>
          have hok : T.openatDir d chunk = some (.ok m) := by
            rw [openatDir, h]
            simp [Except.bind, requireDir, hdir]
          simp only [hok]
          exact ih (fun c hc => hchunks c (List.mem_cons_of_mem _ hc)) m
        | false =>
          have hnot : T.openatDir d chunk = some (.error .ENOTDIR) := by
            rw [openatDir, h]
            simp [Except.bind, requireDir, hdir]
          rw [resolves_notDir hrest hdir]
          simp [hnot]

/-- Resolving past a name that fits no call fails wherever the chunks before it lead. -/
theorem resolves_long {p : Path} {chunks : List Path}
    (hchunks : ∀ chunk ∈ chunks, IsChunk p chunk) {c : Path} (cs : List Path)
    (hlong : LONGPATH_MAXLEN < c.length) (d : ν) (follow : Bool) :
    (∀ n, ¬ Resolves T.toDirTree d (chunks.flatMap components ++ c :: cs) follow (.ok n)) ∧
      ((∃ e, Resolves T.toDirTree d (chunks.flatMap components ++ c :: cs) follow (.error e)) ↔
        (openChunks T.openatDir false d chunks).2.isSome) := by
  have hresolves := openChunks_resolves (T := T) hchunks (List.cons_ne_nil c cs) d follow
  constructor
  · intro n hn
    rcases (hresolves _).mpr hn with ⟨m, -, hm⟩ | ⟨e, -, he⟩
    · obtain ⟨e, he⟩ := T.exists_lookup_error hlong m
      cases (resolves_cons_of_error he).mp hm
    · cases he
  · constructor
    · rintro ⟨e, he⟩
      rcases (hresolves _).mpr he with ⟨m, hm, -⟩ | ⟨e, he, -⟩
      · simp [hm]
      · simp [he]
    · intro hsome
      obtain ⟨r, hr⟩ := Option.isSome_iff_exists.mp hsome
      cases r with
      | error e => exact ⟨e, (hresolves _).mp (Or.inr ⟨e, hr, rfl⟩)⟩
      | ok m =>
        obtain ⟨e, he⟩ := T.exists_lookup_error hlong m
        exact ⟨e, (hresolves _).mp (Or.inl ⟨m, hr, .missing he⟩)⟩

end FileTree

structure AbsolutePath where
  bytes : Path
  absolute : bytes.head? = some slash
  untrailed : bytes.getLast? ≠ some slash

namespace AbsolutePath

theorem strrchr_spec (path : AbsolutePath) : ∃ i, strrchr path.bytes slash = some i ∧
    path.bytes = path.bytes.take i ++ slash :: path.bytes.drop (i + 1) ∧
    path.bytes.drop (i + 1) ≠ [] ∧ slash ∉ path.bytes.drop (i + 1) := by
  cases h : strrchr path.bytes slash with
  | none =>
    have hpos : 0 < path.bytes.length := by
      rw [List.length_pos_iff]
      intro hnil
      have := path.absolute
      simp [hnil] at this
    exact absurd (List.head?_eq_getElem? ▸ path.absolute) (memrchr_eq_none h 0 hpos)
  | some i =>
    obtain ⟨hi, hslash, hlast⟩ := memrchr_eq_some h
    have hget := (List.getElem?_eq_some_iff.mp hslash).2
    have hsplit : path.bytes = path.bytes.take i ++ slash :: path.bytes.drop (i + 1) := by
      rw [← hget, ← List.drop_eq_getElem_cons hi, List.take_append_drop]
    refine ⟨i, rfl, hsplit, fun hnil => ?_, fun hmem => ?_⟩
    · refine path.untrailed ?_
      rw [hsplit, hnil]
      simp
    · obtain ⟨j, hj, hget⟩ := List.mem_iff_getElem.mp hmem
      rw [List.length_drop] at hj
      refine hlast (i + 1 + j) (by omega) (by omega) ?_
      rw [← List.getElem?_drop, List.getElem?_eq_getElem (by rwa [List.length_drop]), hget]

def parentPath (path : AbsolutePath) : Path :=
  path.bytes.take ((strrchr path.bytes slash).getD 0)

def baseName (path : AbsolutePath) : Path :=
  path.bytes.drop ((strrchr path.bytes slash).getD 0 + 1)

theorem bytes_eq (path : AbsolutePath) :
    path.bytes = path.parentPath ++ slash :: path.baseName := by
  obtain ⟨i, hi, hsplit, -, -⟩ := path.strrchr_spec
  rw [parentPath, baseName, hi]
  exact hsplit

theorem baseName_ne_nil (path : AbsolutePath) : path.baseName ≠ [] := by
  obtain ⟨i, hi, -, hne, -⟩ := path.strrchr_spec
  rw [baseName, hi]
  exact hne

theorem slash_notMem_baseName (path : AbsolutePath) : slash ∉ path.baseName := by
  obtain ⟨i, hi, -, -, hnot⟩ := path.strrchr_spec
  rw [baseName, hi]
  exact hnot

theorem components_bytes (path : AbsolutePath) :
    components path.bytes = components path.parentPath ++ [path.baseName] := by
  have hbase := components_of_notMem path.slash_notMem_baseName path.baseName_ne_nil
  rw [← hbase, ← components_append_slash, ← path.bytes_eq]

theorem openParentDir_eq {ν : Type*} (openat : ν → Path → Option (Except Errno ν)) (root : ν)
    (path : AbsolutePath) : openParentDir openat root path.bytes =
      some ⟨(openAncestor openat root path.parentPath).1,
        (openAncestor openat root path.parentPath).2, path.baseName⟩ := by
  obtain ⟨i, hi, -, hne, -⟩ := path.strrchr_spec
  rw [openParentDir, parentPath, baseName, hi]
  simp only [Option.getD_some]
  rw [if_neg hne]

def tooLong (path : AbsolutePath) : Bool := (splitPath path.parentPath).2

theorem exists_long_of_tooLong {path : AbsolutePath} (h : path.tooLong = true) :
    ∃ c ∈ components path.bytes, LONGPATH_MAXLEN < c.length := by
  obtain ⟨rest, hrest, -, hlong⟩ := splitPath_components path.parentPath
  obtain ⟨c, cs, rfl, hc⟩ := hlong h
  exact ⟨c, by simp [path.components_bytes, hrest], hc⟩

variable {ν : Type*} {T : FileTree ν}

theorem find_baseName {follow : Bool} {d : ν} {r : Except Errno ν} {path : AbsolutePath}
    (hfits : path.baseName.length ≤ LONGPATH_MAXLEN) :
    T.find follow d path.baseName = some r ↔
      Resolves T.toDirTree d [path.baseName] follow r := by
  have hrel : path.baseName.head? ≠ some slash := by
    intro hhead
    exact path.slash_notMem_baseName (List.mem_of_head? hhead)
  rw [FileTree.find_eq_some_iff, FileTree.Finds, if_neg path.baseName_ne_nil,
    if_neg (Nat.not_lt.mpr hfits), DirTree.origin, if_neg hrel,
    components_of_notMem path.slash_notMem_baseName path.baseName_ne_nil]

theorem find_baseName_of_long {follow : Bool} {d : ν} {path : AbsolutePath}
    (hlong : LONGPATH_MAXLEN < path.baseName.length) :
    T.find follow d path.baseName = some (.error .ENAMETOOLONG) := by
  rw [FileTree.find_eq_some_iff, FileTree.Finds, if_neg path.baseName_ne_nil, if_pos hlong]

theorem openatLeaf_eq_some_iff {follow : Bool} {path : AbsolutePath} {r : Except Errno ν} :
    openatLeaf T.openatDir (T.find follow) T.root path.bytes = some r ↔
      (∃ m, (openChunks T.openatDir path.tooLong T.root (splitPath path.parentPath).1).2 =
          some (.ok m) ∧ T.find follow m path.baseName = some r) ∨
        ∃ e, (openChunks T.openatDir path.tooLong T.root (splitPath path.parentPath).1).2 =
          some (.error e) ∧ r = .error e := by
  rw [openatLeaf, path.openParentDir_eq, openAncestor_eq, ← tooLong]
  generalize (openChunks T.openatDir path.tooLong T.root (splitPath path.parentPath).1).2 = dfd
  cases dfd with
  | none => simp
  | some dfd => cases dfd <;> simp [eq_comm]

/-- Without a component that fits no call, the pieces lead exactly where the whole path does. -/
theorem openatLeaf_resolves {path : AbsolutePath} (follow : Bool)
    (hshort : ∀ c ∈ components path.bytes, c.length ≤ LONGPATH_MAXLEN) (r : Except Errno ν) :
    openatLeaf T.openatDir (T.find follow) T.root path.bytes = some r ↔
      Resolves T.toDirTree T.root (components path.bytes) follow r := by
  have hfalse : path.tooLong = false := by
    by_contra htrue
    obtain ⟨c, hc, hlong⟩ := exists_long_of_tooLong (Bool.eq_true_of_not_eq_false htrue)
    exact absurd hlong (Nat.not_lt.mpr (hshort c hc))
  have hbase : path.baseName.length ≤ LONGPATH_MAXLEN :=
    hshort _ (by simp [path.components_bytes])
  obtain ⟨rest, hrest, hnil, -⟩ := splitPath_components path.parentPath
  rw [hnil hfalse, List.append_nil] at hrest
  rw [openatLeaf_eq_some_iff, hfalse, path.components_bytes, hrest,
    ← FileTree.openChunks_resolves (fun _ => isChunk_of_mem_splitPath) (List.cons_ne_nil _ _)]
  simp only [find_baseName hbase]

/-- With one, the pieces fail as soon as every chunk before it has answered. -/
theorem openatLeaf_long {path : AbsolutePath} (follow : Bool)
    (hlong : path.tooLong = true ∨ LONGPATH_MAXLEN < path.baseName.length) :
    (∀ n, openatLeaf T.openatDir (T.find follow) T.root path.bytes ≠ some (.ok n)) ∧
      ((∃ e, openatLeaf T.openatDir (T.find follow) T.root path.bytes = some (.error e)) ↔
        (openChunks T.openatDir false T.root (splitPath path.parentPath).1).2.isSome) := by
  simp only [ne_eq, openatLeaf_eq_some_iff]
  generalize (splitPath path.parentPath).1 = chunks
  cases htoo : path.tooLong with
  | true =>
    rw [openChunks_true]
    cases (openChunks T.openatDir false T.root chunks).2 with
    | none => simp
    | some r => cases r <;> simp [Except.bind]
  | false =>
    have hbase := hlong.resolve_left (by simp [htoo])
    simp only [find_baseName_of_long hbase]
    cases (openChunks T.openatDir false T.root chunks).2 with
    | none => simp
    | some r => cases r <;> simp

/-- The components of a path with one that fits no call: chunks, that one, and the rest. -/
theorem exists_long_split {path : AbsolutePath} {c : Path} (hc : c ∈ components path.bytes)
    (hlong : LONGPATH_MAXLEN < c.length) :
    (path.tooLong = true ∨ LONGPATH_MAXLEN < path.baseName.length) ∧
      ∃ c cs, components path.bytes =
        (splitPath path.parentPath).1.flatMap components ++ c :: cs ∧
        LONGPATH_MAXLEN < c.length := by
  obtain ⟨rest, hrest, hnil, hrestlong⟩ := splitPath_components path.parentPath
  rw [path.components_bytes, hrest] at hc ⊢
  cases htoo : (splitPath path.parentPath).2 with
  | true =>
    obtain ⟨c', cs, rfl, hc'⟩ := hrestlong htoo
    exact ⟨Or.inl htoo, c', cs ++ [path.baseName], by simp, hc'⟩
  | false =>
    obtain rfl := hnil htoo
    rw [List.append_nil] at hc ⊢
    rcases List.mem_append.mp hc with hc | hc
    · obtain ⟨chunk, hchunk, hc⟩ := List.mem_flatMap.mp hc
      have := (isChunk_of_mem_splitPath hchunk).fits
      have := length_le_of_mem_components hc
      omega
    · obtain rfl := List.mem_singleton.mp hc
      exact ⟨Or.inr hlong, path.baseName, [], rfl, hlong⟩

/-- With a component that fits no call, both fail, unless a link before it never ends. -/
theorem openatLeaf_error_iff {path : AbsolutePath} (follow : Bool) {c : Path}
    (hc : c ∈ components path.bytes) (hlong : LONGPATH_MAXLEN < c.length) :
    (∀ n, openatLeaf T.openatDir (T.find follow) T.root path.bytes ≠ some (.ok n)) ∧
      (∀ n, ¬ Resolves T.toDirTree T.root (components path.bytes) follow (.ok n)) ∧
      ((∃ e, openatLeaf T.openatDir (T.find follow) T.root path.bytes = some (.error e)) ↔
        ∃ e, Resolves T.toDirTree T.root (components path.bytes) follow (.error e)) := by
  obtain ⟨hwhere, c, cs, hsplit, hlong⟩ := exists_long_split hc hlong
  obtain ⟨hnever, herror⟩ := openatLeaf_long (T := T) follow hwhere
  rw [hsplit]
  obtain ⟨hnone, hresolves⟩ := FileTree.resolves_long (T := T)
    (fun _ => isChunk_of_mem_splitPath) cs hlong T.root follow
  exact ⟨hnever, hnone, herror.trans hresolves.symm⟩

/-- The leaf looked up through its parent and the components followed one by one agree, on the
error too unless a component fits no call. -/
theorem openatLeaf_agrees (path : AbsolutePath) (T : FileTree ν) (follow : Bool) :
    (∀ n, openatLeaf T.openatDir (T.find follow) T.root path.bytes = some (.ok n) ↔
      Resolves T.toDirTree T.root (components path.bytes) follow (.ok n)) ∧
    ((∃ e, openatLeaf T.openatDir (T.find follow) T.root path.bytes = some (.error e)) ↔
      ∃ e, Resolves T.toDirTree T.root (components path.bytes) follow (.error e)) ∧
    ((∀ c ∈ components path.bytes, c.length ≤ LONGPATH_MAXLEN) → ∀ e,
      openatLeaf T.openatDir (T.find follow) T.root path.bytes = some (.error e) ↔
        Resolves T.toDirTree T.root (components path.bytes) follow (.error e)) := by
  by_cases hshort : ∀ c ∈ components path.bytes, c.length ≤ LONGPATH_MAXLEN
  · have h := openatLeaf_resolves (T := T) follow hshort
    exact ⟨fun n => h (.ok n), exists_congr fun e => h (.error e), fun _ e => h (.error e)⟩
  · push Not at hshort
    obtain ⟨c, hc, hlong⟩ := hshort
    obtain ⟨hcode, hwhole, herror⟩ := openatLeaf_error_iff (T := T) follow hc hlong
    exact ⟨fun n => iff_of_false (hcode n) (hwhole n), herror,
      fun hall => absurd hlong (Nat.not_lt.mpr (hall c hc))⟩

/-- A path of any length leads to the object its components lead to. -/
theorem longpathAt_resolves (path : AbsolutePath) (T : FileTree ν) (follow : Bool) (n : ν) :
    longpathAt T.openatDir (T.find follow) T.root path.bytes = some (.ok n) ↔
      Resolves T.toDirTree T.root (components path.bytes) follow (.ok n) := by
  unfold longpathAt
  split
  · next hfits =>
    have hlen : path.bytes.length ≤ LONGPATH_MAXLEN := by
      rw [fitsOneSyscall, path.absolute, bne_self_eq_false, Bool.or_false,
        decide_eq_true_eq] at hfits
      simp only [PATH_MAX, LONGPATH_MAXLEN] at hfits ⊢
      omega
    have hne : path.bytes ≠ [] := by
      rw [path.bytes_eq]
      simp
    rw [FileTree.find_eq_some_iff, FileTree.Finds, if_neg hne, if_neg (Nat.not_lt.mpr hlen),
      DirTree.origin, if_pos path.absolute]
  · exact (openatLeaf_agrees path T follow).1 n

/-- Opening a path in pieces is resolving it at once. Every chunk passed on is whole components of
the parent path and fits one call, and together they are its components; the loop ends as soon as
its calls do; it reports a name too long by itself only for one that is; and what the leaf lookup
gives is what following the components gives. -/
theorem open_in_pieces (path : AbsolutePath) :
    (∀ (ν : Type) (openat : ν → Path → Option (Except Errno ν)) (root : ν),
      ∃ parent, openParentDir openat root path.bytes = some parent ∧
        parent.baseOut = path.baseName ∧
        (∀ chunk ∈ parent.passed, IsChunk path.parentPath chunk) ∧
        parent.passed.flatMap components <+: components path.parentPath ∧
        (∀ dfd, parent.dfd = some (.ok dfd) →
          parent.passed.flatMap components = components path.parentPath) ∧
        ((∀ d chunk, (openat d chunk).isSome) → parent.dfd.isSome) ∧
        ((∀ d chunk, openat d chunk ≠ some (.error .ENAMETOOLONG)) →
          parent.dfd = some (.error .ENAMETOOLONG) →
          ∃ c ∈ components path.bytes, LONGPATH_MAXLEN < c.length)) ∧
    ∀ (ν : Type) (T : FileTree ν) (follow : Bool),
      (∀ n, openatLeaf T.openatDir (T.find follow) T.root path.bytes = some (.ok n) ↔
        Resolves T.toDirTree T.root (components path.bytes) follow (.ok n)) ∧
      ((∃ e, openatLeaf T.openatDir (T.find follow) T.root path.bytes = some (.error e)) ↔
        ∃ e, Resolves T.toDirTree T.root (components path.bytes) follow (.error e)) ∧
      ((∀ c ∈ components path.bytes, c.length ≤ LONGPATH_MAXLEN) → ∀ e,
        openatLeaf T.openatDir (T.find follow) T.root path.bytes = some (.error e) ↔
          Resolves T.toDirTree T.root (components path.bytes) follow (.error e)) := by
  refine ⟨fun ν openat root => ?_, fun ν T follow => openatLeaf_agrees path T follow⟩
  obtain ⟨rest, hrest, hnil, -⟩ := splitPath_components path.parentPath
  refine ⟨_, path.openParentDir_eq openat root, rfl, ?_⟩
  simp only [openAncestor_eq]
  refine ⟨fun chunk hchunk => ?_, ?_, fun dfd hok => ?_, fun hanswers => ?_,
    fun hshort herror => ?_⟩
  · exact isChunk_of_mem_splitPath ((openChunks_initial openat _ root _).subset hchunk)
  · obtain ⟨skipped, hskipped⟩ := openChunks_initial openat (splitPath path.parentPath).2 root
      (splitPath path.parentPath).1
    refine ⟨skipped.flatMap components ++ rest, ?_⟩
    rw [hrest, ← List.append_assoc, ← List.flatMap_append, hskipped]
  · obtain ⟨hpassed, hshort⟩ := openChunks_of_ok openat hok
    rw [hpassed, hrest, hnil hshort, List.append_nil]
  · exact openChunks_isSome openat hanswers _ root _
  · exact exists_long_of_tooLong (openChunks_tooLong openat hshort herror)

/-- Sixteen directories with names of 254 bytes, and 14 bytes of one more. -/
def deepHead : Path :=
  (List.replicate 16 (List.replicate 254 97 ++ [slash])).flatten ++ List.replicate 14 97

theorem deepHead_length : deepHead.length = 4094 := by
  simp only [deepHead, List.length_append, List.length_flatten, List.map_replicate,
    List.length_replicate, List.sum_replicate, List.length_singleton, smul_eq_mul]

theorem deepHead_eq : deepHead = 97 :: deepHead.tail := rfl

/-- A path over `PATH_MAX`, whose first chunk ends inside of a run of slashes. -/
def deepPath : AbsolutePath where
  bytes := slash :: (deepHead ++ [slash, slash, slash, 98, slash, 99])
  absolute := rfl
  untrailed := by
    rw [List.getLast?_cons, List.getLast?_append]
    decide

theorem deepPath_strrchr : strrchr deepPath.bytes slash = some 4099 := by
  have hlen : deepPath.bytes.length = 4099 + 1 + 1 := by
    simp [deepPath, deepHead_length]
  have hlast : deepPath.bytes[4100]? ≠ some slash := by
    simp [deepPath, deepHead_length, slash]
  have hslash : deepPath.bytes[4099]? = some slash := by
    simp [deepPath, deepHead_length]
  rw [strrchr, hlen, memrchr, if_neg hlast, memrchr, if_pos hslash]

theorem deepPath_parentPath :
    deepPath.parentPath = slash :: (deepHead ++ [slash, slash, slash, 98]) := by
  rw [parentPath, deepPath_strrchr]
  simp [deepPath, List.take_append, deepHead_length]

/-- The second slash of the run goes with the first chunk, the third is skipped. -/
theorem deepPath_splitPath :
    splitPath deepPath.parentPath = ([deepHead ++ [slash], [98]], false) := by
  have hskip : skipSlashes deepPath.parentPath =
      97 :: (deepHead.tail ++ [slash, slash, slash, 98]) := by
    rw [deepPath_parentPath, deepHead_eq]
    rfl
  have hfit : chunkEnd (97 :: (deepHead.tail ++ [slash, slash, slash, 98])) = some 4095 := by
    rw [← List.cons_append, ← deepHead_eq, chunkEnd, if_neg (by simp [deepHead_length,
      LONGPATH_MAXLEN, PATH_MAX]), show LONGPATH_MAXLEN + 1 = 4095 + 1 from rfl, memrchr,
      if_pos (by simp [deepHead_length])]
  rw [splitPath_chunk hskip hfit, ← List.cons_append, ← deepHead_eq, List.take_append,
    List.drop_append, deepHead_length, List.take_of_length_le (by simp [deepHead_length]),
    List.drop_eq_nil_of_le (by simp [deepHead_length]),
    @splitPath_chunk _ [] 98 1 (by decide) (by decide),
    splitPath_end (by decide)]
  rfl

/-- Both chunks are passed on and the name is left, where every call succeeds. -/
theorem open_in_pieces_deepPath : 4096 < deepPath.bytes.length ∧
    ∃ parent, openParentDir (fun _ _ => some (.ok ())) () deepPath.bytes = some parent ∧
      parent.passed = [deepHead ++ [slash], [98]] ∧ parent.dfd = some (.ok ()) ∧
      (∀ chunk ∈ parent.passed, IsChunk deepPath.parentPath chunk) ∧
      parent.passed.flatMap components = components deepPath.parentPath := by
  obtain ⟨parent, hparent, -, hchunks, -, hall, hends, -⟩ :=
    (open_in_pieces deepPath).1 Unit (fun _ _ => some (.ok ())) ()
  have hrun := hparent
  rw [openParentDir_eq, openAncestor_eq, deepPath_splitPath] at hrun
  obtain rfl := Option.some.inj hrun
  refine ⟨by simp [deepPath, deepHead_length], _, hparent, rfl, rfl, hchunks, hall () rfl⟩

end AbsolutePath

end Oans
