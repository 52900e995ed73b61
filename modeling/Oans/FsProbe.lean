import Oans.DedupeRounds

/-!
# Whether the filesystem dedupes

On a filesystem that is not known by name the consumer of the walk asks the files it is handed, each
with one dedupe request within the file, until one of them says yes. A no, or too many files that do
not tell, ends the run before that file is hashed.
-/

namespace Oans

def DEDUPE_PROBE_LEN_MAX : ℕ := 64 * 1024

def FS_PROBE_MAX_TRIES : ℕ := 16

def FS_PROBE_MAX_UNASKED : ℕ := 1024

def ENOTTY : ℕ := 25

def EROFS : ℕ := 30

def EOPNOTSUPP : ℕ := 95

inductive DedupeSupport
  | no
  | yes
  | unknown
  deriving DecidableEq, Repr

structure ProbeRequest where
  srcOffset : ℕ
  srcLength : ℕ
  destOffset : ℕ

/-- The return value, `errno`, and the status of the destination. -/
structure ProbeAnswer where
  rc : ℤ
  err : ℕ
  status : ℤ

def dedupeClassifyProbe (a : ProbeAnswer) : DedupeSupport :=
  if a.rc = 0 then
    if 0 ≤ a.status then .yes
    else if a.status = -EOPNOTSUPP ∨ a.status = -ENOTTY then .no
    else .unknown
  else if a.err = EOPNOTSUPP ∨ a.err = ENOTTY then .no
  else .unknown

def dedupeProbeLen (blocksize size : ℕ) : ℕ :=
  let cap := max blocksize DEDUPE_PROBE_LEN_MAX
  let len := dedupeShareableLen blocksize (min (size / 2) cap)
  if len < blocksize then 0 else len

/-- Two ranges of whole blocks fit into the file, one behind the other. -/
theorem dedupeProbeLen_spec {blocksize k : ℕ} (hblock : blocksize = 2 ^ k) (size : ℕ) :
    (dedupeProbeLen blocksize size = 0 ↔ size < 2 * blocksize) ∧
      blocksize ∣ dedupeProbeLen blocksize size ∧ 2 * dedupeProbeLen blocksize size ≤ size ∧
      dedupeProbeLen blocksize size ≤ max blocksize DEDUPE_PROBE_LEN_MAX := by
  have hpos : 0 < blocksize := hblock ▸ Nat.two_pow_pos k
  have hmask (len : ℕ) : len &&& (blocksize - 1) = len % blocksize := by
    rw [hblock, Nat.and_two_pow_sub_one_eq_mod]
  unfold dedupeProbeLen dedupeShareableLen
  dsimp only
  generalize hcap : max blocksize DEDUPE_PROBE_LEN_MAX = cap
  have hblockCap : blocksize ≤ cap := hcap ▸ le_max_left ..
  generalize hlen : min (size / 2) cap = len
  have hhalf : len ≤ size / 2 := hlen ▸ min_le_left ..
  have hlenCap : len ≤ cap := hlen ▸ min_le_right ..
  by_cases hsmall : len < blocksize
  · have hsize : size / 2 < blocksize := by omega
    simp only [if_pos hsmall]
    exact ⟨iff_of_true trivial (by omega), dvd_zero _, by omega, by omega⟩
  · have hdiv := Nat.div_add_mod len blocksize
    have hmod := Nat.mod_lt len hpos
    have hle := Nat.mod_le len blocksize
    have hone : blocksize ≤ blocksize * (len / blocksize) :=
      Nat.le_mul_of_pos_right _ (Nat.div_pos (not_lt.mp hsmall) hpos)
    have hwhole : len - len % blocksize = blocksize * (len / blocksize) := by omega
    simp only [if_neg hsmall, hmask, hwhole, if_neg (not_lt.mpr hone)]
    exact ⟨iff_of_false (by omega) (by omega), dvd_mul_right .., by omega, by omega⟩

inductive OpenListed
  | opened
  | notRegular
  | failed (errno : ℕ)
  deriving DecidableEq

/-- A file the walk hands over: how it opens for writing and for reading, whether it is the user's
own, what it answers, and what becomes of hashing it. -/
structure WalkedFile where
  rdwr : OpenListed
  rdonly : OpenListed
  owned : Bool
  size : ℕ
  blocksize : ℕ
  ioctl : Bool → ProbeRequest → ProbeAnswer
  /-- the run is interrupted by then, or its batch lost -/
  stopped : Bool
  scanFile : ℤ

inductive FileVerdict
  | notRegular
  | notAsked
  | answered (support : DedupeSupport)
  deriving DecidableEq, Repr

namespace WalkedFile

def dedupeProbeFd (f : WalkedFile) (rdonly : Bool) : DedupeSupport :=
  let len := dedupeProbeLen f.blocksize f.size
  if len = 0 then .unknown else dedupeClassifyProbe (f.ioctl rdonly ⟨0, len, len⟩)

def ownedFallback (f : WalkedFile) : Bool :=
  match f.rdwr with
  | .failed errno => decide (errno ≠ EROFS) && f.owned
  | _ => false

/-- `fs_dedupe_probe_settled()` up to its `switch`. -/
def verdict (f : WalkedFile) : FileVerdict :=
  match if f.ownedFallback then f.rdonly else f.rdwr with
  | .notRegular => .notRegular
  | .failed errno =>
    if errno ≠ EROFS then .notAsked
    else if f.ownedFallback then .notAsked
    else .answered .unknown
  | .opened =>
    if dedupeProbeLen f.blocksize f.size = 0 then .notAsked
    else if f.ownedFallback ∧ f.dedupeProbeFd true = .unknown then .notAsked
    else .answered (f.dedupeProbeFd f.ownedFallback)

end WalkedFile

inductive FsUnusable
  | unsupported
  | gaveUp (files : ℕ)
  | noneAnswered (files : ℕ)
  | noneAsked (files : ℕ)
  | noFile
  deriving DecidableEq, Repr

/-- The part of `locked_fs` that is about the question, with what was said in the end. -/
structure FsQuestion where
  dedupe : DedupeSupport
  dedupeProbeTries : ℕ
  dedupeProbeUnasked : ℕ
  walkAbort : Bool
  report : Option FsUnusable
  deriving DecidableEq

namespace FsQuestion

def init : FsQuestion := ⟨.unknown, 0, 0, false, none⟩

def reportFsUnusable (q : FsQuestion) : FsUnusable :=
  if q.dedupe = .no then .unsupported
  else if FS_PROBE_MAX_UNASKED ≤ q.dedupeProbeUnasked then .gaveUp q.dedupeProbeUnasked
  else if q.dedupeProbeTries ≠ 0 then .noneAnswered q.dedupeProbeTries
  else if q.dedupeProbeUnasked ≠ 0 then .noneAsked q.dedupeProbeUnasked
  else .noFile

def refuse (q : FsQuestion) : Bool × FsQuestion :=
  (false, { q with walkAbort := true, report := some q.reportFsUnusable })

def notAsked (q : FsQuestion) : Bool × FsQuestion :=
  let q := { q with dedupeProbeUnasked := q.dedupeProbeUnasked + 1 }
  if q.dedupeProbeUnasked < FS_PROBE_MAX_UNASKED then (true, q) else q.refuse

def settled (q : FsQuestion) (f : WalkedFile) : Bool × FsQuestion :=
  match f.verdict with
  | .notRegular => (true, q)
  | .notAsked => q.notAsked
  | .answered .yes => (true, { q with dedupe := .yes })
  | .answered .unknown =>
    let q := { q with dedupeProbeTries := q.dedupeProbeTries + 1 }
    if q.dedupeProbeTries < FS_PROBE_MAX_TRIES then (true, q) else q.refuse
  | .answered .no => { q with dedupe := .no }.refuse

/-- `filescan_report_fs_unusable()`. -/
def filescanReport (q : FsQuestion) (interrupted : Bool) : Option FsUnusable :=
  if interrupted ∨ q.dedupe ≠ .unknown then none else some q.reportFsUnusable

end FsQuestion

structure WalkConsumer where
  question : FsQuestion
  ret : ℤ
  looked : List WalkedFile
  scanned : List WalkedFile

namespace WalkConsumer

def init : WalkConsumer := ⟨.init, 0, [], []⟩

def scan (s : WalkConsumer) (f : WalkedFile) (q : FsQuestion) : WalkConsumer :=
  ⟨q, f.scanFile, s.looked ++ [f], s.scanned ++ [f]⟩

/-- One turn of the loop of `filescan_walk_run()`. -/
def consume (s : WalkConsumer) (f : WalkedFile) : WalkConsumer :=
  if s.ret = 0 ∧ f.stopped = false then
    if s.question.dedupe ≠ .yes then
      match s.question.settled f with
      | (true, q) => s.scan f q
      | (false, q) => ⟨q, 1, s.looked ++ [f], s.scanned⟩
    else s.scan f s.question
  else s

def scanFiles (s : WalkConsumer) (interrupted : Bool) : ℤ :=
  if s.ret = 0 ∧ (s.question.filescanReport interrupted).isSome then 1 else s.ret

def verdicts (s : WalkConsumer) : List FileVerdict := s.looked.map WalkedFile.verdict

end WalkConsumer

def beforeYes (vs : List FileVerdict) : List FileVerdict :=
  vs.takeWhile fun v => decide (v ≠ .answered .yes)

def Unusable (vs : List FileVerdict) : Prop :=
  .answered .no ∈ beforeYes vs ∨
    FS_PROBE_MAX_TRIES ≤ (beforeYes vs).count (.answered .unknown) ∨
    FS_PROBE_MAX_UNASKED ≤ (beforeYes vs).count .notAsked

theorem beforeYes_of_mem {vs : List FileVerdict} (h : .answered .yes ∈ vs) (v : FileVerdict) :
    beforeYes (vs ++ [v]) = beforeYes vs := by
  unfold beforeYes
  induction vs with
  | nil => cases h
  | cons u us ih =>
    by_cases hu : u = .answered .yes
    · simp [hu]
    · have hmem := (List.mem_cons.mp h).resolve_left fun heq => hu heq.symm
      simp only [List.cons_append, List.takeWhile_cons, ih hmem]

theorem beforeYes_of_notMem {vs : List FileVerdict} (h : .answered .yes ∉ vs) :
    beforeYes vs = vs := by
  unfold beforeYes
  induction vs with
  | nil => rfl
  | cons u us ih =>
    have hu : u ≠ .answered .yes := fun heq => h (heq ▸ List.mem_cons_self)
    have hus : .answered .yes ∉ us := fun hmem => h (List.mem_cons_of_mem u hmem)
    rw [List.takeWhile_cons, if_pos (decide_eq_true hu), ih hus]

theorem beforeYes_yes {vs : List FileVerdict} (h : .answered .yes ∉ vs) :
    beforeYes (vs ++ [.answered .yes]) = vs := by
  unfold beforeYes
  rw [List.takeWhile_append_of_pos]
  · simp
  · intro v hv
    apply decide_eq_true
    rintro rfl
    exact h hv

namespace FsQuestion

/-- What has come of the question once files with these verdicts were looked at. -/
structure Holds (q : FsQuestion) (vs : List FileVerdict) : Prop where
  tries : q.dedupeProbeTries = (beforeYes vs).count (.answered .unknown)
  unasked : q.dedupeProbeUnasked = (beforeYes vs).count .notAsked
  yes : q.dedupe = .yes ↔ .answered .yes ∈ vs
  no : q.dedupe = .no ↔ .answered .no ∈ beforeYes vs
  refused : q.walkAbort = true ↔ Unusable vs
  report : q.report.isSome = q.walkAbort

variable {q : FsQuestion} {vs : List FileVerdict}

theorem Holds.init : init.Holds [] where
  tries := rfl
  unasked := rfl
  yes := by simp [FsQuestion.init]
  no := by simp [FsQuestion.init, beforeYes]
  refused := by
    simp [FsQuestion.init, Unusable, beforeYes, FS_PROBE_MAX_TRIES, FS_PROBE_MAX_UNASKED]
  report := rfl

theorem Holds.of_yes (h : q.Holds vs) (hyes : q.dedupe = .yes) (v : FileVerdict) :
    q.Holds (vs ++ [v]) := by
  have hmem := h.yes.mp hyes
  have hsame := beforeYes_of_mem hmem v
  constructor
  · rw [hsame]
    exact h.tries
  · rw [hsame]
    exact h.unasked
  · exact iff_of_true hyes (List.mem_append_left [v] hmem)
  · rw [hsame]
    exact h.no
  · rw [Unusable, hsame]
    exact h.refused
  · exact h.report

/-- The limits are not reached as long as the question is open. -/
theorem Holds.limits (h : q.Holds vs) (hopen : q.walkAbort = false) (hyes : q.dedupe ≠ .yes) :
    .answered .yes ∉ vs ∧ .answered .no ∉ vs ∧ q.dedupe = .unknown ∧
      q.dedupeProbeTries = vs.count (.answered .unknown) ∧
      q.dedupeProbeTries < FS_PROBE_MAX_TRIES ∧
      q.dedupeProbeUnasked = vs.count .notAsked ∧
      q.dedupeProbeUnasked < FS_PROBE_MAX_UNASKED := by
  have hnotyes : .answered .yes ∉ vs := mt h.yes.mpr hyes
  have hall := beforeYes_of_notMem hnotyes
  have husable : ¬ Unusable vs := by
    rw [← h.refused, hopen]
    exact Bool.false_ne_true
  obtain ⟨htries, hunasked, -, hno, -, -⟩ := h
  simp only [Unusable, hall, not_or, not_le] at husable htries hunasked hno
  obtain ⟨hnotno, hfewTries, hfewUnasked⟩ := husable
  have hunknown : q.dedupe = .unknown := by
    cases hq : q.dedupe with
    | no => exact absurd (hno.mp hq) hnotno
    | yes => exact absurd hq hyes
    | unknown => rfl
  exact ⟨hnotyes, hnotno, hunknown, htries, htries ▸ hfewTries, hunasked, hunasked ▸ hfewUnasked⟩

structure Counts (q : FsQuestion) (vs : List FileVerdict) (v : FileVerdict) : Prop where
  noYes : .answered .yes ∉ vs ++ [v]
  dedupe : q.dedupe ≠ .yes
  no : q.dedupe = .no ↔ .answered .no ∈ vs ++ [v]
  tries : q.dedupeProbeTries = (vs ++ [v]).count (.answered .unknown)
  unasked : q.dedupeProbeUnasked = (vs ++ [v]).count .notAsked

theorem Counts.holds {v : FileVerdict} (h : q.Counts vs v)
    (hrefused : q.walkAbort = true ↔ q.dedupe = .no ∨
      FS_PROBE_MAX_TRIES ≤ q.dedupeProbeTries ∨ FS_PROBE_MAX_UNASKED ≤ q.dedupeProbeUnasked)
    (hreport : q.report.isSome = q.walkAbort) : q.Holds (vs ++ [v]) := by
  have hall := beforeYes_of_notMem h.noYes
  constructor
  · rw [hall]
    exact h.tries
  · rw [hall]
    exact h.unasked
  · exact iff_of_false h.dedupe h.noYes
  · rw [hall]
    exact h.no
  · rw [hrefused, Unusable, hall, h.no, h.tries, h.unasked]
  · exact hreport

theorem Counts.goOn {v : FileVerdict} (h : q.Counts vs v) (hdedupe : q.dedupe ≠ .no)
    (hfewTries : q.dedupeProbeTries < FS_PROBE_MAX_TRIES)
    (hfewUnasked : q.dedupeProbeUnasked < FS_PROBE_MAX_UNASKED)
    (hopen : q.walkAbort = false) (hreport : q.report.isSome = q.walkAbort) :
    q.Holds (vs ++ [v]) := by
  apply h.holds
  · apply iff_of_false
    · rw [hopen]
      exact Bool.false_ne_true
    · rintro (hno | htries | hunasked)
      · exact hdedupe hno
      · omega
      · omega
  · exact hreport

theorem Counts.refuse {v : FileVerdict} (h : q.Counts vs v)
    (hlimit : q.dedupe = .no ∨ FS_PROBE_MAX_TRIES ≤ q.dedupeProbeTries ∨
      FS_PROBE_MAX_UNASKED ≤ q.dedupeProbeUnasked) : q.refuse.2.Holds (vs ++ [v]) := by
  have hcounts : q.refuse.2.Counts vs v := ⟨h.noYes, h.dedupe, h.no, h.tries, h.unasked⟩
  apply hcounts.holds
  · exact iff_of_true rfl hlimit
  · rfl

theorem Holds.settled (h : q.Holds vs) (hopen : q.walkAbort = false) (hyes : q.dedupe ≠ .yes)
    (f : WalkedFile) : (q.settled f).2.Holds (vs ++ [f.verdict]) ∧
      (q.settled f).1 = !(q.settled f).2.walkAbort := by
  obtain ⟨hnotyes, hnotno, hunknown, htries, hfewTries, hunasked, hfewUnasked⟩ :=
    h.limits hopen hyes
  have hnot : q.dedupe ≠ .no := by simp [hunknown]
  have hgoes : true = !q.walkAbort := by simp [hopen]
  unfold FsQuestion.settled
  cases f.verdict with
  | notRegular =>
    have hcounts : q.Counts vs .notRegular := by
      constructor <;> simp [hnotyes, hnotno, hunknown, htries, hunasked]
    exact ⟨hcounts.goOn hnot hfewTries hfewUnasked hopen h.report, hgoes⟩
  | notAsked =>
    have hcounts : Counts { q with dedupeProbeUnasked := q.dedupeProbeUnasked + 1 } vs
        .notAsked := by
      constructor <;> simp [hnotyes, hnotno, hunknown, htries, hunasked]
    dsimp only [FsQuestion.notAsked]
    split_ifs with hfew
    · exact ⟨hcounts.goOn hnot hfewTries hfew hopen h.report, hgoes⟩
    · exact ⟨hcounts.refuse (Or.inr (Or.inr (not_lt.mp hfew))), rfl⟩
  | answered support =>
    cases support with
    | yes =>
      have hsame := beforeYes_yes hnotyes
      have hall := beforeYes_of_notMem hnotyes
      refine ⟨⟨?_, ?_, ?_, ?_, ?_, ?_⟩, hgoes⟩
      · rw [hsame]
        exact htries
      · rw [hsame]
        exact hunasked
      · simp
      · simp [hsame, hnotno]
      · rw [Unusable, hsame, ← hall]
        exact h.refused
      · exact h.report
    | unknown =>
      have hcounts : Counts { q with dedupeProbeTries := q.dedupeProbeTries + 1 } vs
          (.answered .unknown) := by
        constructor <;> simp [hnotyes, hnotno, hunknown, htries, hunasked]
      dsimp only
      split_ifs with hfew
      · exact ⟨hcounts.goOn hnot hfew hfewUnasked hopen h.report, hgoes⟩
      · exact ⟨hcounts.refuse (Or.inr (Or.inl (not_lt.mp hfew))), rfl⟩
    | no =>
      have hcounts : Counts { q with dedupe := .no } vs (.answered .no) := by
        constructor <;> simp [hnotyes, htries, hunasked]
      exact ⟨hcounts.refuse (Or.inl rfl), rfl⟩

end FsQuestion

namespace WalkConsumer

structure Inv (s : WalkConsumer) : Prop where
  question : s.question.Holds s.verdicts
  status : s.question.walkAbort = true → s.ret = 1
  scanned : s.scanned = if s.question.walkAbort then s.looked.dropLast else s.looked

variable {s : WalkConsumer} {f : WalkedFile}

theorem Inv.init : WalkConsumer.init.Inv where
  question := FsQuestion.Holds.init
  status h := absurd h Bool.false_ne_true
  scanned := rfl

theorem Inv.open_of_ret (h : s.Inv) (hret : s.ret = 0) : s.question.walkAbort = false := by
  apply Bool.eq_false_of_not_eq_true
  intro habort
  have hone := h.status habort
  omega

theorem Inv.scan (h : s.Inv) (hopen : s.question.walkAbort = false) {q : FsQuestion}
    (hq : q.Holds (s.verdicts ++ [f.verdict])) (hopen' : q.walkAbort = false) :
    (s.scan f q).Inv where
  question := by
    simpa [WalkConsumer.scan, verdicts] using hq
  status habort := absurd (hopen'.symm.trans habort) Bool.false_ne_true
  scanned := by
    have hscanned := h.scanned
    rw [hopen, if_neg Bool.false_ne_true] at hscanned
    simp [WalkConsumer.scan, hopen', hscanned]

theorem Inv.consume (h : s.Inv) (f : WalkedFile) : (s.consume f).Inv := by
  unfold WalkConsumer.consume
  split_ifs with htaken hyes
  · have hopen := h.open_of_ret htaken.1
    obtain ⟨hq, hreturned⟩ := h.question.settled hopen hyes f
    cases hsettled : s.question.settled f with
    | mk ok q =>
      rw [hsettled] at hq hreturned
      cases ok with
      | true => exact h.scan hopen hq (by simpa using hreturned.symm)
      | false =>
        have habort : q.walkAbort = true := by simpa using hreturned.symm
        have hscanned := h.scanned
        rw [hopen, if_neg Bool.false_ne_true] at hscanned
        constructor
        · simpa [verdicts] using hq
        · exact fun _ => rfl
        · simp [habort, hscanned]
  · have hopen := h.open_of_ret htaken.1
    exact h.scan hopen (h.question.of_yes (not_not.mp hyes) f.verdict) hopen
  · exact h

theorem Inv.run (h : s.Inv) (files : List WalkedFile) :
    (files.foldl WalkConsumer.consume s).Inv := by
  induction files generalizing s with
  | nil => exact h
  | cons f files ih => exact ih (h.consume f)

theorem looked_consume (hret : s.ret = 0) (hstopped : f.stopped = false) :
    (s.consume f).looked = s.looked ++ [f] := by
  unfold WalkConsumer.consume
  rw [if_pos ⟨hret, hstopped⟩]
  split_ifs
  · cases s.question.settled f with
    | mk ok q => cases ok <;> rfl
  · rfl

theorem run_of_ret (hret : s.ret ≠ 0) (files : List WalkedFile) : files.foldl consume s = s := by
  induction files with
  | nil => rfl
  | cons f files ih =>
    have hsame : s.consume f = s := if_neg fun h => hret h.1
    rw [List.foldl_cons, hsame, ih]

/-- The consumer looks at the files in turn, up to where it fails. -/
theorem looked_run (files : List WalkedFile) : ∃ taken rest,
    files.filter (fun f => !f.stopped) = taken ++ rest ∧
      (files.foldl consume s).looked = s.looked ++ taken ∧
      (rest ≠ [] → (files.foldl consume s).ret ≠ 0) := by
  induction files generalizing s with
  | nil => exact ⟨[], [], rfl, (List.append_nil _).symm, fun h => absurd rfl h⟩
  | cons f files ih =>
    by_cases hret : s.ret = 0
    · cases hstopped : f.stopped with
      | false =>
        obtain ⟨taken, rest, hsplit, hlooked, hrest⟩ := ih (s := s.consume f)
        refine ⟨f :: taken, rest, ?_, ?_, hrest⟩
        · simp [hstopped, hsplit]
        · rw [List.foldl_cons, hlooked, looked_consume hret hstopped, List.append_assoc,
            List.singleton_append]
      | true =>
        have hsame : s.consume f = s := by
          apply if_neg
          simp [hstopped]
        obtain ⟨taken, rest, hsplit, hlooked, hrest⟩ := ih (s := s)
        rw [List.foldl_cons, hsame]
        exact ⟨taken, rest, by simpa [hstopped] using hsplit, hlooked, hrest⟩
    · rw [run_of_ret hret]
      exact ⟨[], _, rfl, (List.append_nil _).symm, fun _ => hret⟩

theorem Inv.scanFiles_eq_zero_iff (h : s.Inv) :
    s.scanFiles false = 0 ↔ s.ret = 0 ∧ .answered .yes ∈ s.verdicts := by
  rw [← h.question.yes]
  by_cases hret : s.ret = 0
  · have hopen := h.open_of_ret hret
    by_cases hyes : s.question.dedupe = .yes
    · simp [scanFiles, FsQuestion.filescanReport, hret, hyes]
    · obtain ⟨-, -, hunknown, -⟩ := h.question.limits hopen hyes
      simp [scanFiles, FsQuestion.filescanReport, hret, hunknown]
  · simp [scanFiles, hret]

end WalkConsumer

/-- Whatever files a walk hands over: the run is refused exactly if before any yes there is a no, or
too many files were asked or could not be asked. Up to the refusal every file is scanned, and the
run ends well only if some file said yes. -/
theorem walk_refused_iff (files : List WalkedFile) :
    let s := files.foldl WalkConsumer.consume .init
    (s.question.walkAbort = true ↔ Unusable s.verdicts) ∧
      s.scanned = (if s.question.walkAbort then s.looked.dropLast else s.looked) ∧
      (∃ rest, files.filter (fun f => !f.stopped) = s.looked ++ rest ∧ (rest ≠ [] → s.ret ≠ 0)) ∧
      (s.scanFiles false = 0 ↔ s.ret = 0 ∧ .answered .yes ∈ s.verdicts) := by
  intro s
  have h : s.Inv := WalkConsumer.Inv.init.run files
  obtain ⟨taken, rest, hsplit, hlooked, hrest⟩ :=
    WalkConsumer.looked_run (s := .init) files
  have htaken : s.looked = taken := hlooked
  exact ⟨h.question.refused, h.scanned, ⟨rest, htaken ▸ hsplit, hrest⟩, h.scanFiles_eq_zero_iff⟩

end Oans
