import Oans.Savepoint

/-!
# The configuration a hashfile replays

A run stores its options, roots and excludes in the hashfile, in one transaction, and a run without
arguments reads them back. Any statement of either may fail: what is replayed is still the last
configuration whose storing was reported to have succeeded, as a whole.
-/

namespace Oans

open Savepoint

structure RunOptions where
  runDedupe : Bool
  recurseDirs : Bool
  skipZeroes : Bool
  skipReadonlySubvols : Bool
  onlyWholeFiles : Bool
  doBlockHash : Bool
  dedupeSameFile : Bool
  minFilesize : BitVec 64
  maxFilesize : BitVec 64
  deriving DecidableEq

structure ScanJob where
  options : RunOptions
  roots : List (List UInt8)
  excludes : List (List UInt8)
  deriving DecidableEq

structure ScanConfig where
  runDedupe : BitVec 32
  recurse : BitVec 32
  skipZeroes : BitVec 32
  skipReadonlySubvols : BitVec 32
  onlyWholeFiles : BitVec 32
  doBlockHash : BitVec 32
  dedupeSameFile : BitVec 32
  minFilesize : BitVec 64
  maxFilesize : BitVec 64
  roots : List (List UInt8)
  excludes : List (List UInt8)
  deriving DecidableEq

structure ConfigTables where
  config : String → Option (BitVec 64)
  scanRoots : List (List UInt8)
  scanExcludes : List (List UInt8)

namespace ConfigTables

def syncConfigInt (keyval : String × BitVec 64) (t : ConfigTables) : ConfigTables :=
  { t with config := Function.update t.config keyval.1 (some keyval.2) }

def deleteRoots (t : ConfigTables) : ConfigTables := { t with scanRoots := [] }

def insertRoot (path : List UInt8) (t : ConfigTables) : ConfigTables :=
  { t with scanRoots := t.scanRoots ++ [path] }

def deleteExcludes (t : ConfigTables) : ConfigTables := { t with scanExcludes := [] }

def insertExclude (pattern : List UInt8) (t : ConfigTables) : ConfigTables :=
  { t with scanExcludes := t.scanExcludes ++ [pattern] }

/-- `get_config_int()` into a variable that is 0. -/
def getConfigInt (t : ConfigTables) (key : String) : BitVec 32 :=
  ((t.config key).getD 0).setWidth 32

/-- `get_config_int64()` into a variable that is 0. -/
def getConfigInt64 (t : ConfigTables) (key : String) : BitVec 64 := (t.config key).getD 0

end ConfigTables

open ConfigTables

namespace ScanConfig

def settings (sc : ScanConfig) : List (String × BitVec 64) :=
  [("scan_config", 1),
    ("opt_run_dedupe", sc.runDedupe.signExtend 64),
    ("opt_recurse", sc.recurse.signExtend 64),
    ("opt_skip_zeroes", sc.skipZeroes.signExtend 64),
    ("opt_skip_readonly_subvols", sc.skipReadonlySubvols.signExtend 64),
    ("opt_only_whole_files", sc.onlyWholeFiles.signExtend 64),
    ("opt_do_block_hash", sc.doBlockHash.signExtend 64),
    ("opt_dedupe_same_file", sc.dedupeSameFile.signExtend 64),
    ("opt_min_filesize", sc.minFilesize),
    ("opt_max_filesize", sc.maxFilesize)]

/-- Everything between `begin` and `commit`; to prepare a statement changes nothing. -/
def statements (sc : ScanConfig) : List (ConfigTables → ConfigTables) :=
  id :: sc.settings.map syncConfigInt ++
    (deleteRoots :: id :: sc.roots.map insertRoot) ++
    (deleteExcludes :: id :: sc.excludes.map insertExclude)

def options (sc : ScanConfig) : RunOptions where
  runDedupe := sc.runDedupe != 0
  recurseDirs := sc.recurse != 0
  skipZeroes := sc.skipZeroes != 0
  skipReadonlySubvols := sc.skipReadonlySubvols != 0
  onlyWholeFiles := sc.onlyWholeFiles != 0
  doBlockHash := sc.doBlockHash != 0
  dedupeSameFile := sc.dedupeSameFile != 0
  minFilesize := sc.minFilesize
  maxFilesize := sc.maxFilesize

end ScanConfig

def execStatements : List (ConfigTables → ConfigTables) → (ℕ → Answer) → Conn ConfigTables →
    ℕ × Conn ConfigTables
  | [], _, c => (0, c)
  | f :: fs, answers, c =>
    let r := c.exec (fun t => some (f t)) (answers 0)
    if r.1 ≠ 0 then r else execStatements fs (fun n => answers (n + 1)) r.2

def storeScanConfig (sc : ScanConfig) (answers : ℕ → Answer) (c : Conn ConfigTables) :
    ℕ × Conn ConfigTables :=
  let begun := c.begin (answers 0)
  if begun.1 ≠ 0 then begun
  else
    let written := execStatements sc.statements (fun n => answers (n + 1)) begun.2
    if written.1 ≠ 0 then (written.1, written.2.rollback)
    else
      let committed := written.2.commit (answers (sc.statements.length + 1))
      if committed.1 ≠ 0 then (committed.1, committed.2.rollback) else committed

def readsSucceed (rc : ℕ → ℕ) : Bool := (List.range 13).all fun i => rc i == 0

/-- `dbfile_load_scan_config()`, with the codes its reads end with: nothing where it answers -1, and
no configuration where it answers 0. -/
def loadScanConfig (rc : ℕ → ℕ) (t : ConfigTables) : Option (Option ScanConfig) :=
  if rc 0 ≠ 0 ∨ rc 1 ≠ 0 then none
  else if t.getConfigInt "scan_config" = 0 then some none
  else if readsSucceed rc = false then none
  else some (some
    { runDedupe := t.getConfigInt "opt_run_dedupe"
      recurse := t.getConfigInt "opt_recurse"
      skipZeroes := t.getConfigInt "opt_skip_zeroes"
      skipReadonlySubvols :=
        if (t.getConfigInt "opt_skip_readonly_subvols").toInt < 0 then 0
        else t.getConfigInt "opt_skip_readonly_subvols"
      onlyWholeFiles := t.getConfigInt "opt_only_whole_files"
      doBlockHash := t.getConfigInt "opt_do_block_hash"
      dedupeSameFile := t.getConfigInt "opt_dedupe_same_file"
      minFilesize := t.getConfigInt64 "opt_min_filesize"
      maxFilesize := t.getConfigInt64 "opt_max_filesize"
      roots := t.scanRoots
      excludes := t.scanExcludes })

namespace ScanJob

/-- The job as it is recorded: roots without a canonical path are left out. -/
def recorded (realpath : List UInt8 → Option (List UInt8)) (job : ScanJob) : ScanJob :=
  { job with roots := job.roots.filterMap realpath }

def flag (b : Bool) : BitVec 32 := if b then 1 else 0

def scanConfig (job : ScanJob) : ScanConfig where
  runDedupe := flag job.options.runDedupe
  recurse := flag job.options.recurseDirs
  skipZeroes := flag job.options.skipZeroes
  skipReadonlySubvols := flag job.options.skipReadonlySubvols
  onlyWholeFiles := flag job.options.onlyWholeFiles
  doBlockHash := flag job.options.doBlockHash
  dedupeSameFile := flag job.options.dedupeSameFile
  minFilesize := job.options.minFilesize
  maxFilesize := job.options.maxFilesize
  roots := job.roots
  excludes := job.excludes

end ScanJob

def persistScanConfig (realpath : List UInt8 → Option (List UInt8)) (job : ScanJob)
    (answers : ℕ → Answer) (c : Conn ConfigTables) : ℕ × Conn ConfigTables :=
  storeScanConfig (job.recorded realpath).scanConfig answers c

/-- A run without files, from `dbfile_load_scan_config()` to `drop_missing_roots()`: nothing where
it refuses to go on. -/
def replay (rc : ℕ → ℕ) (addExcludePattern present : List UInt8 → Bool) (t : ConfigTables) :
    Option ScanJob :=
  match loadScanConfig rc t with
  | some (some sc) =>
    if sc.excludes.all addExcludePattern then
      let roots := sc.roots.filter present
      if roots = [] then none else some ⟨sc.options, roots, sc.excludes⟩
    else none
  | _ => none

structure ConfigTables.Records (t : ConfigTables) (sc : ScanConfig) : Prop where
  config : ∀ keyval ∈ sc.settings, t.config keyval.1 = some keyval.2
  roots : t.scanRoots = sc.roots
  excludes : t.scanExcludes = sc.excludes

/-- A hashfile after any number of runs, with the job that was recorded last. Other writers leave
the rows of the configuration alone. -/
inductive ConfigRuns : Option ScanJob → Conn ConfigTables → Prop
  | created {t} (h : t.config "scan_config" = none) : ConfigRuns none ⟨t, [], none⟩
  | persisted {last c} (h : ConfigRuns last c) (realpath) (job : ScanJob) (answers) :
      ConfigRuns (if (persistScanConfig realpath job answers c).1 = 0
        then some (job.recorded realpath) else last) (persistScanConfig realpath job answers c).2
  | other {last c} (h : ConfigRuns last c) (t : ConfigTables)
      (hconfig : ∀ sc : ScanConfig, ∀ keyval ∈ sc.settings,
        t.config keyval.1 = c.durable.config keyval.1)
      (hroots : t.scanRoots = c.durable.scanRoots)
      (hexcludes : t.scanExcludes = c.durable.scanExcludes) : ConfigRuns last (c.makeDurable t)

def ScanConfig.stored (sc : ScanConfig) (t : ConfigTables) : ConfigTables :=
  sc.statements.foldl (fun t f => f t) t

theorem fail_rollback (a : Answer) (c : Conn ConfigTables) :
    (c.fail a).2.rollback = c.rollback := by
  rw [Conn.fail]
  dsimp only
  split_ifs <;> rfl

theorem execStatements_spec (fs : List (ConfigTables → ConfigTables)) (answers : ℕ → Answer)
    (c : Conn ConfigTables) (t : ConfigTables) :
    execStatements fs answers { c with trans := some ⟨t, [], false⟩ } =
        (0, { c with trans := some ⟨fs.foldl (fun t f => f t) t, [], false⟩ }) ∨
      (execStatements fs answers { c with trans := some ⟨t, [], false⟩ }).1 ≠ 0 ∧
        (execStatements fs answers { c with trans := some ⟨t, [], false⟩ }).2.rollback =
          c.rollback := by
  induction fs generalizing t answers with
  | nil => exact Or.inl rfl
  | cons f fs ih =>
    rw [execStatements]
    by_cases hrc : (answers 0).rc = 0
    · have hexec : Conn.exec (fun t => some (f t)) (answers 0)
          { c with trans := some ⟨t, [], false⟩ } =
          (0, { c with trans := some ⟨f t, [], false⟩ }) := by
        rw [Conn.exec, if_neg (not_not.mpr hrc)]
        rfl
      rw [hexec]
      exact ih (fun n => answers (n + 1)) (f t)
    · have hexec : Conn.exec (fun t => some (f t)) (answers 0)
          { c with trans := some ⟨t, [], false⟩ } =
          Conn.fail (answers 0) { c with trans := some ⟨t, [], false⟩ } := if_pos hrc
      right
      rw [hexec, if_pos (show (Conn.fail (answers 0) _).1 ≠ 0 from hrc)]
      exact ⟨hrc, fail_rollback ..⟩

theorem storeScanConfig_spec (sc : ScanConfig) (answers : ℕ → Answer) {c : Conn ConfigTables}
    (h : c.trans = none) :
    storeScanConfig sc answers c = (0, c.makeDurable (sc.stored c.durable)) ∨
      (storeScanConfig sc answers c).1 ≠ 0 ∧ (storeScanConfig sc answers c).2 = c := by
  have hidle : c.rollback = c := by
    cases c
    cases h
    rfl
  rw [storeScanConfig]
  dsimp only
  by_cases hrc : (answers 0).rc = 0
  · have hbegin : c.begin (answers 0) = (0, { c with trans := some ⟨c.durable, [], false⟩ }) := by
      rw [Conn.begin, if_neg (not_not.mpr hrc), h]
    rw [hbegin, if_neg (not_not.mpr rfl)]
    rcases execStatements_spec sc.statements (fun n => answers (n + 1)) c c.durable with
      hall | ⟨hfailed, hback⟩
    · rw [hall, if_neg (not_not.mpr rfl)]
      by_cases hlast : (answers (sc.statements.length + 1)).rc = 0
      · left
        rw [Conn.commit, if_neg (not_not.mpr hlast)]
        rfl
      · right
        rw [Conn.commit, if_pos hlast, if_pos (show (Conn.fail _ _).1 ≠ 0 from hlast)]
        exact ⟨hlast, (fail_rollback ..).trans hidle⟩
    · right
      rw [if_pos hfailed]
      exact ⟨hfailed, hback.trans hidle⟩
  · right
    rw [Conn.begin, if_pos hrc, if_pos (show (Conn.fail _ _).1 ≠ 0 from hrc)]
    refine ⟨hrc, ?_⟩
    rw [Conn.fail, hidle]
    exact ite_self c

/-- Each key holds what was written last, and no other key changes. -/
theorem syncConfigInts_spec (l : List (String × BitVec 64)) (hnodup : (l.map Prod.fst).Nodup)
    (t : ConfigTables) :
    (∀ keyval ∈ l, ((l.map syncConfigInt).foldl (fun t f => f t) t).config keyval.1 =
        some keyval.2) ∧
      ∀ key ∉ l.map Prod.fst,
        ((l.map syncConfigInt).foldl (fun t f => f t) t).config key = t.config key := by
  induction l generalizing t with
  | nil => exact ⟨fun _ h => absurd h List.not_mem_nil, fun _ _ => rfl⟩
  | cons head l ih =>
    rw [List.map_cons, List.nodup_cons] at hnodup
    obtain ⟨hwritten, hkept⟩ := ih hnodup.2 (syncConfigInt head t)
    rw [List.map_cons, List.foldl_cons]
    constructor
    · intro keyval hmem
      rcases List.mem_cons.mp hmem with rfl | hmem
      · rw [hkept _ hnodup.1]
        exact Function.update_self ..
      · exact hwritten keyval hmem
    · intro key hkey
      rw [List.map_cons, List.mem_cons, not_or] at hkey
      rw [hkept key hkey.2]
      exact Function.update_of_ne hkey.1 ..

theorem insertRoots_eq (paths : List (List UInt8)) (t : ConfigTables) :
    (paths.map insertRoot).foldl (fun t f => f t) t =
      { t with scanRoots := t.scanRoots ++ paths } := by
  induction paths generalizing t with
  | nil => simp
  | cons path paths ih =>
    rw [List.map_cons, List.foldl_cons, ih]
    simp [insertRoot]

theorem insertExcludes_eq (patterns : List (List UInt8)) (t : ConfigTables) :
    (patterns.map insertExclude).foldl (fun t f => f t) t =
      { t with scanExcludes := t.scanExcludes ++ patterns } := by
  induction patterns generalizing t with
  | nil => simp
  | cons pattern patterns ih =>
    rw [List.map_cons, List.foldl_cons, ih]
    simp [insertExclude]

theorem ScanConfig.stored_records (sc : ScanConfig) (t : ConfigTables) :
    (sc.stored t).Records sc := by
  have heq : sc.stored t =
      { config := ((sc.settings.map syncConfigInt).foldl (fun t f => f t) t).config
        scanRoots := sc.roots
        scanExcludes := sc.excludes } := by
    simp only [stored, statements, List.foldl_append, List.foldl_cons, id_eq, insertRoots_eq,
      insertExcludes_eq, deleteRoots, deleteExcludes, List.nil_append]
  have hnodup : (sc.settings.map Prod.fst).Nodup := by
    simp [settings]
  rw [heq]
  exact ⟨(syncConfigInts_spec sc.settings hnodup t).1, rfl, rfl⟩

theorem setWidth_signExtend (x : BitVec 32) : (x.signExtend 64).setWidth 32 = x := by
  apply BitVec.eq_of_getElem_eq
  intro i hi
  have hlong : i < 64 := by omega
  rw [BitVec.getElem_setWidth, BitVec.getLsbD_signExtend]
  simp [hi, hlong]

/-- A configuration is read back from its rows as it was stored. -/
theorem loadScanConfig_of_records {t : ConfigTables} {sc : ScanConfig} (h : t.Records sc)
    (hskip : ¬ sc.skipReadonlySubvols.toInt < 0) {rc : ℕ → ℕ} (hrc : readsSucceed rc = true) :
    loadScanConfig rc t = some (some sc) := by
  have hkey := h.config
  simp only [ScanConfig.settings, List.forall_mem_cons, List.not_mem_nil, IsEmpty.forall_iff,
    implies_true, and_true] at hkey
  obtain ⟨hpresent, hdedupe, hrecurse, hzeroes, hreadonly, hwhole, hblocks, hsame, hmin, hmax⟩ :=
    hkey
  have hstored : t.getConfigInt "scan_config" ≠ 0 := by
    rw [getConfigInt, hpresent]
    decide
  have hfails : ¬ (rc 0 ≠ 0 ∨ rc 1 ≠ 0) := by
    have hall := List.all_eq_true.mp hrc
    have hzero : rc 0 = 0 := by simpa using hall 0 (by simp)
    have hone : rc 1 = 0 := by simpa using hall 1 (by simp)
    simp [hzero, hone]
  rw [loadScanConfig, if_neg hfails, if_neg hstored, if_neg (by simp [hrc])]
  simp only [getConfigInt, getConfigInt64, hdedupe, hrecurse, hzeroes, hreadonly, hwhole, hblocks,
    hsame, hmin, hmax, Option.getD_some, setWidth_signExtend, if_neg hskip, h.roots, h.excludes]

theorem loadScanConfig_of_failure {t : ConfigTables} {sc : ScanConfig} (h : t.Records sc)
    {rc : ℕ → ℕ} (hrc : readsSucceed rc = false) : loadScanConfig rc t = none := by
  have hpresent : t.config "scan_config" = some 1 := h.config _ List.mem_cons_self
  have hstored : t.getConfigInt "scan_config" ≠ 0 := by
    rw [getConfigInt, hpresent]
    decide
  rw [loadScanConfig, if_neg hstored, if_pos hrc, ite_self]

namespace ScanJob

theorem options_scanConfig (job : ScanJob) : job.scanConfig.options = job.options := by
  have hflag (b : Bool) : (flag b != 0) = b := by
    cases b <;> rfl
  simp only [ScanConfig.options, scanConfig, hflag]

theorem scanConfig_skips (job : ScanJob) :
    ¬ job.scanConfig.skipReadonlySubvols.toInt < 0 := by
  change ¬ (flag job.options.skipReadonlySubvols).toInt < 0
  cases job.options.skipReadonlySubvols <;> decide

end ScanJob

def Recorded (t : ConfigTables) : Option ScanJob → Prop
  | none => t.config "scan_config" = none
  | some job => t.Records job.scanConfig

theorem ConfigRuns.recorded {last : Option ScanJob} {c : Conn ConfigTables} (h : ConfigRuns last c) :
    c.trans = none ∧ Recorded c.durable last := by
  induction h with
  | created h => exact ⟨rfl, h⟩
  | @persisted last c h realpath job answers ih =>
    rcases storeScanConfig_spec (job.recorded realpath).scanConfig answers ih.1 with
      hstored | ⟨hfailed, hsame⟩
    · rw [persistScanConfig, hstored, if_pos rfl]
      exact ⟨rfl, ScanConfig.stored_records ..⟩
    · rw [persistScanConfig, if_neg hfailed, hsame]
      exact ih
  | @other last c h t hconfig hroots hexcludes ih =>
    refine ⟨rfl, ?_⟩
    change Recorded t last
    cases last with
    | none =>
      exact (hconfig ⟨0, 0, 0, 0, 0, 0, 0, 0, 0, [], []⟩ _ List.mem_cons_self).trans ih.2
    | some job =>
      have hrecords : c.durable.Records job.scanConfig := ih.2
      exact ⟨fun keyval hmem => (hconfig _ keyval hmem).trans (hrecords.config keyval hmem),
        hroots.trans hrecords.roots, hexcludes.trans hrecords.excludes⟩

def freshTables : ConfigTables := ⟨fun _ => none, [], []⟩

def firstJob : ScanJob :=
  ⟨⟨true, true, false, false, false, false, true, 1, 0⟩, [[0x2f]], []⟩

def secondJob : ScanJob :=
  ⟨⟨false, true, false, false, false, false, true, 1, 0⟩, [[0x2f]], [[0x61]]⟩

/-- The second of two runs fails to record its job half way. -/
def twoRuns : Conn ConfigTables :=
  (persistScanConfig some secondJob (fun n => if n = 5 then ⟨13, false⟩ else .ok)
    (persistScanConfig some firstJob (fun _ => .ok) ⟨freshTables, [], none⟩).2).2

theorem twoRuns_configRuns : ConfigRuns (some firstJob) twoRuns := by
  have hfirst := (ConfigRuns.created (t := freshTables) rfl).persisted some firstJob fun _ => .ok
  have hsecond := hfirst.persisted some secondJob fun n => if n = 5 then ⟨13, false⟩ else .ok
  exact hsecond

end Oans
