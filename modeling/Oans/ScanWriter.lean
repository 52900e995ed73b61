import Oans.Savepoint

/-!
# The scan's batched writer

All hashfile writes of a scan share one connection and one transaction, committed once it has been
open long enough. Each write unit runs inside a savepoint, so a failed unit rolls back alone;
when the transaction itself is gone the batch is marked lost and no further unit begins.
-/

namespace Oans

open Savepoint

inductive HashUnit
  | blockBatch
  | checkpoint
  deriving DecidableEq, Repr

structure UnitReport where
  unit : HashUnit
  /-- what the caller was told -/
  rc : ℤ
  /-- rows were dropped from memory although the unit failed -/
  handedOver : Bool
  lost : Bool
  /-- the transaction is gone and the writer does not know -/
  unnoticed : Bool
  deriving DecidableEq, Repr

/-- A unit failed with the batch kept, and something the scan goes on with is wrong: the code of a
failed drain is taken for a count of bytes, the staged rows of a failed checkpoint are gone, or the
batch is lost all the same. -/
def UnitReport.Harmful (r : UnitReport) : Prop :=
  r.rc ≠ 0 ∧ r.lost = false ∧ (r.unit = .blockBatch ∨ r.handedOver = true ∨ r.unnoticed = true)

instance (r : UnitReport) : Decidable r.Harmful := inferInstanceAs (Decidable (_ ∧ _ ∧ _))

structure ScanWriter (σ : Type*) where
  conn : Conn σ
  transOpen : Bool
  unitOpen : Bool
  batchLost : Bool
  /-- `abort_on(scan_unit_open)` fired -/
  asserted : Bool
  /-- statements answered so far -/
  tick : ℕ
  reports : List UnitReport

structure WriterIO where
  answers : ℕ → Answer
  due : ℕ → Bool

namespace ScanWriter

variable {σ : Type*}

def view (w : ScanWriter σ) : σ := w.conn.view

def opened (content : σ) : ScanWriter σ :=
  ⟨⟨content, [], none⟩, false, false, false, false, 0, []⟩

/-- `batch_lost()`. -/
def loseBatch (w : ScanWriter σ) : ScanWriter σ :=
  { w with conn := w.conn.rollback, transOpen := false, unitOpen := false, batchLost := true }

def report (w : ScanWriter σ) (unit : HashUnit) (rc : ℤ) (handedOver : Bool) : ScanWriter σ :=
  { w with reports :=
      ⟨unit, rc, handedOver, w.batchLost, w.transOpen && w.conn.autocommit⟩ :: w.reports }

variable (io : WriterIO)

def run (op : Answer → Conn σ → ℕ × Conn σ) (w : ScanWriter σ) : ℕ × ScanWriter σ :=
  let (rc, conn) := op (io.answers w.tick) w.conn
  (rc, { w with conn := conn, tick := w.tick + 1 })

def execAll : List (σ → Option σ) → ScanWriter σ → ℕ × ScanWriter σ
  | [], w => (0, w)
  | f :: fs, w =>
    let (rc, w) := w.run io (Conn.exec f)
    if rc ≠ 0 then (rc, w) else execAll fs w

def writeBegin (w : ScanWriter σ) : ℤ × ScanWriter σ :=
  if w.batchLost then (-1, w)
  else if w.unitOpen then (-1, { w with asserted := true })
  else
    let (rc, w) :=
      if w.transOpen then (0, w)
      else
        let (rc, w) := w.run io Conn.begin
        (rc, if rc = 0 then { w with transOpen := true } else w)
    if rc ≠ 0 then (rc, w)
    else
      let (rc, w) := w.run io Conn.savepoint
      if rc ≠ 0 then (rc, w) else (0, { w with unitOpen := true })

def unitRelease (w : ScanWriter σ) : ℤ × ScanWriter σ :=
  if w.unitOpen = false then (0, w)
  else
    let (rc, w) := { w with unitOpen := false }.run io Conn.release
    (rc, if rc ≠ 0 then w.loseBatch else w)

def writeFlush (w : ScanWriter σ) : ℤ × ScanWriter σ :=
  let (rc, w) := w.unitRelease io
  if rc ≠ 0 ∨ w.transOpen = false then (rc, w)
  else
    let (rc, w) := w.run io Conn.commit
    let w := { w with transOpen := false }
    (rc, if rc ≠ 0 then w.loseBatch else w)

def writeEnd (w : ScanWriter σ) : ℤ × ScanWriter σ :=
  let (rc, w) := w.unitRelease io
  if rc ≠ 0 then (rc, w)
  else if w.transOpen = true ∧ io.due w.tick = true then w.writeFlush io
  else (0, w)

def writeAbort (w : ScanWriter σ) : ScanWriter σ :=
  if w.unitOpen = false then w
  else
    let (rc, w) := { w with unitOpen := false }.run io Conn.rollbackTo
    if rc ≠ 0 then w.loseBatch
    else
      let (rc, w) := w.run io Conn.release
      if rc ≠ 0 ∨ w.conn.autocommit = true then w.loseBatch else w

/-- Between units: the writer knows whether its transaction is open. -/
@[mk_iff Idle_iff]
structure Idle (w : ScanWriter σ) : Prop where
  kept : w.batchLost = false
  unit_closed : w.unitOpen = false
  opened : w.transOpen = true → ∃ s, w.conn.trans = some ⟨s, [], false⟩
  closed : w.transOpen = false → w.conn.trans = none

@[mk_iff InUnit_iff]
structure InUnit (w : ScanWriter σ) (base content : σ) : Prop where
  kept : w.batchLost = false
  unit_open : w.unitOpen = true
  trans_open : w.transOpen = true
  trans : w.conn.trans = some ⟨content, [base], false⟩

@[mk_iff Broken_iff]
structure Broken (w : ScanWriter σ) (base : σ) : Prop where
  kept : w.batchLost = false
  unit_open : w.unitOpen = true
  trans_open : w.transOpen = true
  trans : w.conn.trans = none ∨ ∃ s, w.conn.trans = some ⟨s, [base], false⟩

variable {io} {w : ScanWriter σ} {base content : σ}

theorem opened_idle (content : σ) : (opened content).Idle :=
  ⟨rfl, rfl, fun h => Bool.noConfusion h, fun _ => rfl⟩

theorem opened_view (content : σ) : (opened content).view = content := rfl

theorem InUnit.broken (h : w.InUnit base content) : w.Broken base :=
  ⟨h.kept, h.unit_open, h.trans_open, Or.inr ⟨content, h.trans⟩⟩

theorem InUnit.view (h : w.InUnit base content) : w.view = content := by
  simp [ScanWriter.view, Conn.view, h.trans]

def Keeps (w w' : ScanWriter σ) : Prop :=
  w'.reports = w.reports ∧ w'.asserted = w.asserted ∧
    w'.conn.everDurable = w.conn.everDurable

theorem Keeps.refl (w : ScanWriter σ) : w.Keeps w := ⟨rfl, rfl, rfl⟩

theorem Keeps.trans {u v w : ScanWriter σ} (h : u.Keeps v) (h' : v.Keeps w) : u.Keeps w :=
  ⟨h'.1.trans h.1, h'.2.1.trans h.2.1, h'.2.2.trans h.2.2⟩

@[simp] theorem loseBatch_batchLost (w : ScanWriter σ) : w.loseBatch.batchLost = true := rfl

def Fails (io : WriterIO) : Prop := ∃ n, (io.answers n).rc ≠ 0

/-- A unit opens on the content the writer sees. When it does not, the writer is idle as before,
unless the failed statement took the transaction along. -/
theorem writeBegin_spec (h : w.Idle) : w.Keeps (w.writeBegin io).2 ∧
    ((w.writeBegin io).1 = 0 ∧ (w.writeBegin io).2.InUnit w.view w.view ∨
      (w.writeBegin io).1 ≠ 0 ∧ Fails io ∧
        ((w.writeBegin io).2.Idle ∧ (w.writeBegin io).2.view = w.view ∨
          (w.writeBegin io).2.transOpen = true ∧ (w.writeBegin io).2.conn.trans = none)) := by
  rcases w with ⟨⟨durable, superseded, trans⟩, transOpen, unitOpen, batchLost, asserted, k, reports⟩
  rcases h with ⟨rfl, rfl, hopen, hclosed⟩
  cases transOpen with
  | true =>
    obtain ⟨s, rfl⟩ := hopen rfl
    by_cases hrc : (io.answers k).rc = 0
    · simp [writeBegin, run, Conn.savepoint, hrc, Keeps, InUnit_iff, ScanWriter.view, Conn.view,
        Conn.everDurable]
    · have hfails : Fails io := ⟨k, hrc⟩
      by_cases hback : (io.answers k).rollsBack = true
      · simp [writeBegin, run, Conn.savepoint, Conn.fail, Conn.rollback, hrc, hback, hfails, Keeps,
          Conn.everDurable]
      · simp [writeBegin, run, Conn.savepoint, Conn.fail, hrc, hback, hfails, Keeps, Idle_iff,
          ScanWriter.view, Conn.view, Conn.everDurable]
  | false =>
    cases (hclosed rfl : trans = none)
    by_cases hrc : (io.answers k).rc = 0
    · by_cases hrc' : (io.answers (k + 1)).rc = 0
      · simp [writeBegin, run, Conn.begin, Conn.savepoint, hrc, hrc', Keeps, InUnit_iff,
          ScanWriter.view, Conn.view, Conn.everDurable]
      · have hfails : Fails io := ⟨k + 1, hrc'⟩
        by_cases hback : (io.answers (k + 1)).rollsBack = true
        · simp [writeBegin, run, Conn.begin, Conn.savepoint, Conn.fail, Conn.rollback, hrc, hrc',
            hback, hfails, Keeps, Conn.everDurable]
        · simp [writeBegin, run, Conn.begin, Conn.savepoint, Conn.fail, hrc, hrc', hback, hfails,
            Keeps, Idle_iff, ScanWriter.view, Conn.view, Conn.everDurable]
    · have hfails : Fails io := ⟨k, hrc⟩
      by_cases hback : (io.answers k).rollsBack = true <;>
        simp [writeBegin, run, Conn.begin, Conn.fail, Conn.rollback, hrc, hback, hfails, Keeps,
          Idle_iff, ScanWriter.view, Conn.view, Conn.everDurable]

variable (io) in
/-- A statement inside a unit does what it says or breaks the unit. -/
theorem run_exec_spec (h : w.InUnit base content) (f : σ → Option σ) :
    w.Keeps (w.run io (Conn.exec f)).2 ∧
      ((∃ s, (w.run io (Conn.exec f)).1 = 0 ∧ f content = some s ∧
          (w.run io (Conn.exec f)).2.InUnit base s) ∨
        (w.run io (Conn.exec f)).1 ≠ 0 ∧ (Fails io ∨ f content = none) ∧
          (w.run io (Conn.exec f)).2.Broken base) := by
  rcases w with ⟨⟨durable, superseded, trans⟩, transOpen, unitOpen, batchLost, asserted, k, reports⟩
  rcases h with ⟨rfl, rfl, rfl, rfl⟩
  by_cases hrc : (io.answers k).rc = 0
  · cases hs : f content with
    | none =>
      simp [run, Conn.exec, Conn.view, hrc, hs, Keeps, Broken_iff, Conn.everDurable,
        Savepoint.CONSTRAINT]
    | some s =>
      simp [run, Conn.exec, Conn.view, hrc, hs, Keeps, InUnit_iff, Conn.everDurable]
  · have hfails : Fails io := ⟨k, hrc⟩
    by_cases hback : (io.answers k).rollsBack = true <;>
      simp [run, Conn.exec, Conn.fail, Conn.rollback, hrc, hback, hfails, Keeps, Broken_iff,
        Conn.everDurable]

/-- Statements inside a unit do what they all say in turn, or one of them breaks the unit. -/
theorem execAll_spec (h : w.InUnit base content) (fs : List (σ → Option σ)) :
    w.Keeps (w.execAll io fs).2 ∧
      ((∃ s, (w.execAll io fs).1 = 0 ∧ fs.foldlM (fun s f => f s) content = some s ∧
          (w.execAll io fs).2.InUnit base s) ∨
        (w.execAll io fs).1 ≠ 0 ∧ (Fails io ∨ fs.foldlM (fun s f => f s) content = none) ∧
          (w.execAll io fs).2.Broken base) := by
  induction fs generalizing w content with
  | nil => exact ⟨.refl w, Or.inl ⟨content, rfl, rfl, h⟩⟩
  | cons f fs ih =>
    obtain ⟨hkeeps, ⟨s, hrc, hf, hunit⟩ | ⟨hrc, hwhy, hbroken⟩⟩ := run_exec_spec io h f
    · obtain ⟨hkeeps', hrest⟩ := ih hunit
      have hstep : w.execAll io (f :: fs) = (w.run io (Conn.exec f)).2.execAll io fs := by
        rw [execAll]
        simp [hrc]
      rw [hstep]
      simp only [List.foldlM_cons, hf, Option.bind_eq_bind, Option.bind_some]
      exact ⟨hkeeps.trans hkeeps', hrest⟩
    · have hstep : w.execAll io (f :: fs) = w.run io (Conn.exec f) := by
        rw [execAll]
        simp [hrc]
      rw [hstep]
      refine ⟨hkeeps, Or.inr ⟨hrc, hwhy.imp_right fun hf => ?_, hbroken⟩⟩
      simp [hf]

variable (io) in
/-- The unit's writes join the batch, or the batch is lost. -/
theorem unitRelease_spec (h : w.InUnit base content) : w.Keeps (w.unitRelease io).2 ∧
    ((w.unitRelease io).1 = 0 ∧ (w.unitRelease io).2.Idle ∧ (w.unitRelease io).2.view = content ∧
        (w.unitRelease io).2.transOpen = true ∨
      (w.unitRelease io).1 ≠ 0 ∧ Fails io ∧ (w.unitRelease io).2.batchLost = true) := by
  rcases w with ⟨⟨durable, superseded, trans⟩, transOpen, unitOpen, batchLost, asserted, k, reports⟩
  rcases h with ⟨rfl, rfl, rfl, rfl⟩
  by_cases hrc : (io.answers k).rc = 0
  · simp [unitRelease, run, Conn.release, hrc, Keeps, Idle_iff, ScanWriter.view, Conn.view,
      Conn.everDurable]
  · have hfails : Fails io := ⟨k, hrc⟩
    by_cases hback : (io.answers k).rollsBack = true <;>
      simp [unitRelease, run, Conn.release, Conn.fail, Conn.rollback, loseBatch, hrc, hback, hfails,
        Keeps, Conn.everDurable]

variable (io) in
/-- Committing keeps for good what the writer sees, or loses the batch. -/
theorem writeFlush_of_idle (h : w.Idle) (hopen : w.transOpen = true) :
    (w.writeFlush io).2.reports = w.reports ∧ (w.writeFlush io).2.asserted = w.asserted ∧
    ((w.writeFlush io).1 = 0 ∧ (w.writeFlush io).2.Idle ∧ (w.writeFlush io).2.view = w.view ∧
        (w.writeFlush io).2.conn.everDurable = w.view :: w.conn.everDurable ∨
      (w.writeFlush io).1 ≠ 0 ∧ Fails io ∧ (w.writeFlush io).2.batchLost = true ∧
        (w.writeFlush io).2.conn.everDurable = w.conn.everDurable) := by
  obtain ⟨s, htrans⟩ := h.opened hopen
  rcases w with ⟨⟨durable, superseded, trans⟩, transOpen, unitOpen, batchLost, asserted, k, reports⟩
  rcases h with ⟨rfl, rfl, -, -⟩
  cases (htrans : trans = _)
  cases (hopen : transOpen = true)
  by_cases hrc : (io.answers k).rc = 0
  · simp [writeFlush, unitRelease, run, Conn.commit, Conn.makeDurable, hrc, Idle_iff,
      ScanWriter.view, Conn.view, Conn.everDurable]
  · have hfails : Fails io := ⟨k, hrc⟩
    by_cases hback : (io.answers k).rollsBack = true <;>
      simp [writeFlush, unitRelease, run, Conn.commit, Conn.fail, Conn.rollback, loseBatch, hrc,
        hback, hfails, Conn.everDurable]

theorem unitRelease_of_closed (h : w.unitOpen = false) : w.unitRelease io = (0, w) := by
  unfold unitRelease
  rw [if_pos h]

theorem writeFlush_eq (h : w.InUnit base content) : w.writeFlush io =
    if (w.unitRelease io).1 ≠ 0 then w.unitRelease io else (w.unitRelease io).2.writeFlush io := by
  obtain ⟨-, ⟨hrc, hidle, -, hopen⟩ | ⟨hrc, -⟩⟩ := unitRelease_spec io h
  · rw [if_neg (by simp [hrc])]
    simp [writeFlush, unitRelease_of_closed hidle.unit_closed, hrc, hopen]
  · rw [if_pos hrc]
    simp [writeFlush, hrc]

/-- How a unit that was to be kept ends: with what it wrote in view, or with the batch lost. -/
structure Ended (io : WriterIO) (w : ScanWriter σ) (content : σ) (r : ℤ × ScanWriter σ) : Prop where
  reports : r.2.reports = w.reports
  asserted : r.2.asserted = w.asserted
  kept_or_lost : r.1 = 0 ∧ r.2.Idle ∧ r.2.view = content ∨ r.1 ≠ 0 ∧ Fails io ∧ r.2.batchLost = true
  everDurable : r.2.conn.everDurable = w.conn.everDurable ∨
    r.1 = 0 ∧ r.2.conn.everDurable = content :: w.conn.everDurable

/-- Closing a unit with a commit keeps its writes for good, or loses the batch. -/
theorem writeFlush_spec (h : w.InUnit base content) : Ended io w content (w.writeFlush io) := by
  rw [writeFlush_eq h]
  obtain ⟨hkeeps, ⟨hrc, hidle, hview, hopen⟩ | ⟨hrc, hfails, hlost⟩⟩ :=
    unitRelease_spec io h
  · rw [if_neg (by simp [hrc])]
    obtain ⟨hreports, hasserted, hend⟩ := writeFlush_of_idle io hidle hopen
    refine ⟨hreports.trans hkeeps.1, hasserted.trans hkeeps.2.1, ?_, ?_⟩
    · rcases hend with ⟨h0, hidle', hview', -⟩ | ⟨h0, hfails, hlost, -⟩
      · exact Or.inl ⟨h0, hidle', hview'.trans hview⟩
      · exact Or.inr ⟨h0, hfails, hlost⟩
    · rcases hend with ⟨h0, -, -, hdurable⟩ | ⟨-, -, -, hdurable⟩
      · exact Or.inr ⟨h0, by rw [hdurable, hview, hkeeps.2.2]⟩
      · exact Or.inl (hdurable.trans hkeeps.2.2)
  · rw [if_pos hrc]
    exact ⟨hkeeps.1, hkeeps.2.1, Or.inr ⟨hrc, hfails, hlost⟩, Or.inl hkeeps.2.2⟩

theorem writeEnd_spec (h : w.InUnit base content) : Ended io w content (w.writeEnd io) := by
  obtain ⟨hkeeps, ⟨hrc, hidle, hview, hopen⟩ | ⟨hrc, hfails, hlost⟩⟩ :=
    unitRelease_spec io h
  · by_cases hdue : io.due (w.unitRelease io).2.tick = true
    · have hflush : w.writeEnd io = w.writeFlush io := by
        rw [writeFlush_eq h, if_neg (by simp [hrc])]
        simp [writeEnd, hrc, hopen, hdue]
      rw [hflush]
      exact writeFlush_spec h
    · have hend : w.writeEnd io = (0, (w.unitRelease io).2) := by
        simp [writeEnd, hrc, hdue]
      rw [hend]
      exact ⟨hkeeps.1, hkeeps.2.1, Or.inl ⟨rfl, hidle, hview⟩, Or.inl hkeeps.2.2⟩
  · have hend : w.writeEnd io = w.unitRelease io := by
      simp [writeEnd, hrc]
    rw [hend]
    exact ⟨hkeeps.1, hkeeps.2.1, Or.inr ⟨hrc, hfails, hlost⟩, Or.inl hkeeps.2.2⟩

/-- Undoing a unit leaves what it began with, or loses the batch. -/
theorem writeAbort_spec (h : w.Broken base) : w.Keeps (w.writeAbort io) ∧
    ((w.writeAbort io).Idle ∧ (w.writeAbort io).view = base ∨
      (w.writeAbort io).batchLost = true) := by
  rcases w with ⟨⟨durable, superseded, trans⟩, transOpen, unitOpen, batchLost, asserted, k, reports⟩
  rcases h with ⟨rfl, rfl, rfl, htrans⟩
  have hlost : ∀ v : ScanWriter σ, v.loseBatch.batchLost = true := fun _ => rfl
  by_cases hrc : (io.answers k).rc = 0
  · rcases htrans with rfl | ⟨s, rfl⟩
    · simp [writeAbort, run, Conn.rollbackTo, hrc, Savepoint.ERROR, Keeps, Conn.everDurable,
        loseBatch, Conn.rollback]
    · by_cases hrc' : (io.answers (k + 1)).rc = 0
      · simp [writeAbort, run, Conn.rollbackTo, Conn.release, hrc, hrc', Conn.autocommit, Keeps,
          Idle_iff, ScanWriter.view, Conn.view, Conn.everDurable]
      · by_cases hback : (io.answers (k + 1)).rollsBack = true <;>
          simp [writeAbort, run, Conn.rollbackTo, Conn.release, Conn.fail, Conn.rollback, loseBatch,
            hrc, hrc', hback, Keeps, Conn.everDurable]
  · by_cases hback : (io.answers k).rollsBack = true <;>
      simp [writeAbort, run, Conn.rollbackTo, Conn.fail, Conn.rollback, loseBatch, hrc, hback,
        Keeps, Conn.everDurable]

end ScanWriter

end Oans
