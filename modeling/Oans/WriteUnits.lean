import Oans.ScanWriter

/-!
# Sequences of write units

The listing thread and the hash workers issue their units one after the other, under the write
lock: a begin that succeeds, any statements, then an end, a flush or an abort. Beside the writer
runs what it is meant to hold, the writes of the units that ended successfully.
-/

namespace Oans

open Savepoint

inductive Closing
  | finish
  | flush
  | abort
  deriving DecidableEq, Repr

inductive UnitCall (σ : Type*)
  | begin
  /-- a statement of the open unit, whatever its caller makes of the result -/
  | write (f : σ → Option σ)
  | close (how : Closing)
  /-- the listing thread commits the batch between units -/
  | flushBatch

structure UnitRun (σ : Type*) where
  writer : ScanWriter σ
  /-- the caller is in a unit: its begin succeeded and it has not closed it -/
  inUnit : Bool
  /-- what the units that ended successfully make of the first content -/
  kept : σ
  /-- the same with the writes of the open unit -/
  writing : σ
  /-- units that ended successfully and are not durable yet -/
  uncommitted : ℕ

namespace UnitRun

variable {σ : Type*} (io : WriterIO)

def opened (content : σ) : UnitRun σ := ⟨.opened content, false, content, content, 0⟩

def closeUnit (w : ScanWriter σ) : Closing → ℤ × ScanWriter σ
  | .finish => w.writeEnd io
  | .flush => w.writeFlush io
  | .abort => (0, w.writeAbort io)

/-- The units that are not durable once a call has succeeded: none, when no transaction is open. -/
def stillUncommitted (w : ScanWriter σ) (n : ℕ) : ℕ := if w.conn.autocommit then 0 else n

def next (r : UnitRun σ) : UnitCall σ → UnitRun σ
  | .begin =>
    let (rc, w) := r.writer.writeBegin io
    { r with writer := w, inUnit := decide (rc = 0), writing := r.kept }
  | .write f =>
    let (rc, w) := r.writer.run io (Conn.exec f)
    { r with writer := w, writing := if rc = 0 then (f r.writing).getD r.writing else r.writing }
  | .close how =>
    let (rc, w) := closeUnit io r.writer how
    if how = .abort ∨ rc ≠ 0 then { r with writer := w, inUnit := false }
    else ⟨w, false, r.writing, r.writing, stillUncommitted w (r.uncommitted + 1)⟩
  | .flushBatch =>
    let (rc, w) := r.writer.writeFlush io
    { r with writer := w, uncommitted := if rc = 0 then stillUncommitted w r.uncommitted
        else r.uncommitted }

/-- Units do not overlap: the write lock is held from a begin to the end of its unit. -/
def Allowed (r : UnitRun σ) : UnitCall σ → Prop
  | .begin | .flushBatch => r.inUnit = false
  | .write _ | .close _ => r.inUnit = true

/-- A savepoint that fails does not take with it units that ended and are not durable. -/
def SavepointKeepsUnits (r : UnitRun σ) (call : UnitCall σ) : Prop :=
  match call with
  | .begin => r.uncommitted = 0 ∨ (io.answers r.writer.tick).rc = 0 ∨
      (io.answers r.writer.tick).rollsBack = false
  | _ => True

inductive Reaches (ok : UnitRun σ → UnitCall σ → Prop) (r : UnitRun σ) : UnitRun σ → Prop
  | refl : Reaches ok r r
  | step {s : UnitRun σ} (h : Reaches ok r s) (call : UnitCall σ) (hallowed : s.Allowed call)
      (hok : ok s call) : Reaches ok r (s.next io call)

/-- Between units: the writer sees what is to be kept, and what is not durable of it is in the
transaction. -/
@[mk_iff Closed_iff]
structure Closed (r : UnitRun σ) : Prop where
  kept_batch : r.writer.batchLost = false
  notInUnit : r.inUnit = false
  unit_closed : r.writer.unitOpen = false
  durable : r.uncommitted = 0 → r.writer.conn.durable = r.kept
  trans : r.writer.transOpen = true ∧ r.writer.conn.trans = some ⟨r.kept, [], false⟩ ∨
    r.writer.conn.trans = none ∧ r.uncommitted = 0

/-- In a unit: the savepoint holds what is to be kept, unless the transaction is gone. -/
@[mk_iff Open_iff]
structure Open (r : UnitRun σ) : Prop where
  kept_batch : r.writer.batchLost = false
  isInUnit : r.inUnit = true
  unit_open : r.writer.unitOpen = true
  trans_open : r.writer.transOpen = true
  trans : r.writer.conn.trans = none ∨ (r.uncommitted = 0 → r.writer.conn.durable = r.kept) ∧
    ∃ opened, r.writer.conn.trans = some ⟨r.writing, [r.kept], opened⟩ ∧
      (opened = true → r.uncommitted = 0)

@[mk_iff Lost_iff]
structure Lost (r : UnitRun σ) : Prop where
  lost : r.writer.batchLost = true
  notInUnit : r.inUnit = false
  unit_closed : r.writer.unitOpen = false
  trans_closed : r.writer.transOpen = false

structure Inv (r : UnitRun σ) : Prop where
  asserted : r.writer.asserted = false
  phase : r.Lost ∨ r.Closed ∨ r.Open

variable {io} {r : UnitRun σ}

theorem opened_inv (content : σ) : (opened content).Inv :=
  ⟨rfl, Or.inr (Or.inl ⟨rfl, rfl, rfl, fun _ => rfl, Or.inr ⟨rfl, rfl⟩⟩)⟩

variable (io) in
theorem Lost.next (h : r.Lost) {call : UnitCall σ} (hallowed : r.Allowed call) :
    (r.next io call).Lost ∧ (r.next io call).writer.asserted = r.writer.asserted := by
  obtain ⟨hlost, hin, hunit, htrans⟩ := h
  cases call with
  | begin => simp [UnitRun.next, ScanWriter.writeBegin, Lost_iff, hlost, hunit, htrans]
  | write f => simp [Allowed, hin] at hallowed
  | close how => simp [Allowed, hin] at hallowed
  | flushBatch =>
    simp [UnitRun.next, ScanWriter.writeFlush, ScanWriter.unitRelease, Lost_iff, hlost, hin, hunit,
      htrans]

/-- A unit opens, or everything is as before; a savepoint that takes the transaction with it takes
no unit with it. -/
theorem Closed.begin (h : r.Closed) (hok : r.SavepointKeepsUnits io .begin) :
    ((r.next io .begin).Closed ∨ (r.next io .begin).Open) ∧
      (r.next io .begin).writer.asserted = r.writer.asserted := by
  rcases r with ⟨⟨⟨durable, superseded, trans⟩, transOpen, unitOpen, batchLost, asserted, k, reports⟩,
    inUnit, kept, writing, uncommitted⟩
  obtain ⟨hlost, hin, hunit, hdurable, htrans⟩ := h
  simp only at hlost hin hunit hdurable htrans
  subst hlost hin hunit
  simp only [SavepointKeepsUnits] at hok
  rcases htrans with ⟨rfl, rfl⟩ | ⟨rfl, rfl⟩
  · by_cases hrc : (io.answers k).rc = 0
    · simp [UnitRun.next, ScanWriter.writeBegin, ScanWriter.run, Conn.savepoint, hrc, Open_iff]
      exact Or.inr hdurable
    · by_cases hback : (io.answers k).rollsBack = true
      · have hzero : uncommitted = 0 := by simpa [hrc, hback] using hok
        simp [UnitRun.next, ScanWriter.writeBegin, ScanWriter.run, Conn.savepoint, Conn.fail,
          Conn.rollback, hrc, hback, Closed_iff, hzero, hdurable hzero]
      · simp [UnitRun.next, ScanWriter.writeBegin, ScanWriter.run, Conn.savepoint, Conn.fail, hrc,
          hback, Closed_iff]
        exact Or.inl hdurable
  · have hkept : durable = kept := hdurable rfl
    subst hkept
    cases transOpen with
    | true =>
      -- the transaction is gone and held nothing: the savepoint opens one of its own
      by_cases hrc : (io.answers k).rc = 0
      · simp [UnitRun.next, ScanWriter.writeBegin, ScanWriter.run, Conn.savepoint, hrc, Open_iff]
      · by_cases hback : (io.answers k).rollsBack = true <;>
          simp [UnitRun.next, ScanWriter.writeBegin, ScanWriter.run, Conn.savepoint, Conn.fail,
            Conn.rollback, hrc, hback, Closed_iff]
    | false =>
      by_cases hrc : (io.answers k).rc = 0
      · by_cases hrc' : (io.answers (k + 1)).rc = 0
        · simp [UnitRun.next, ScanWriter.writeBegin, ScanWriter.run, Conn.begin, Conn.savepoint, hrc,
            hrc', Open_iff]
        · by_cases hback : (io.answers (k + 1)).rollsBack = true <;>
            simp [UnitRun.next, ScanWriter.writeBegin, ScanWriter.run, Conn.begin, Conn.savepoint,
              Conn.fail, Conn.rollback, hrc, hrc', hback, Closed_iff]
      · by_cases hback : (io.answers k).rollsBack = true <;>
          simp [UnitRun.next, ScanWriter.writeBegin, ScanWriter.run, Conn.begin, Conn.fail,
            Conn.rollback, hrc, hback, Closed_iff]

variable (io) in
/-- Committing the batch between units keeps what is to be kept, or loses the batch. -/
theorem Closed.flushBatch (h : r.Closed) :
    ((r.next io .flushBatch).Lost ∨ (r.next io .flushBatch).Closed) ∧
      (r.next io .flushBatch).writer.asserted = r.writer.asserted := by
  rcases r with ⟨⟨⟨durable, superseded, trans⟩, transOpen, unitOpen, batchLost, asserted, k, reports⟩,
    inUnit, kept, writing, uncommitted⟩
  obtain ⟨hlost, hin, hunit, hdurable, htrans⟩ := h
  simp only at hlost hin hunit hdurable htrans
  subst hlost hin hunit
  rcases htrans with ⟨rfl, rfl⟩ | ⟨rfl, rfl⟩
  · by_cases hrc : (io.answers k).rc = 0
    · simp [UnitRun.next, ScanWriter.writeFlush, ScanWriter.unitRelease, ScanWriter.run, Conn.commit,
        Conn.makeDurable, stillUncommitted, Conn.autocommit, hrc, Closed_iff]
    · simp [UnitRun.next, ScanWriter.writeFlush, ScanWriter.unitRelease, ScanWriter.run, Conn.commit,
        ScanWriter.loseBatch, hrc, Lost_iff, Conn.fail]
  · cases transOpen with
    | true =>
      by_cases hrc : (io.answers k).rc = 0 <;>
        simp [UnitRun.next, ScanWriter.writeFlush, ScanWriter.unitRelease, ScanWriter.run,
          Conn.commit, ScanWriter.loseBatch, hrc, Lost_iff, Conn.fail, Savepoint.ERROR]
    | false =>
      simp [UnitRun.next, ScanWriter.writeFlush, ScanWriter.unitRelease, stillUncommitted,
        Conn.autocommit, Closed_iff, hdurable rfl]

variable (io) in
/-- A statement of the unit takes effect, changes nothing, or ends the transaction. -/
theorem Open.write (h : r.Open) (f : σ → Option σ) :
    (r.next io (.write f)).Open ∧ (r.next io (.write f)).writer.asserted = r.writer.asserted := by
  rcases r with ⟨⟨⟨durable, superseded, trans⟩, transOpen, unitOpen, batchLost, asserted, k, reports⟩,
    inUnit, kept, writing, uncommitted⟩
  obtain ⟨hlost, hin, hunit, hopen, htrans⟩ := h
  simp only at hlost hin hunit hopen htrans
  subst hlost hin hunit hopen
  by_cases hrc : (io.answers k).rc = 0
  · rcases htrans with rfl | ⟨hdurable, opened, rfl, hopened⟩
    · cases hf : f durable <;>
        simp [UnitRun.next, ScanWriter.run, Conn.exec, Conn.view, Conn.makeDurable, hrc, hf, Open_iff]
    · cases hf : f writing <;>
        simp [UnitRun.next, ScanWriter.run, Conn.exec, Conn.view, hrc, hf, Open_iff,
          Savepoint.CONSTRAINT] <;>
        exact ⟨hdurable, hopened⟩
  · by_cases hback : (io.answers k).rollsBack = true
    · simp [UnitRun.next, ScanWriter.run, Conn.exec, Conn.fail, Conn.rollback, hrc, hback, Open_iff]
    · simpa [UnitRun.next, ScanWriter.run, Conn.exec, Conn.fail, hrc, hback, Open_iff] using htrans

variable (io) in
/-- Releasing the savepoint makes the unit's writes part of what is kept, or loses the batch. -/
theorem Open.release (h : r.Open) : (r.writer.unitRelease io).2.asserted = r.writer.asserted ∧
    ((r.writer.unitRelease io).1 = 0 ∧ (r.writer.unitRelease io).2.transOpen = true ∧
        Closed ⟨(r.writer.unitRelease io).2, false, r.writing, r.writing,
          stillUncommitted (r.writer.unitRelease io).2 (r.uncommitted + 1)⟩ ∨
      (r.writer.unitRelease io).1 ≠ 0 ∧
        Lost { r with writer := (r.writer.unitRelease io).2, inUnit := false }) := by
  rcases r with ⟨⟨⟨durable, superseded, trans⟩, transOpen, unitOpen, batchLost, asserted, k, reports⟩,
    inUnit, kept, writing, uncommitted⟩
  obtain ⟨hlost, hin, hunit, hopen, htrans⟩ := h
  simp only at hlost hin hunit hopen htrans
  subst hlost hin hunit hopen
  by_cases hrc : (io.answers k).rc = 0
  · rcases htrans with rfl | ⟨hdurable, opened, rfl, hopened⟩
    · simp [ScanWriter.unitRelease, ScanWriter.run, Conn.release, ScanWriter.loseBatch, hrc, Lost_iff,
        Savepoint.ERROR]
    · cases opened <;>
        simp [ScanWriter.unitRelease, ScanWriter.run, Conn.release, Conn.makeDurable,
          stillUncommitted, Conn.autocommit, hrc, Closed_iff]
  · simp [ScanWriter.unitRelease, ScanWriter.run, Conn.release, Conn.fail, ScanWriter.loseBatch, hrc,
      Lost_iff]

variable (io) in
/-- Committing after a unit, as `Closed.flushBatch` without the other fields. -/
theorem Closed.writeFlush {w : ScanWriter σ} {kept writing : σ} {n : ℕ}
    (h : Closed ⟨w, false, kept, writing, n⟩) (hopen : w.transOpen = true) :
    (w.writeFlush io).2.asserted = w.asserted ∧
      ((w.writeFlush io).1 = 0 ∧ (∀ m, Closed ⟨(w.writeFlush io).2, false, kept, kept,
          stillUncommitted (w.writeFlush io).2 m⟩) ∨
        (w.writeFlush io).1 ≠ 0 ∧ ∀ v x m, Lost ⟨(w.writeFlush io).2, false, v, x, m⟩) := by
  rcases w with ⟨⟨durable, superseded, trans⟩, transOpen, unitOpen, batchLost, asserted, k, reports⟩
  obtain ⟨hlost, -, hunit, hdurable, htrans⟩ := h
  simp only at hlost hunit hdurable htrans hopen
  subst hlost hunit hopen
  by_cases hrc : (io.answers k).rc = 0
  · rcases htrans with ⟨-, rfl⟩ | ⟨rfl, rfl⟩
    · simp [ScanWriter.writeFlush, ScanWriter.unitRelease, ScanWriter.run, Conn.commit,
        Conn.makeDurable, stillUncommitted, Conn.autocommit, hrc, Closed_iff]
    · simp [ScanWriter.writeFlush, ScanWriter.unitRelease, ScanWriter.run, Conn.commit,
        ScanWriter.loseBatch, hrc, Lost_iff, Savepoint.ERROR]
  · simp [ScanWriter.writeFlush, ScanWriter.unitRelease, ScanWriter.run, Conn.commit, Conn.fail,
      ScanWriter.loseBatch, hrc, Lost_iff]

variable (io) in
theorem Open.flush (h : r.Open) : (r.writer.writeFlush io).2.asserted = r.writer.asserted ∧
    ((r.writer.writeFlush io).1 = 0 ∧ Closed ⟨(r.writer.writeFlush io).2, false, r.writing, r.writing,
        stillUncommitted (r.writer.writeFlush io).2 (r.uncommitted + 1)⟩ ∨
      (r.writer.writeFlush io).1 ≠ 0 ∧
        Lost { r with writer := (r.writer.writeFlush io).2, inUnit := false }) := by
  obtain ⟨hasserted, ⟨hrc, hopen, hclosed⟩ | ⟨hrc, hlost⟩⟩ := h.release io
  · have heq : r.writer.writeFlush io = (r.writer.unitRelease io).2.writeFlush io := by
      have hunit : (r.writer.unitRelease io).2.unitOpen = false := hclosed.unit_closed
      simp [ScanWriter.writeFlush, ScanWriter.unitRelease_of_closed hunit, hrc, hopen]
    rw [heq]
    obtain ⟨hasserted', hend⟩ := hclosed.writeFlush io hopen
    refine ⟨hasserted'.trans hasserted, ?_⟩
    exact hend.imp (fun h => ⟨h.1, h.2 _⟩) fun h => ⟨h.1, h.2 _ _ _⟩
  · have heq : r.writer.writeFlush io = r.writer.unitRelease io := by
      simp [ScanWriter.writeFlush, hrc]
    rw [heq]
    exact ⟨hasserted, Or.inr ⟨hrc, hlost⟩⟩

variable (io) in
theorem Open.finish (h : r.Open) : (r.writer.writeEnd io).2.asserted = r.writer.asserted ∧
    ((r.writer.writeEnd io).1 = 0 ∧ Closed ⟨(r.writer.writeEnd io).2, false, r.writing, r.writing,
        stillUncommitted (r.writer.writeEnd io).2 (r.uncommitted + 1)⟩ ∨
      (r.writer.writeEnd io).1 ≠ 0 ∧
        Lost { r with writer := (r.writer.writeEnd io).2, inUnit := false }) := by
  obtain ⟨hasserted, ⟨hrc, hopen, hclosed⟩ | ⟨hrc, hlost⟩⟩ := h.release io
  · by_cases hdue : io.due (r.writer.unitRelease io).2.tick = true
    · have heq : r.writer.writeEnd io = r.writer.writeFlush io := by
        have hunit : (r.writer.unitRelease io).2.unitOpen = false := hclosed.unit_closed
        simp [ScanWriter.writeEnd, ScanWriter.writeFlush, ScanWriter.unitRelease_of_closed hunit, hrc,
          hopen, hdue]
      rw [heq]
      exact h.flush io
    · have heq : r.writer.writeEnd io = (0, (r.writer.unitRelease io).2) := by
        simp [ScanWriter.writeEnd, hrc, hdue]
      rw [heq]
      exact ⟨hasserted, Or.inl ⟨rfl, hclosed⟩⟩
  · have heq : r.writer.writeEnd io = r.writer.unitRelease io := by
      simp [ScanWriter.writeEnd, hrc]
    rw [heq]
    exact ⟨hasserted, Or.inr ⟨hrc, hlost⟩⟩

/-- An aborted unit takes only its own writes with it, or the batch is lost. -/
theorem Open.abort (h : r.Open) :
    ((r.next io (.close .abort)).Lost ∨ (r.next io (.close .abort)).Closed) ∧
      (r.next io (.close .abort)).writer.asserted = r.writer.asserted := by
  rcases r with ⟨⟨⟨durable, superseded, trans⟩, transOpen, unitOpen, batchLost, asserted, k, reports⟩,
    inUnit, kept, writing, uncommitted⟩
  obtain ⟨hlost, hin, hunit, hopen, htrans⟩ := h
  simp only at hlost hin hunit hopen htrans
  subst hlost hin hunit hopen
  by_cases hrc : (io.answers k).rc = 0
  · rcases htrans with rfl | ⟨hdurable, opened, rfl, hopened⟩
    · simp [UnitRun.next, closeUnit, ScanWriter.writeAbort, ScanWriter.run, Conn.rollbackTo,
        ScanWriter.loseBatch, hrc, Lost_iff, Savepoint.ERROR]
    · by_cases hrc' : (io.answers (k + 1)).rc = 0
      · cases opened with
        | true =>
          simp [UnitRun.next, closeUnit, ScanWriter.writeAbort, ScanWriter.run, Conn.rollbackTo,
            Conn.release, Conn.makeDurable, Conn.autocommit, ScanWriter.loseBatch, hrc, hrc', Lost_iff]
        | false =>
          simp [UnitRun.next, closeUnit, ScanWriter.writeAbort, ScanWriter.run, Conn.rollbackTo,
            Conn.release, Conn.autocommit, hrc, hrc', Closed_iff]
          exact Or.inr hdurable
      · simp [UnitRun.next, closeUnit, ScanWriter.writeAbort, ScanWriter.run, Conn.rollbackTo,
          Conn.release, Conn.fail, ScanWriter.loseBatch, hrc, hrc', Lost_iff]
  · simp [UnitRun.next, closeUnit, ScanWriter.writeAbort, ScanWriter.run, Conn.rollbackTo, Conn.fail,
      ScanWriter.loseBatch, hrc, Lost_iff]

variable (io) in
theorem Open.close (h : r.Open) (how : Closing) :
    ((r.next io (.close how)).Lost ∨ (r.next io (.close how)).Closed) ∧
      (r.next io (.close how)).writer.asserted = r.writer.asserted := by
  cases how with
  | finish =>
    obtain ⟨hasserted, ⟨hrc, hclosed⟩ | ⟨hrc, hlost⟩⟩ := h.finish io
    · simp only [UnitRun.next, closeUnit, hrc]
      exact ⟨Or.inr hclosed, hasserted⟩
    · simp only [UnitRun.next, closeUnit, hrc, or_true, not_false_eq_true, if_true, ne_eq]
      exact ⟨Or.inl hlost, hasserted⟩
  | flush =>
    obtain ⟨hasserted, ⟨hrc, hclosed⟩ | ⟨hrc, hlost⟩⟩ := h.flush io
    · simp only [UnitRun.next, closeUnit, hrc]
      exact ⟨Or.inr hclosed, hasserted⟩
    · simp only [UnitRun.next, closeUnit, hrc, or_true, not_false_eq_true, if_true, ne_eq]
      exact ⟨Or.inl hlost, hasserted⟩
  | abort => exact h.abort

theorem Inv.next (h : r.Inv) {call : UnitCall σ} (hallowed : r.Allowed call)
    (hok : r.SavepointKeepsUnits io call) : (r.next io call).Inv := by
  rcases h.phase with hlost | hclosed | hopen
  · obtain ⟨hlost', hasserted⟩ := hlost.next io hallowed
    exact ⟨hasserted.trans h.asserted, Or.inl hlost'⟩
  · cases call with
    | begin =>
      obtain ⟨hphase, hasserted⟩ := hclosed.begin hok
      exact ⟨hasserted.trans h.asserted, Or.inr hphase⟩
    | write f => simp [Allowed, hclosed.notInUnit] at hallowed
    | close how => simp [Allowed, hclosed.notInUnit] at hallowed
    | flushBatch =>
      obtain ⟨hphase, hasserted⟩ := hclosed.flushBatch io
      exact ⟨hasserted.trans h.asserted, hphase.imp_right Or.inl⟩
  · cases call with
    | begin => simp [Allowed, hopen.isInUnit] at hallowed
    | write f =>
      obtain ⟨hopen', hasserted⟩ := hopen.write io f
      exact ⟨hasserted.trans h.asserted, Or.inr (Or.inr hopen')⟩
    | close how =>
      obtain ⟨hphase, hasserted⟩ := hopen.close io how
      exact ⟨hasserted.trans h.asserted, hphase.imp_right Or.inl⟩
    | flushBatch => simp [Allowed, hopen.isInUnit] at hallowed

theorem Reaches.inv {content : σ} (h : Reaches io (SavepointKeepsUnits io) (opened content) r) :
    r.Inv := by
  induction h with
  | refl => exact opened_inv content
  | step _ call hallowed hok ih => exact ih.next hallowed hok

/-- In every sequence of units in which no failing savepoint takes ended units with it: the
assertion never fails, and unless the batch is marked lost, between units the writer sees exactly
the writes of the units that ended successfully, the ones that are not durable are in the open
transaction, and the savepoint of an open unit would bring all of them back. -/
theorem units_atomic (io : WriterIO) (content : σ) (r : UnitRun σ)
    (h : Reaches io (SavepointKeepsUnits io) (opened content) r) :
    r.writer.asserted = false ∧
      (r.writer.batchLost = false → r.inUnit = false → r.writer.view = r.kept ∧
        (r.uncommitted ≠ 0 → r.writer.conn.trans.isSome)) ∧
      (r.writer.batchLost = false → r.inUnit = true → r.writer.conn.trans.isSome →
        r.writer.view = r.writing ∧
          ∃ t, r.writer.conn.trans = some t ∧ t.savepoints = [r.kept]) := by
  have hinv := h.inv
  refine ⟨hinv.asserted, fun hkept hout => ?_, fun hkept hin hsome => ?_⟩
  · rcases hinv.phase with hlost | hclosed | hopen
    · simp [hlost.lost] at hkept
    · rcases hclosed.trans with ⟨-, htrans⟩ | ⟨htrans, hzero⟩
      · simp [ScanWriter.view, Conn.view, htrans]
      · simp [ScanWriter.view, Conn.view, htrans, hzero, hclosed.durable hzero]
    · simp [hopen.isInUnit] at hout
  · rcases hinv.phase with hlost | hclosed | hopen
    · simp [hlost.lost] at hkept
    · simp [hclosed.notInUnit] at hin
    · rcases hopen.trans with htrans | ⟨-, opened, htrans, -⟩
      · simp [htrans] at hsome
      · simp [ScanWriter.view, Conn.view, htrans]

end UnitRun

def quietIO : WriterIO := ⟨fun _ => .ok, fun _ => false⟩

/-- The seventh statement, the second write of the second unit, finds the disk full. -/
def secondUnitFails : WriterIO where
  answers n := if n = 6 then ⟨13, false⟩ else .ok
  due _ := false

def writeNumber (n : ℕ) : UnitCall (List ℕ) := .write fun l => some (l ++ [n])

/-- Three units in one transaction, of which the second is rolled back. -/
theorem units_atomic_secondUnitFails : ∃ r,
    UnitRun.Reaches secondUnitFails (UnitRun.SavepointKeepsUnits secondUnitFails)
      (UnitRun.opened []) r ∧ r.uncommitted = 2 ∧ r.writer.view = [1, 4] := by
  have hfirst : UnitRun.Reaches secondUnitFails (UnitRun.SavepointKeepsUnits secondUnitFails)
      (UnitRun.opened ([] : List ℕ)) _ := .step .refl .begin rfl (Or.inl rfl)
  have hfirst := (hfirst.step (writeNumber 1) rfl trivial).step (.close .finish) rfl trivial
  have hsecond := hfirst.step .begin rfl (Or.inr (Or.inl rfl))
  have hsecond := (hsecond.step (writeNumber 2) rfl trivial).step (writeNumber 3) rfl trivial
  have hsecond := hsecond.step (.close .abort) rfl trivial
  have hthird := hsecond.step .begin rfl (Or.inr (Or.inl rfl))
  have hthird := (hthird.step (writeNumber 4) rfl trivial).step (.close .finish) rfl trivial
  exact ⟨_, hthird, rfl, ((UnitRun.units_atomic _ [] _ hthird).2.1 rfl rfl).1⟩

/-- The fifth statement, the second unit's savepoint, fails for want of memory and takes the
transaction with it. -/
def savepointFails : WriterIO where
  answers n := if n = 4 then ⟨7, true⟩ else .ok
  due _ := false

/-- A savepoint that fails and takes an ended unit with it goes unnoticed: the next unit begins and
ends, the batch is not lost, and the first unit's write is gone. -/
theorem savepointFails_loses_unit : ¬ ∀ (io : WriterIO) (content : ℕ) (r : UnitRun ℕ),
    UnitRun.Reaches io (fun _ _ => True) (UnitRun.opened content) r →
    r.writer.batchLost = false → r.inUnit = false → r.writer.view = r.kept := by
  intro h
  have hbegin : UnitRun.Reaches savepointFails (fun _ _ => True) (UnitRun.opened 0) _ :=
    .step .refl .begin rfl trivial
  have hwrite := hbegin.step (.write fun _ => some 1) rfl trivial
  have hclose := hwrite.step (.close .finish) rfl trivial
  -- the second unit's savepoint fails, a third unit begins and ends
  have hfails := hclose.step .begin rfl trivial
  have hthird := (hfails.step .begin rfl trivial).step (.close .finish) rfl trivial
  exact absurd (h _ _ _ hthird rfl rfl) (by decide)

end Oans
