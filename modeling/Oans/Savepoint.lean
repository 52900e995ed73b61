import Mathlib.Tactic

/-!
# A transactional connection with savepoints

One connection to a store whose content is a value of any type. Outside a transaction a statement
takes effect at once; inside, the connection sees its own writes and a savepoint remembers the
content to go back to. Every statement is answered from outside: with code 0 it does what it
says, unless the content forbids it; with any other it changes nothing, and the store may roll the
whole transaction back by itself. Earlier durable contents are kept, newest first, since a process
that dies leaves behind whichever of them was durable at that moment.
-/

namespace Savepoint

structure Answer where
  rc : ℕ
  rollsBack : Bool
  deriving DecidableEq, Repr

def Answer.ok : Answer := ⟨0, false⟩

/-- "No such savepoint", "no transaction is active". -/
def ERROR : ℕ := 1

/-- A row that breaks a constraint of its table. -/
def CONSTRAINT : ℕ := 19

structure Trans (σ : Type*) where
  content : σ
  savepoints : List σ
  /-- opened by a savepoint, so released with it -/
  bySavepoint : Bool

structure Conn (σ : Type*) where
  durable : σ
  superseded : List σ
  trans : Option (Trans σ)

namespace Conn

variable {σ : Type*}

def autocommit (c : Conn σ) : Bool := c.trans.isNone

def view (c : Conn σ) : σ :=
  match c.trans with
  | some t => t.content
  | none => c.durable

def everDurable (c : Conn σ) : List σ := c.durable :: c.superseded

def rollback (c : Conn σ) : Conn σ := { c with trans := none }

def makeDurable (c : Conn σ) (s : σ) : Conn σ := ⟨s, c.durable :: c.superseded, none⟩

def fail (a : Answer) (c : Conn σ) : ℕ × Conn σ :=
  (a.rc, if a.rollsBack then c.rollback else c)

def exec (f : σ → Option σ) (a : Answer) (c : Conn σ) : ℕ × Conn σ :=
  if a.rc ≠ 0 then c.fail a
  else match f c.view with
    | none => (CONSTRAINT, c)
    | some s => match c.trans with
      | some t => (0, { c with trans := some { t with content := s } })
      | none => (0, c.makeDurable s)

def begin (a : Answer) (c : Conn σ) : ℕ × Conn σ :=
  if a.rc ≠ 0 then c.fail a
  else match c.trans with
    | some _ => (ERROR, c)
    | none => (0, { c with trans := some ⟨c.durable, [], false⟩ })

def savepoint (a : Answer) (c : Conn σ) : ℕ × Conn σ :=
  if a.rc ≠ 0 then c.fail a
  else match c.trans with
    | some t => (0, { c with trans := some { t with savepoints := t.content :: t.savepoints } })
    | none => (0, { c with trans := some ⟨c.durable, [c.durable], true⟩ })

def release (a : Answer) (c : Conn σ) : ℕ × Conn σ :=
  if a.rc ≠ 0 then c.fail a
  else match c.trans with
    | some ⟨s, _ :: rest, opened⟩ =>
      if opened = true ∧ rest = [] then (0, c.makeDurable s)
      else (0, { c with trans := some ⟨s, rest, opened⟩ })
    | _ => (ERROR, c)

def rollbackTo (a : Answer) (c : Conn σ) : ℕ × Conn σ :=
  if a.rc ≠ 0 then c.fail a
  else match c.trans with
    | some ⟨_, s :: rest, opened⟩ => (0, { c with trans := some ⟨s, s :: rest, opened⟩ })
    | _ => (ERROR, c)

def commit (a : Answer) (c : Conn σ) : ℕ × Conn σ :=
  if a.rc ≠ 0 then c.fail a
  else match c.trans with
    | some t => (0, c.makeDurable t.content)
    | none => (ERROR, c)

structure Holds (P : σ → Prop) (c : Conn σ) : Prop where
  everDurable : ∀ s ∈ c.everDurable, P s
  content : ∀ t, c.trans = some t → P t.content
  savepoints : ∀ t, c.trans = some t → ∀ s ∈ t.savepoints, P s

variable {P : σ → Prop} {c : Conn σ}

theorem Holds.durable (h : c.Holds P) : P c.durable := h.everDurable _ (by simp [Conn.everDurable])

theorem Holds.view (h : c.Holds P) : P c.view := by
  unfold Conn.view
  cases ht : c.trans with
  | none => exact h.durable
  | some t => exact h.content t ht

theorem Holds.rollback (h : c.Holds P) : c.rollback.Holds P :=
  ⟨h.everDurable, by simp [Conn.rollback], by simp [Conn.rollback]⟩

theorem Holds.makeDurable (h : c.Holds P) {s : σ} (hs : P s) : (c.makeDurable s).Holds P := by
  refine ⟨fun r hr => ?_, by simp [Conn.makeDurable], by simp [Conn.makeDurable]⟩
  rcases List.mem_cons.mp hr with rfl | hr
  · exact hs
  · exact h.everDurable r hr

theorem Holds.inTrans (h : c.Holds P) {t : Trans σ} (hcontent : P t.content)
    (hsavepoints : ∀ s ∈ t.savepoints, P s) : Holds P { c with trans := some t } :=
  ⟨h.everDurable, fun _ ht => Option.some.inj ht ▸ hcontent,
    fun _ ht => Option.some.inj ht ▸ hsavepoints⟩

theorem Holds.fail (h : c.Holds P) (a : Answer) : (c.fail a).2.Holds P := by
  unfold Conn.fail
  split_ifs
  · exact h.rollback
  · exact h

theorem Holds.exec (h : c.Holds P) {f : σ → Option σ} (hf : ∀ s s', P s → f s = some s' → P s')
    (a : Answer) : (c.exec f a).2.Holds P := by
  unfold Conn.exec
  split_ifs
  · exact h.fail a
  · cases hs : f c.view with
    | none => exact h
    | some s =>
      have hP := hf _ _ h.view hs
      cases ht : c.trans with
      | none => exact h.makeDurable hP
      | some t => exact h.inTrans hP (h.savepoints t ht)

theorem Holds.begin (h : c.Holds P) (a : Answer) : (c.begin a).2.Holds P := by
  unfold Conn.begin
  split_ifs
  · exact h.fail a
  · split
    · exact h
    · exact h.inTrans h.durable (by simp)

theorem Holds.savepoint (h : c.Holds P) (a : Answer) : (c.savepoint a).2.Holds P := by
  unfold Conn.savepoint
  split_ifs
  · exact h.fail a
  · cases ht : c.trans with
    | some t =>
      have hcontent := h.content t ht
      exact h.inTrans hcontent fun s hs => by
        rcases List.mem_cons.mp hs with rfl | hs
        · exact hcontent
        · exact h.savepoints t ht s hs
    | none => exact h.inTrans h.durable (by simpa using h.durable)

theorem Holds.release (h : c.Holds P) (a : Answer) : (c.release a).2.Holds P := by
  unfold Conn.release
  split_ifs
  · exact h.fail a
  · split
    · rename_i ht
      have hcontent := h.content _ ht
      have hsaved := h.savepoints _ ht
      split_ifs
      · exact h.makeDurable hcontent
      · exact h.inTrans hcontent fun r hr => hsaved r (List.mem_cons_of_mem _ hr)
    · exact h

theorem Holds.rollbackTo (h : c.Holds P) (a : Answer) : (c.rollbackTo a).2.Holds P := by
  unfold Conn.rollbackTo
  split_ifs
  · exact h.fail a
  · split
    · rename_i ht
      have hsaved := h.savepoints _ ht
      exact h.inTrans (hsaved _ List.mem_cons_self) hsaved
    · exact h

theorem Holds.commit (h : c.Holds P) (a : Answer) : (c.commit a).2.Holds P := by
  unfold Conn.commit
  split_ifs
  · exact h.fail a
  · split
    · rename_i t ht
      exact h.makeDurable (h.content t ht)
    · exact h

end Conn

end Savepoint
