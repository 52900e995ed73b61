import Oans.PhaseConvergence

/-!
# Which groups a history of runs brings together

Between runs files appear, go and change; each dedupe phase gathers the groups of a prefix of its
windows and leaves the watermark at the end of that prefix. A group whose elected target lies
above the watermark is reloaded as a whole by the target's window. One whose target lies at or
below it must have its members at or below the watermark together already, since no later window
loads them again.
-/

namespace Oans

open IntervalCut Gather

structure DedupeWorld (δ σ : Type*) where
  table : FilesTable δ
  storage : ℤ → σ
  dedupeSeq : ℕ

variable {δ : Type*} [DecidableEq δ] {σ : Type*}

namespace DedupeWorld

def allUsable : ℤ → MemberState := opensIf fun _ => true

/-- Between two runs rows may go, and rows above the watermark may appear; a row at or below it
that is still there belongs to a file nobody has touched. -/
structure Change (u v : DedupeWorld δ σ) : Prop where
  dedupeSeq : v.dedupeSeq = u.dedupeSeq
  kept : ∀ f ∈ v.table.rows, f.dedupeSeq ≤ u.dedupeSeq →
    f ∈ u.table.rows ∧ v.storage f.id = u.storage f.id

structure Phase (ws : List (Window ℕ)) (n : ℕ) (u v : DedupeWorld δ σ) : Prop where
  cut : IsCut u.dedupeSeq ws u.table.getMaxDedupeSeq
  run : ∃ s, PhaseRun allUsable u.table u.storage u.dedupeSeq (ws.take n) s ∧ s.Complete ∧
    v.table = s.table ∧ v.storage = s.storage
  dedupeSeq : v.dedupeSeq = endOf u.dedupeSeq (ws.take n)

def Converged (u : DedupeWorld δ σ) : Prop :=
  ∀ k, ∀ f ∈ u.table.members k, ∀ f' ∈ u.table.members k, u.storage f.id = u.storage f'.id

def OldTogether (u : DedupeWorld δ σ) (k : δ × ℕ) : Prop :=
  ∀ f ∈ u.table.members k, f.dedupeSeq ≤ u.dedupeSeq →
    ∀ f' ∈ u.table.members k, f'.dedupeSeq ≤ u.dedupeSeq → u.storage f.id = u.storage f'.id

/-- A change takes no elected target above the watermark away from a group in favour of one at or
below it, while members at or below the watermark are apart. -/
def KeepsTargets (u v : DedupeWorld δ σ) : Prop :=
  ∀ k r r', u.table.IsElected k r → u.dedupeSeq < r.dedupeSeq → v.table.IsElected k r' →
    r'.dedupeSeq ≤ v.dedupeSeq → v.OldTogether k

/-- The invariant of a history: where the elected target is at or below the watermark, so no later
window reloads the old members, they are together. -/
def Settled (u : DedupeWorld δ σ) : Prop :=
  ∀ k r, u.table.IsElected k r → r.dedupeSeq ≤ u.dedupeSeq → u.OldTogether k

omit [DecidableEq δ] in
theorem isUsable_allUsable (e : ℤ) : isUsable allUsable e = true := by
  rw [allUsable, isUsable_opensIf]

theorem table_of_run {t : FilesTable δ} {storage : ℤ → σ} {firstSeq : ℕ} {ws : List (Window ℕ)}
    {s : WholeFilePhase δ σ} (hrun : PhaseRun allUsable t storage firstSeq ws s) : s.table = t := by
  refine (hrun.invariant (fun u => u.table = t) rfl fun u v _ hs hu => ?_).2
  cases hs with
  | drop b g e hb hg he hopen => exact absurd hopen (opensIf_ne_deleted _ _)
  | run before after gs gs' g =>
    exact (dedupeExtentList_table_eq _ _ _ fun e _ => opensIf_ne_deleted _ e).trans hu
  | _ => exact hu

variable {u v : DedupeWorld δ σ}

theorem Settled.change (h : u.Settled) (hc : Change u v) (hk : KeepsTargets u v) : v.Settled := by
  intro k r' hr' hle
  -- the members at or below the watermark were there before the change
  have hold : ∀ f ∈ v.table.members k, f.dedupeSeq ≤ v.dedupeSeq →
      f ∈ u.table.members k ∧ f.dedupeSeq ≤ u.dedupeSeq ∧ v.storage f.id = u.storage f.id := by
    intro f hf hfle
    rw [hc.dedupeSeq] at hfle
    obtain ⟨hrow, hrest⟩ := v.table.mem_members.mp hf
    obtain ⟨hrow, hstorage⟩ := hc.kept f hrow hfle
    exact ⟨u.table.mem_members.mpr ⟨hrow, hrest⟩, hfle, hstorage⟩
  obtain ⟨r, hr⟩ := u.table.exists_target (List.length_pos_of_mem (hold r' hr'.1 hle).1)
  rw [u.table.target_eq_some_iff] at hr
  by_cases habove : u.dedupeSeq < r.dedupeSeq
  · exact hk k r r' hr habove hr' hle
  · intro f hf hfle f' hf' hfle'
    obtain ⟨hfu, hfule, hfs⟩ := hold f hf hfle
    obtain ⟨hfu', hfule', hfs'⟩ := hold f' hf' hfle'
    rw [hfs, hfs']
    exact h k r hr (not_lt.mp habove) f hfu hfule f' hfu' hfule'

/-- A phase collects behind each target it reaches every member up to the new watermark. -/
theorem Settled.phase {ws : List (Window ℕ)} {n : ℕ} (h : u.Settled) (hp : Phase ws n u v) :
    v.Settled := by
  obtain ⟨hcut, ⟨s, hrun, hdone, htable, hstorage⟩, hseq⟩ := hp
  have htake := hcut.take n
  rw [table_of_run hrun] at htable
  intro k r hr hle
  rw [htable] at hr
  rw [hseq] at hle
  have hplace : ∀ f ∈ u.table.members k, f.dedupeSeq ≤ v.dedupeSeq →
      s.storage f.id = s.storage r.id := by
    intro f hf hfle
    rw [hseq] at hfle
    by_cases hdue : u.dedupeSeq < dueAt u.dedupeSeq r f
    · refine hrun.joins_target hdone htake.lo_ge hr (isUsable_allUsable _) hf (isUsable_allUsable _)
        (htake.exists_contains hdue ?_)
      unfold dueAt
      split <;> assumption
    · -- `f` and the target are both old, and no window moves either
      have hold : f.dedupeSeq ≤ u.dedupeSeq := by
        by_contra hnew
        rw [dueAt, if_pos (not_le.mp hnew)] at hdue
        exact hdue (not_le.mp hnew)
      have hrold : r.dedupeSeq ≤ u.dedupeSeq := by
        rw [dueAt, if_neg (not_lt.mpr hold)] at hdue
        exact not_lt.mp hdue
      rw [hrun.stays htake.lo_ge hr (isUsable_allUsable _) hf (isUsable_allUsable _)
          (Or.inr (htake.not_contains (not_lt.mp hdue))),
        hrun.stays htake.lo_ge hr (isUsable_allUsable _) hr.1 (isUsable_allUsable _) (Or.inl rfl)]
      exact h k r hr hrold f hf hold r hr.1 hrold
  intro f hf hfle f' hf' hfle'
  rw [htable] at hf hf'
  rw [hstorage, hplace f hf hfle, hplace f' hf' hfle']

theorem Settled.converged {ws : List (Window ℕ)} (h : u.Settled) (hp : Phase ws ws.length u v) :
    v.Converged := by
  have hsettled := h.phase hp
  obtain ⟨hcut, ⟨s, hrun, -, htable, -⟩, hseq⟩ := hp
  rw [List.take_length] at hseq
  have hbelow : ∀ k, ∀ f ∈ v.table.members k, f.dedupeSeq ≤ v.dedupeSeq := by
    intro k f hf
    rw [htable, table_of_run hrun] at hf
    rw [hseq]
    exact (u.table.dedupeSeq_le_max (u.table.mem_members.mp hf).1).trans hcut.le_of_end
  intro k f hf f' hf'
  obtain ⟨r, hr⟩ := v.table.exists_target (List.length_pos_of_mem hf)
  rw [v.table.target_eq_some_iff] at hr
  exact hsettled k r hr (hbelow k r hr.1) f hf (hbelow k f hf) f' hf' (hbelow k f' hf')

/-- Old members that are apart stay apart through a complete phase when the target is old too. -/
theorem not_converged_of_apart {ws : List (Window ℕ)} {k : δ × ℕ} {r : FileRow δ}
    (hr : u.table.IsElected k r) (hle : r.dedupeSeq ≤ u.dedupeSeq) (h : ¬u.OldTogether k)
    (hp : Phase ws ws.length u v) : ¬v.Converged := by
  obtain ⟨hcut, ⟨s, hrun, -, htable, hstorage⟩, -⟩ := hp
  rw [List.take_length] at hrun
  have hstay : ∀ f ∈ u.table.members k, f.dedupeSeq ≤ u.dedupeSeq →
      v.storage f.id = u.storage f.id := by
    intro f hf hfle
    rw [hstorage]
    refine hrun.stays hcut.lo_ge hr (isUsable_allUsable _) hf (isUsable_allUsable _)
      (Or.inr (hcut.not_contains ?_))
    rw [dueAt, if_neg (not_lt.mpr hfle)]
    exact hle
  intro hconv
  refine h fun f hf hfle f' hf' hfle' => ?_
  rw [← hstay f hf hfle, ← hstay f' hf' hfle']
  rw [← table_of_run hrun, ← htable] at hf hf'
  exact hconv k f hf f' hf'

inductive History (ok : DedupeWorld δ σ → DedupeWorld δ σ → Prop) : DedupeWorld δ σ → Prop
  /-- a new hashfile -/
  | start (u : DedupeWorld δ σ) (hempty : u.table.rows = []) : History ok u
  | change (u v : DedupeWorld δ σ) (hu : History ok u) (hc : Change u v) (hok : ok u v) :
      History ok v
  | phase (ws : List (Window ℕ)) (n : ℕ) (u v : DedupeWorld δ σ) (hu : History ok u)
      (hp : Phase ws n u v) : History ok v

theorem History.settled (h : History KeepsTargets u) : u.Settled := by
  induction h with
  | start u hempty =>
    intro k r hr
    have hrow := (u.table.mem_members.mp hr.1).1
    rw [hempty] at hrow
    simp at hrow
  | change u v _ hc hk ih => exact ih.change hc hk
  | phase ws n u v _ hp ih => exact ih.phase hp

/-- In every history whose changes keep the targets, a complete phase leaves every group in one
place; and a change that does not keep one leaves a group that a complete phase right after it
does not bring together. -/
theorem history_converges :
    (∀ (ws : List (Window ℕ)) (u v : DedupeWorld δ σ), History KeepsTargets u →
      Phase ws ws.length u v → v.Converged) ∧
    (∀ (ws : List (Window ℕ)) (u v w : DedupeWorld δ σ), Change u v → ¬KeepsTargets u v →
      Phase ws ws.length v w → ¬w.Converged) := by
  refine ⟨fun ws u v hu hp => hu.settled.converged hp, fun ws u v w _ hk hp => ?_⟩
  unfold KeepsTargets at hk
  push Not at hk
  obtain ⟨k, -, r', -, -, hr', hle, happart⟩ := hk
  exact not_converged_of_apart hr' hle happart hp

def after (u : DedupeWorld δ σ) (ws : List (Window ℕ)) : DedupeWorld δ σ where
  table := u.table
  storage := gatherAll (fun _ => true) (groupsOfWindows u.table u.dedupeSeq ws) u.storage
  dedupeSeq := endOf u.dedupeSeq ws

theorem phase_after (u : DedupeWorld δ σ) (ws : List (Window ℕ)) (n : ℕ)
    (hcut : IsCut u.dedupeSeq ws u.table.getMaxDedupeSeq) : Phase ws n u (u.after (ws.take n)) :=
  ⟨hcut, ⟨_, exists_run (fun _ => true) u.table u.storage u.dedupeSeq (ws.take n), ⟨rfl, rfl⟩, rfl,
    rfl⟩, rfl⟩

def rowA : FileRow ℕ := ⟨1, "a", 10, 1, some 7, some 0, 2⟩

def rowB : FileRow ℕ := ⟨2, "b", 10, 1, some 7, some 0, 2⟩

def rowC : FileRow ℕ := ⟨3, "c", 10, 2, some 7, some 0, 2⟩

def rowT : FileRow ℕ := ⟨4, "t", 10, 3, some 7, some 0, 1⟩

def afterFirstRun : DedupeWorld ℕ ℤ := (⟨⟨[rowA, rowB], by decide⟩, id, 0⟩ : DedupeWorld ℕ ℤ).after
  [⟨0, 1⟩]

/-- The second run stops after the window of `c`, which has moved onto `t`. -/
def afterSecondRun : DedupeWorld ℕ ℤ :=
  (⟨⟨[rowA, rowB, rowC, rowT], by decide⟩, afterFirstRun.storage, 1⟩ : DedupeWorld ℕ ℤ).after
    [⟨1, 2⟩]

def beforeThirdRun : DedupeWorld ℕ ℤ := ⟨⟨[rowA, rowB, rowC], by decide⟩, afterSecondRun.storage, 2⟩

/-- The third run completes and leaves `c` apart from `a` and `b`. -/
theorem deletedTarget_leaves_two_clusters :
    History (fun _ _ => True) beforeThirdRun ∧
      Phase [] 0 beforeThirdRun (beforeThirdRun.after []) ∧ ¬(beforeThirdRun.after []).Converged := by
  have hkept : ∀ u v : DedupeWorld ℕ ℤ, v.dedupeSeq = u.dedupeSeq →
      (∀ f ∈ v.table.rows, f.dedupeSeq ≤ u.dedupeSeq → f ∈ u.table.rows) →
      v.storage = u.storage → Change u v := fun u v hseq hrows hstorage =>
    ⟨hseq, fun f hf hle => ⟨hrows f hf hle, by rw [hstorage]⟩⟩
  have h : History (fun _ _ => True) (⟨⟨[], by simp⟩, id, 0⟩ : DedupeWorld ℕ ℤ) := .start _ rfl
  have h := h.change _ ⟨⟨[rowA, rowB], by decide⟩, id, 0⟩ (hkept _ _ rfl (by decide) rfl) trivial
  have h : History _ afterFirstRun := h.phase [⟨0, 1⟩] 1 _ _ (phase_after _ _ 1 (by decide))
  have h := h.change _ ⟨⟨[rowA, rowB, rowC, rowT], by decide⟩, afterFirstRun.storage, 1⟩
    (hkept _ _ rfl (by decide) rfl) trivial
  have h : History _ afterSecondRun :=
    h.phase [⟨1, 2⟩, ⟨2, 3⟩] 1 _ _ (phase_after _ _ 1 (by decide))
  have h := h.change _ beforeThirdRun (hkept _ _ rfl (by decide) rfl) trivial
  refine ⟨h, phase_after _ _ 0 (by decide), fun hconv => ?_⟩
  exact absurd (hconv (7, 10) rowA (by decide) rowC (by decide)) (by decide)

/-- A first run that completes brings `a` and `b` together. -/
theorem history_converges_afterFirstRun : afterFirstRun.storage 1 = afterFirstRun.storage 2 := by
  have h : History KeepsTargets (⟨⟨[], by simp⟩, id, 0⟩ : DedupeWorld ℕ ℤ) := .start _ rfl
  have h := h.change _ ⟨⟨[rowA, rowB], by decide⟩, id, 0⟩ ⟨rfl, by decide⟩ fun k r r' hr =>
    absurd hr.1 (by simp [FilesTable.members])
  exact history_converges.1 [⟨0, 1⟩] _ _ h (phase_after _ _ 1 (by decide)) (7, 10) rowA (by decide)
    rowB (by decide)

end DedupeWorld

end Oans
