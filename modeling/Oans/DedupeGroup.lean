import Oans.DedupePipeline
import Oans.DuplicateFiles
import Oans.Gather

/-!
# Running the whole-file groups of one dedupe phase

A worker opens the members of a group in list order; the first one it can use becomes the target
and the later ones are moved onto its storage. A member that is gone is dropped from the files
table, which may change what later windows elect. Loads and group runs of the two batches in
flight interleave.
-/

namespace Oans

open IntervalCut Gather

inductive MemberState
  | usable
  /-- `ENOENT` -/
  | deleted
  | unreadable
  | sizeChanged
  deriving DecidableEq, Repr

namespace FilesTable

variable {δ : Type*}

/-- `dbfile_remove_file`, which deletes by name: `UNIQUE(path_hash)` leaves one row to delete. -/
def removeFile (t : FilesTable δ) (id : ℤ) : FilesTable δ where
  rows := t.rows.filter fun r => r.id ≠ id
  ids_nodup := t.ids_nodup.sublist (List.filter_sublist.map _)

theorem mem_removeFile {t : FilesTable δ} {id : ℤ} {r : FileRow δ} :
    r ∈ (t.removeFile id).rows ↔ r ∈ t.rows ∧ r.id ≠ id := by
  simp [removeFile]

end FilesTable

structure GroupRun (δ σ : Type*) where
  table : FilesTable δ
  storage : ℤ → σ
  tgtExtent : Option ℤ

section Run

variable {δ σ : Type*}

/-- One turn of the loop in `dedupe_extent_list`. -/
def dedupeMember (opens : ℤ → MemberState) (st : GroupRun δ σ) (extent : ℤ) (last : Bool) :
    GroupRun δ σ :=
  match opens extent with
  | .deleted => { st with table := st.table.removeFile extent }
  | .unreadable | .sizeChanged => st
  | .usable =>
    match st.tgtExtent with
    | none => if last then st else { st with tgtExtent := some extent }
    | some tgt => { st with storage := Function.update st.storage extent (st.storage tgt) }

def dedupeExtentList (opens : ℤ → MemberState) : List ℤ → GroupRun δ σ → GroupRun δ σ
  | [], st => st
  | extent :: rest, st => dedupeExtentList opens rest (dedupeMember opens st extent rest.isEmpty)

def isUsable (opens : ℤ → MemberState) (e : ℤ) : Bool := decide (opens e = .usable)

/-- With a target, every usable member that is left moves onto it. -/
theorem dedupeExtentList_of_target (opens : ℤ → MemberState) (l : List ℤ) (st : GroupRun δ σ)
    {tgt : ℤ} (htgt : st.tgtExtent = some tgt) (hnot : tgt ∉ l) (x : ℤ) :
    (dedupeExtentList opens l st).storage x =
      if x ∈ l ∧ isUsable opens x = true then st.storage tgt else st.storage x := by
  induction l generalizing st with
  | nil => simp [dedupeExtentList]
  | cons e rest ih =>
    have hrest : tgt ∉ rest := fun h => hnot (List.mem_cons_of_mem _ h)
    have hne : tgt ≠ e := fun h => hnot (h ▸ List.mem_cons_self)
    unfold dedupeExtentList
    cases ho : opens e with
    | usable =>
      have hstep : dedupeMember opens st e rest.isEmpty =
          { st with storage := Function.update st.storage e (st.storage tgt) } := by
        simp [dedupeMember, ho, htgt]
      rw [hstep, ih { st with storage := Function.update st.storage e (st.storage tgt) } htgt hrest]
      by_cases hx : x = e
      · subst hx
        simp [ho, isUsable, Function.update_of_ne hne]
      · simp [hx, Function.update_of_ne hne]
    | _ =>
      have hstep : (dedupeMember opens st e rest.isEmpty).storage = st.storage ∧
          (dedupeMember opens st e rest.isEmpty).tgtExtent = some tgt := by
        simp [dedupeMember, ho, htgt]
      rw [ih _ hstep.2 hrest, hstep.1]
      by_cases hx : x = e
      · subst hx
        simp [ho, isUsable]
      · simp [hx]

theorem dedupeExtentList_storage (opens : ℤ → MemberState) (l : List ℤ) (hl : l.Nodup)
    (st : GroupRun δ σ) (htgt : st.tgtExtent = none) : (dedupeExtentList opens l st).storage =
      gather (isUsable opens) l st.storage := by
  induction l generalizing st with
  | nil => rfl
  | cons e rest ih =>
    rw [List.nodup_cons] at hl
    unfold dedupeExtentList
    cases ho : opens e with
    | usable =>
      have husable : isUsable opens e = true := by simp [ho, isUsable]
      have hfind : (e :: rest).find? (isUsable opens) = some e :=
        List.find?_cons_of_pos husable
      funext x
      cases rest with
      | nil =>
        -- the only usable member: nothing to move onto it
        have hstep : dedupeMember opens st e true = st := by simp [dedupeMember, ho, htgt]
        simp only [List.isEmpty_nil, hstep, dedupeExtentList]
        by_cases hx : x = e
        · rw [hx, gather_find hfind]
        · exact (gather_of_not_mem (by simp [hx])).symm
      | cons y ys =>
        have hstep : dedupeMember opens st e (y :: ys).isEmpty =
            { st with tgtExtent := some e } := by simp [dedupeMember, ho, htgt]
        rw [hstep, dedupeExtentList_of_target opens _ _ rfl hl.1]
        dsimp only
        by_cases hx : x = e
        · rw [hx, gather_find hfind, if_neg fun h => hl.1 h.1]
        · by_cases hmem : x ∈ y :: ys ∧ isUsable opens x = true
          · rw [if_pos hmem]
            exact (gather_of_find hfind (List.mem_cons_of_mem _ hmem.1) hmem.2).symm
          · rw [if_neg hmem]
            refine (gather_of_not_mem fun h => hmem ⟨?_, h.2⟩).symm
            exact (List.mem_cons.mp h.1).resolve_left hx
    | _ =>
      have hstep : (dedupeMember opens st e rest.isEmpty).storage = st.storage ∧
          (dedupeMember opens st e rest.isEmpty).tgtExtent = none := by
        simp [dedupeMember, ho, htgt]
      have hnot : isUsable opens e = false := by simp [ho, isUsable]
      rw [ih hl.2 _ hstep.2, hstep.1]
      funext x
      unfold gather
      rw [List.find?_cons_of_neg (by simp [hnot])]
      cases rest.find? (isUsable opens) with
      | none => rfl
      | some u =>
        by_cases hx : x = e
        · simp [hx, hnot]
        · simp [hx]

/-- Nothing but rows of deleted members leaves the table. -/
theorem mem_dedupeExtentList_table (opens : ℤ → MemberState) (l : List ℤ) (st : GroupRun δ σ)
    {r : FileRow δ} : r ∈ (dedupeExtentList opens l st).table.rows ↔
      r ∈ st.table.rows ∧ ¬(r.id ∈ l ∧ opens r.id = .deleted) := by
  induction l generalizing st with
  | nil => simp [dedupeExtentList]
  | cons e rest ih =>
    unfold dedupeExtentList
    rw [ih]
    have hstep : r ∈ (dedupeMember opens st e rest.isEmpty).table.rows ↔
        r ∈ st.table.rows ∧ ¬(r.id = e ∧ opens r.id = .deleted) := by
      unfold dedupeMember
      cases ho : opens e with
      | deleted =>
        simp only [FilesTable.mem_removeFile]
        refine and_congr_right fun _ => not_congr ⟨fun h => ⟨h, h ▸ ho⟩, fun h => h.1⟩
      | usable =>
        have hkeep : ¬(r.id = e ∧ opens r.id = .deleted) := fun h => by
          rw [h.1, ho] at h
          cases h.2
        dsimp only
        split
        · split_ifs <;> simp [hkeep]
        · simp [hkeep]
      | _ =>
        have hkeep : ¬(r.id = e ∧ opens r.id = .deleted) := fun h => by
          rw [h.1, ho] at h
          cases h.2
        simp [hkeep]
    rw [hstep, List.mem_cons]
    tauto

theorem dedupeExtentList_table_eq (opens : ℤ → MemberState) (l : List ℤ) (st : GroupRun δ σ)
    (h : ∀ e ∈ l, opens e ≠ .deleted) : (dedupeExtentList opens l st).table = st.table := by
  induction l generalizing st with
  | nil => rfl
  | cons e rest ih =>
    unfold dedupeExtentList
    rw [ih _ fun e' he' => h e' (List.mem_cons_of_mem _ he')]
    unfold dedupeMember
    have hne := h e List.mem_cons_self
    cases ho : opens e with
    | deleted => exact absurd ho hne
    | usable =>
      dsimp only
      split
      · split_ifs <;> rfl
      · rfl
    | _ => rfl

end Run

section Phase

variable {δ : Type*} [DecidableEq δ] {σ : Type*}

/-- The groups `push_results` hands to the workers, by their members. -/
def pushedGroups (res : ResultsTree δ) : List (List ℤ) :=
  (res.groups.filter fun g => 2 ≤ g.deNumDupes).map fun g => g.deExtents.map Extent.eFile

structure WholeFilePhase (δ σ : Type*) where
  table : FilesTable δ
  storage : ℤ → σ
  /-- the windows not loaded yet -/
  left : List (Window ℕ)
  /-- the batches in flight, each with its groups no worker has run -/
  inflight : List (List (List ℤ))

inductive PhaseStep (opens : ℤ → MemberState) (firstSeq : ℕ) (s : WholeFilePhase δ σ) :
    WholeFilePhase δ σ → Prop
  | load (recs : List Filerec) (w : Window ℕ) (ws : List (Window ℕ)) (hleft : s.left = w :: ws)
      (hslot : s.inflight.length < DEDUPE_MAX_INFLIGHT) :
      PhaseStep opens firstSeq s { s with
        left := ws
        inflight := s.inflight ++ [pushedGroups (loadedTree s.table recs w firstSeq)] }
  /-- the worker of a group in flight comes to a member that is gone -/
  | drop (b : List (List ℤ)) (g : List ℤ) (e : ℤ) (hb : b ∈ s.inflight) (hg : g ∈ b) (he : e ∈ g)
      (hopen : opens e = .deleted) :
      PhaseStep opens firstSeq s { s with table := s.table.removeFile e }
  | run (before after : List (List (List ℤ))) (gs gs' : List (List ℤ)) (g : List ℤ)
      (h : s.inflight = before ++ (gs ++ g :: gs') :: after) :
      PhaseStep opens firstSeq s { s with
        table := (dedupeExtentList opens g ⟨s.table, s.storage, none⟩).table
        storage := (dedupeExtentList opens g ⟨s.table, s.storage, none⟩).storage
        inflight := before ++ (gs ++ gs') :: after }
  | reap (rest : List (List (List ℤ))) (h : s.inflight = [] :: rest) :
      PhaseStep opens firstSeq s { s with inflight := rest }

def WholeFilePhase.Complete (s : WholeFilePhase δ σ) : Prop := s.left = [] ∧ s.inflight = []

theorem ResultsTree.deNumDupes_insertOneResult {res : ResultsTree δ}
    (h : ∀ g ∈ res.groups, g.deNumDupes = g.deExtents.length) (digest : δ) (file : ℤ)
    (startoff len poff : ℕ) : ∀ g ∈ (res.insertOneResult digest file startoff len poff).groups,
      g.deNumDupes = g.deExtents.length := by
  intro g hg
  obtain ⟨x, hx, rfl⟩ := List.mem_map.mp hg
  have hlen : x.deNumDupes = x.deExtents.length := by
    rcases ResultsTree.mem_groups_findAllocDext hx with hx | rfl
    · exact h x hx
    · rfl
  split
  · unfold DupeExtents.insertExtentListFree
    split
    · exact hlen
    · simp [hlen]
  · exact hlen

theorem deNumDupes_loadedTree {t : FilesTable δ} {recs : List Filerec} {w : Window ℕ} {phaseLo : ℕ} :
    ∀ g ∈ (loadedTree t recs w phaseLo).groups, g.deNumDupes = g.deExtents.length := by
  have hfold (l : List (LoadedFile δ)) (st : List Filerec × ResultsTree δ)
      (hst : ∀ g ∈ st.2.groups, g.deNumDupes = g.deExtents.length) :
      ∀ g ∈ (l.foldl loadSameFile st).2.groups, g.deNumDupes = g.deExtents.length := by
    induction l generalizing st with
    | nil => exact hst
    | cons y ys ih => exact ih _ (ResultsTree.deNumDupes_insertOneResult hst _ _ _ _ _)
  exact hfold _ (recs, .init) (by simp [ResultsTree.init])

theorem mem_pushedGroups {t : FilesTable δ} {recs : List Filerec} {w : Window ℕ} {phaseLo : ℕ}
    {g : List ℤ} : g ∈ pushedGroups (loadedTree t recs w phaseLo) ↔
      g ≠ [] ∧ ∃ k, loadedGroup t recs w phaseLo k = g := by
  unfold pushedGroups
  rw [List.mem_map]
  constructor
  · rintro ⟨x, hx, rfl⟩
    rw [List.mem_filter] at hx
    refine ⟨?_, (x.deHash, x.deLen), congrArg (List.map Extent.eFile)
      (ResultsTree.members_of_mem hx.1)⟩
    simpa using nonempty_of_mem_loadedTree hx.1
  · rintro ⟨hne, k, hk⟩
    obtain ⟨a, ha⟩ := List.exists_mem_of_ne_nil _ hne
    have htwo := one_lt_length_loadedGroup (hk ▸ ha : a ∈ loadedGroup t recs w phaseLo k)
    have hfind : ∃ x, (loadedTree t recs w phaseLo).findDupeExtents k.1 k.2 = some x := by
      cases hx : (loadedTree t recs w phaseLo).findDupeExtents k.1 k.2 with
      | some x => exact ⟨x, rfl⟩
      | none => simp [loadedGroup, ResultsTree.members, hx] at htwo
    obtain ⟨x, hx⟩ := hfind
    have hmem : x ∈ (loadedTree t recs w phaseLo).groups := List.mem_of_find?_eq_some hx
    have hg : x.deExtents.map Extent.eFile = g := by
      rw [← hk]
      simp [loadedGroup, ResultsTree.members, hx]
    refine ⟨x, List.mem_filter.mpr ⟨hmem, ?_⟩, hg⟩
    have hlen := congrArg List.length hg
    rw [hk, ← hlen, List.length_map] at htwo
    rw [decide_eq_true_eq, deNumDupes_loadedTree x hmem]
    exact htwo

end Phase

end Oans
