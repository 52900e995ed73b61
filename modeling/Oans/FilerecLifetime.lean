import Oans.FilerecHeap

/-!
# Filerecs live as long as a batch needs them

Between a load and its push a batch's new groups are protected by nothing but the order of the
producer's steps: no reference is dropped while a batch is open, and the sweep runs when both trees
of the batch hold theirs.
-/

namespace Oans

open RefHeap

namespace RecStage

def isOpen : RecStage → Bool
  | loading _ | loadingBlocks | search _ | freeBlocks | holding _ | pushing _ | freeUnreferenced
  | sealBatch => true
  | _ => false

/-- The open batch holds references for its whole-file groups. -/
def filesHeld : RecStage → Bool
  | loading .files | holding .files => false
  | _ => true

def extentsHeld : RecStage → Bool
  | pushing .extents | freeUnreferenced | sealBatch => true
  | stage => !stage.isOpen

def hasBlocks : RecStage → Bool
  | loadingBlocks | search _ | freeBlocks => true
  | _ => false

/-- References of a reaped batch not yet given back. -/
def dropping : RecStage → List ℕ
  | putting rest _ => rest
  | _ => []

def toSearch : RecStage → List ℕ
  | search rest => rest
  | _ => []

def searches : RecStage → Bool
  | search _ => true
  | _ => false

/-- Nothing has been loaded into the extents tree of the open batch. -/
def beforeExtents : RecStage → Bool
  | loading .files | holding .files | pushing .files => true
  | _ => false

def follows (a b : RecStage) : Bool :=
  a.isOpen == b.isOpen && a.filesHeld == b.filesHeld && a.extentsHeld == b.extentsHeld &&
    a.dropping.isEmpty && b.dropping.isEmpty && b.toSearch.isEmpty && decide (b ≠ .crashed) &&
    (!a.hasBlocks || b.hasBlocks) && (!a.searches || b.searches)

end RecStage

def RecState.heldRefs (s : RecState) : List ℕ :=
  s.stage.dropping ++ (s.openBatch.toList ++ s.inflight).flatMap RecBatch.held

def RecState.ExtentsLater (s : RecState) : Prop :=
  s.stage.beforeExtents = true →
    ∀ b, s.openBatch = some b → ∀ a, a ∉ b.resExtents.flatMap RecGroup.files

structure RecInv (s : RecState) : Prop where
  balanced : Balanced s.heap s.heldRefs s.hashTree
  inflight_held : ∀ b ∈ s.inflight, ∀ a ∈ b.reachable, a ∈ b.held
  open_files : ∀ b, s.openBatch = some b → ∀ a ∈ b.resFiles.flatMap RecGroup.files,
    if s.stage.filesHeld then a ∈ b.held else s.heap.Live a
  open_extents : ∀ b, s.openBatch = some b → ∀ a ∈ b.resExtents.flatMap RecGroup.files,
    if s.stage.extentsHeld then a ∈ b.held else s.heap.Live a
  open_stage : s.openBatch.isSome = s.stage.isOpen
  searching : s.searching ≠ 0 → s.stage.searches = true
  blocks : s.hashTree ≠ [] → s.stage.hasBlocks = true
  search_live : ∀ a ∈ s.stage.toSearch, s.heap.Live a
  no_crash : s.stage ≠ .crashed

theorem RecInv.init : RecInv .init where
  balanced := balanced_empty
  inflight_held b hb := by simp [RecState.init] at hb
  open_files b hb := by simp [RecState.init] at hb
  open_extents b hb := by simp [RecState.init] at hb
  open_stage := rfl
  searching h := absurd rfl h
  blocks h := absurd rfl h
  search_live a ha := by simp [RecState.init, RecStage.toSearch] at ha
  no_crash := by simp [RecState.init]

/-- A step of the producer that changes nothing but where it is. -/
theorem RecInv.moveTo {s : RecState} (h : RecInv s) (stage : RecStage)
    (hopen : stage.isOpen = s.stage.isOpen) (hfiles : stage.filesHeld = s.stage.filesHeld)
    (hextents : stage.extentsHeld = s.stage.extentsHeld)
    (hdrop : stage.dropping = s.stage.dropping)
    (hblocks : s.stage.hasBlocks = true → stage.hasBlocks = true ∨ s.hashTree = [])
    (hsearches : s.stage.searches = true → stage.searches = true ∨ s.searching = 0)
    (hsearch : ∀ a ∈ stage.toSearch, s.heap.Live a) (hcrash : stage ≠ .crashed) :
    RecInv { s with stage := stage } where
  balanced := by
    have := h.balanced
    rwa [RecState.heldRefs, ← hdrop] at this
  inflight_held := h.inflight_held
  open_files := by
    rw [hfiles]
    exact h.open_files
  open_extents := by
    rw [hextents]
    exact h.open_extents
  open_stage := h.open_stage.trans hopen.symm
  searching hne := (hsearches (h.searching hne)).resolve_right hne
  blocks hne := (hblocks (h.blocks hne)).resolve_right hne
  search_live := hsearch
  no_crash := hcrash

theorem RecInv.follow {s : RecState} (h : RecInv s) {stage stage' : RecStage}
    (hst : s.stage = stage) (hfollows : stage.follows stage' = true) :
    RecInv { s with stage := stage' } := by
  subst hst
  simp only [RecStage.follows, Bool.and_eq_true, beq_iff_eq, List.isEmpty_iff, decide_eq_true_eq,
    Bool.or_eq_true, Bool.not_eq_true'] at hfollows
  obtain ⟨⟨⟨⟨⟨⟨⟨⟨hopen, hfiles⟩, hextents⟩, hdrop⟩, hdrop'⟩, hsearch⟩, hcrash⟩, hblocks⟩, hsearches⟩ :=
    hfollows
  refine h.moveTo stage' hopen.symm hfiles.symm hextents.symm (hdrop'.trans hdrop.symm)
    (fun hb => Or.inl ?_) (fun hb => Or.inl ?_) (by simp [hsearch]) hcrash
  · simpa [hb] using hblocks
  · simpa [hb] using hsearches

theorem InsertResult.mem {file : ℕ} {res res' : List RecGroup} (h : InsertResult file res res')
    {a : ℕ} (ha : a ∈ res'.flatMap RecGroup.files) :
    a = file ∨ a ∈ res.flatMap RecGroup.files := by
  cases h with
  | new res => simpa [or_comm] using ha
  | append before after g =>
    simp only [List.flatMap_append, List.flatMap_cons, List.mem_append, List.mem_singleton] at ha ⊢
    tauto
  | known res => exact Or.inr ha

theorem RecBatch.mem_setTree (b : RecBatch) (t : Tree) (res : List RecGroup) :
    (b.setTree t res).resFiles = (if t = .files then res else b.resFiles) ∧
      (b.setTree t res).resExtents = (if t = .extents then res else b.resExtents) ∧
      (b.setTree t res).held = b.held := by
  cases t <;> exact ⟨rfl, rfl, rfl⟩

theorem RecWorkerStep.shrinks {b b' : RecBatch} (h : RecWorkerStep b b') : b'.held = b.held ∧
    (∀ a ∈ b'.resFiles.flatMap RecGroup.files, a ∈ b.resFiles.flatMap RecGroup.files) ∧
    ∀ a ∈ b'.resExtents.flatMap RecGroup.files, a ∈ b.resExtents.flatMap RecGroup.files := by
  cases h with
  | clean t before after g files htree hpool hsub =>
    have hmem := hsub.subset
    cases t <;> simp only [RecBatch.tree] at htree <;>
      simp only [RecBatch.setTree, htree, List.flatMap_append, List.flatMap_cons, List.mem_append]
    · exact ⟨trivial, fun a ha => by have := @hmem a; tauto, fun a ha => ha⟩
    · exact ⟨trivial, fun a ha => ha, fun a ha => by have := @hmem a; tauto⟩
  | finish t before after g htree hpool =>
    cases t <;> simp only [RecBatch.tree] at htree <;>
      simp only [RecBatch.setTree, htree, List.flatMap_append, List.flatMap_cons]
    · exact ⟨trivial, fun a ha => ha, fun a ha => ha⟩
    · exact ⟨trivial, fun a ha => ha, fun a ha => ha⟩

theorem FilerecHeap.findOrNew_spec {h : FilerecHeap} {held pinned : List ℕ} (hb : Balanced h held pinned)
    (fileid : ℤ) : ∃ h' file, h.findOrNew fileid = some (h', file) ∧ Balanced h' held pinned ∧
      h'.Live file ∧ ∀ a, h.Live a → h'.Live a := by
  unfold findOrNew filerecFind filerecNew
  cases hfind : h.find fileid with
  | some file => exact ⟨h, file, rfl, hb, hb.live_of_find hfind, fun a ha => ha⟩
  | none =>
    obtain ⟨h', halloc, hb', hlive⟩ := hb.alloc hfind
    refine ⟨h', h.next, by rw [halloc]; rfl, hb', (hlive _).mpr (Or.inr rfl), fun a ha => ?_⟩
    exact (hlive a).mpr (Or.inl ha)

section Steps

variable {s : RecState} (h : RecInv s)

include h

theorem RecInv.openBatch_eq_none (hst : s.stage.isOpen = false) : s.openBatch = none := by
  have := h.open_stage
  rw [hst] at this
  exact Option.not_isSome_iff_eq_none.mp (by simp [this])

theorem RecInv.hashTree_eq_nil (hst : s.stage.hasBlocks = false) : s.hashTree = [] := by
  by_contra hne
  have := h.blocks hne
  simp [hst] at this

theorem RecInv.searching_eq_zero (hst : s.stage.searches = false) : s.searching = 0 := by
  by_contra hne
  have := h.searching hne
  simp [hst] at this

/-- A batch is reaped only while none is open and no search runs. -/
theorem RecInv.reapFront {k : AfterReap} {b : RecBatch} {rest : List RecBatch}
    (hst : s.stage = .reap k) (hfront : s.inflight = b :: rest) :
    RecInv (if s.searching ≠ 0 ∨ s.openBatch.isSome then { s with stage := .crashed }
      else { s with stage := .putting b.held k, inflight := rest }) := by
  have hopen := h.openBatch_eq_none (by rw [hst]; rfl)
  have hidle := h.searching_eq_zero (by rw [hst]; rfl)
  rw [if_neg (by simp [hopen, hidle])]
  have hb := h.balanced
  rw [RecState.heldRefs, hst, hfront, hopen] at hb
  exact {
    balanced := by simpa [RecState.heldRefs, RecStage.dropping, hopen] using hb
    inflight_held := fun b' hb' => h.inflight_held b' (by rw [hfront]; exact List.mem_cons_of_mem _ hb')
    open_files := fun b' hb' => by simp [hopen] at hb'
    open_extents := fun b' hb' => by simp [hopen] at hb'
    open_stage := by simp [hopen, RecStage.isOpen]
    searching := fun hne => absurd hidle hne
    blocks := fun hne => absurd (h.hashTree_eq_nil (by rw [hst]; rfl)) hne
    search_live := fun a ha => by simp [RecStage.toSearch] at ha
    no_crash := by simp }

theorem RecInv.put {file : ℕ} {rest : List ℕ} {k : AfterReap}
    (hst : s.stage = .putting (file :: rest) k) :
    RecInv (s.andThen (s.heap.filerecPut file) fun heap =>
      { s with heap := heap, stage := .putting rest k }) := by
  have hopen := h.openBatch_eq_none (by rw [hst]; rfl)
  have hblocks := h.hashTree_eq_nil (by rw [hst]; rfl)
  have hb := h.balanced
  rw [RecState.heldRefs, hst] at hb
  obtain ⟨heap, hput, hb', hlive⟩ := Balanced.put hb (by rw [hblocks]; exact List.not_mem_nil)
  rw [FilerecHeap.filerecPut, hput, RecState.andThen_some]
  exact {
    balanced := hb'
    inflight_held := h.inflight_held
    open_files := fun b' hb' => by simp [hopen] at hb'
    open_extents := fun b' hb' => by simp [hopen] at hb'
    open_stage := by simp [hopen, RecStage.isOpen]
    searching := fun hne => absurd (h.searching_eq_zero (by rw [hst]; rfl)) hne
    blocks := fun hne => absurd hblocks hne
    search_live := fun a ha => by simp [RecStage.toSearch] at ha
    no_crash := by simp }

/-- Finding or making a record keeps everything, in any stage. -/
theorem RecInv.withHeap {heap : FilerecHeap} (hb : Balanced heap s.heldRefs s.hashTree)
    (hlive : ∀ a, s.heap.Live a → heap.Live a) : RecInv { s with heap := heap } where
  balanced := hb
  inflight_held := h.inflight_held
  open_files b hb a ha := by
    have := h.open_files b hb a ha
    dsimp only
    split_ifs at this ⊢
    · exact this
    · exact hlive a this
  open_extents b hb a ha := by
    have := h.open_extents b hb a ha
    dsimp only
    split_ifs at this ⊢
    · exact this
    · exact hlive a this
  open_stage := h.open_stage
  searching := h.searching
  blocks := h.blocks
  search_live a ha := hlive a (h.search_live a ha)
  no_crash := h.no_crash

/-- A change of the open batch that takes no reference and adds to its trees only what is held or,
while a tree is not held yet, what is live. -/
theorem RecInv.withBatch {b b' : RecBatch} (hopen : s.openBatch = some b) (hheld : b'.held = b.held)
    (hfiles : ∀ a ∈ b'.resFiles.flatMap RecGroup.files, a ∈ b.resFiles.flatMap RecGroup.files ∨
      s.stage.filesHeld = false ∧ s.heap.Live a)
    (hextents : ∀ a ∈ b'.resExtents.flatMap RecGroup.files,
      a ∈ b.resExtents.flatMap RecGroup.files ∨ s.stage.extentsHeld = false ∧ s.heap.Live a) :
    RecInv { s with openBatch := some b' } where
  balanced := by
    have := h.balanced
    rw [RecState.heldRefs, hopen] at this
    simpa [RecState.heldRefs, hheld] using this
  inflight_held := h.inflight_held
  open_files b₁ hb₁ a ha := by
    obtain rfl := Option.some.inj hb₁
    rw [hheld]
    rcases hfiles a ha with hmem | ⟨hst, hlive⟩
    · exact h.open_files b hopen a hmem
    · rw [if_neg (by simp [hst])]
      exact hlive
  open_extents b₁ hb₁ a ha := by
    obtain rfl := Option.some.inj hb₁
    rw [hheld]
    rcases hextents a ha with hmem | ⟨hst, hlive⟩
    · exact h.open_extents b hopen a hmem
    · rw [if_neg (by simp [hst])]
      exact hlive
  open_stage := by
    rw [← h.open_stage, hopen]
    rfl
  searching := h.searching
  blocks := h.blocks
  search_live := h.search_live
  no_crash := h.no_crash

/-- `push_results` finds every record its tree points at, and holds it from then on. -/
theorem RecInv.hold {t : Tree} {b : RecBatch} (hst : s.stage = .holding t)
    (hopen : s.openBatch = some b) :
    RecInv (s.andThen (((b.tree t).flatMap RecGroup.files).foldlM FilerecHeap.filerecGet s.heap)
      fun heap => { s with
        heap := heap
        stage := .pushing t
        openBatch := some { b with held := b.held ++ (b.tree t).flatMap RecGroup.files } }) := by
  have hl : ∀ a ∈ (b.tree t).flatMap RecGroup.files, s.heap.Live a := by
    intro a ha
    cases t with
    | files => simpa [hst, RecStage.filesHeld] using h.open_files b hopen a ha
    | extents =>
      simpa [hst, RecStage.extentsHeld, RecStage.isOpen] using h.open_extents b hopen a ha
  obtain ⟨heap, hfold, hb, hlive⟩ := h.balanced.foldlM_get hl
  have hblocks := h.hashTree_eq_nil (by rw [hst]; rfl)
  rw [show FilerecHeap.filerecGet = Heap.get from rfl, hfold, RecState.andThen_some]
  exact {
    balanced := by
      refine hb.perm ?_
      simp only [RecState.heldRefs, hst, hopen, RecStage.dropping, Option.toList_some,
        List.nil_append, List.singleton_append, List.flatMap_cons]
      rw [← List.append_assoc]
      exact List.perm_append_comm.append_right _
    inflight_held := h.inflight_held
    open_files := fun b₁ hb₁ a ha => by
      obtain rfl := Option.some.inj hb₁
      have := h.open_files b hopen a ha
      cases t with
      | files => simpa [RecStage.filesHeld, RecBatch.tree] using Or.inr (List.mem_flatMap.mp ha)
      | extents =>
        have hheld : a ∈ b.held := by simpa [hst, RecStage.filesHeld] using this
        simpa [RecStage.filesHeld] using Or.inl hheld
    open_extents := fun b₁ hb₁ a ha => by
      obtain rfl := Option.some.inj hb₁
      have := h.open_extents b hopen a ha
      cases t with
      | files =>
        have hal : s.heap.Live a := by simpa [hst, RecStage.extentsHeld, RecStage.isOpen] using this
        simpa [RecStage.extentsHeld, RecStage.isOpen] using (hlive a).mpr hal
      | extents =>
        simpa [RecStage.extentsHeld, RecBatch.tree] using Or.inr (List.mem_flatMap.mp ha)
    open_stage := rfl
    searching := fun hne => absurd (h.searching_eq_zero (by rw [hst]; rfl)) hne
    blocks := fun hne => absurd hblocks hne
    search_live := fun a ha => by simp [RecStage.toSearch] at ha
    no_crash := by simp }

/-- The sweep runs when both trees of the open batch hold their records. -/
theorem RecInv.sweep (hst : s.stage = .freeUnreferenced) :
    RecInv (s.andThen s.heap.filerecFreeUnreferenced fun heap =>
      { s with heap := heap, stage := .sealBatch }) := by
  have hblocks := h.hashTree_eq_nil (by rw [hst]; rfl)
  have hb := h.balanced
  rw [hblocks] at hb
  obtain ⟨heap, hsweep, hb', -⟩ := hb.sweep
  rw [FilerecHeap.filerecFreeUnreferenced, hsweep, RecState.andThen_some]
  exact {
    balanced := by
      rw [RecState.heldRefs, hst] at hb'
      simpa [RecState.heldRefs, RecStage.dropping, hblocks] using hb'
    inflight_held := h.inflight_held
    open_files := fun b hopen a ha => by
      simpa [hst, RecStage.filesHeld] using h.open_files b hopen a ha
    open_extents := fun b hopen a ha => by
      simpa [hst, RecStage.extentsHeld] using h.open_extents b hopen a ha
    open_stage := by simpa [hst, RecStage.isOpen] using h.open_stage
    searching := fun hne => absurd (h.searching_eq_zero (by rw [hst]; rfl)) hne
    blocks := fun hne => absurd hblocks hne
    search_live := fun a ha => by simp [RecStage.toSearch] at ha
    no_crash := by simp }

theorem RecInv.sealBatch {b : RecBatch} (hst : s.stage = .sealBatch) (hopen : s.openBatch = some b) :
    RecInv { s with
      stage := .reap .sealed
      openBatch := none
      inflight := s.inflight ++ [{ b with fullyPushed := true }] } := by
  have hblocks := h.hashTree_eq_nil (by rw [hst]; rfl)
  have hb := h.balanced
  rw [RecState.heldRefs, hst, hopen] at hb
  exact {
    balanced := by
      refine hb.perm ?_
      simp only [RecState.heldRefs, RecStage.dropping, Option.toList_some, Option.toList_none,
        List.nil_append, List.flatMap_append, List.flatMap_singleton]
      exact List.perm_append_comm
    inflight_held := fun b' hb' a ha => by
      rcases List.mem_append.mp hb' with hb' | hb'
      · exact h.inflight_held b' hb' a ha
      · obtain rfl := List.mem_singleton.mp hb'
        rcases List.mem_append.mp ha with ha | ha
        · simpa [hst, RecStage.filesHeld] using h.open_files b hopen a ha
        · simpa [hst, RecStage.extentsHeld] using h.open_extents b hopen a ha
    open_files := fun b' hb' => by simp at hb'
    open_extents := fun b' hb' => by simp at hb'
    open_stage := rfl
    searching := fun hne => absurd (h.searching_eq_zero (by rw [hst]; rfl)) hne
    blocks := fun hne => absurd hblocks hne
    search_live := fun a ha => by simp [RecStage.toSearch] at ha
    no_crash := by simp }

theorem RecInv.beginBatch (hst : s.stage = .beginBatch) :
    RecInv { s with stage := .loading .files, openBatch := some .begin } := by
  have hopen := h.openBatch_eq_none (by rw [hst]; rfl)
  have hblocks := h.hashTree_eq_nil (by rw [hst]; rfl)
  have hb := h.balanced
  rw [RecState.heldRefs, hst, hopen] at hb
  exact {
    balanced := by simpa [RecState.heldRefs, RecStage.dropping, RecBatch.begin] using hb
    inflight_held := h.inflight_held
    open_files := fun b' hb' a ha => by
      obtain rfl := Option.some.inj hb'
      simp [RecBatch.begin] at ha
    open_extents := fun b' hb' a ha => by
      obtain rfl := Option.some.inj hb'
      simp [RecBatch.begin] at ha
    open_stage := rfl
    searching := fun hne => absurd (h.searching_eq_zero (by rw [hst]; rfl)) hne
    blocks := fun hne => absurd hblocks hne
    search_live := fun a ha => by simp [RecStage.toSearch] at ha
    no_crash := by simp }

theorem RecInv.workerSealed {b b' : RecBatch} {before after : List RecBatch}
    (hinflight : s.inflight = before ++ b :: after) (hw : RecWorkerStep b b') :
    RecInv { s with inflight := before ++ b' :: after } where
  balanced := by
    have := h.balanced
    simp only [RecState.heldRefs, hinflight, List.flatMap_append, List.flatMap_cons] at this
    simpa [RecState.heldRefs, hw.shrinks.1] using this
  inflight_held b₁ hb₁ a ha := by
    rcases List.mem_append.mp hb₁ with hb₁ | hb₁
    · exact h.inflight_held b₁ (by rw [hinflight]; exact List.mem_append_left _ hb₁) a ha
    rcases List.mem_cons.mp hb₁ with rfl | hb₁
    · obtain ⟨hheld, hfiles, hextents⟩ := hw.shrinks
      rw [hheld]
      refine h.inflight_held b (by rw [hinflight]; exact List.mem_append_right _ List.mem_cons_self) a ?_
      rcases List.mem_append.mp ha with ha | ha
      · exact List.mem_append_left _ (hfiles a ha)
      · exact List.mem_append_right _ (hextents a ha)
    · refine h.inflight_held b₁ ?_ a ha
      rw [hinflight]
      exact List.mem_append_right _ (List.mem_cons_of_mem _ hb₁)
  open_files := h.open_files
  open_extents := h.open_extents
  open_stage := h.open_stage
  searching := h.searching
  blocks := h.blocks
  search_live := h.search_live
  no_crash := h.no_crash

/-- A loader's row leaves a live record in a heap with the same references out. -/
theorem RecInv.findOrNew {fileid : ℤ} {heap : FilerecHeap} {file : ℕ}
    (hfind : s.heap.findOrNew fileid = some (heap, file)) :
    Balanced heap s.heldRefs s.hashTree ∧ heap.Live file ∧ ∀ a, s.heap.Live a → heap.Live a := by
  obtain ⟨heap', file', heq, hb, hfile, hlive⟩ :=
    FilerecHeap.findOrNew_spec h.balanced fileid
  rw [hfind] at heq
  obtain ⟨rfl, rfl⟩ := Prod.mk.inj (Option.some.inj heq)
  exact ⟨hb, hfile, hlive⟩

theorem RecInv.loadRow {t : Tree} {b : RecBatch} {fileid : ℤ} {heap : FilerecHeap} {file : ℕ}
    {res : List RecGroup} (hst : s.stage = .loading t) (hopen : s.openBatch = some b)
    (hfind : s.heap.findOrNew fileid = some (heap, file))
    (hins : InsertResult file (b.tree t) res) :
    RecInv { s with heap := heap, openBatch := some (b.setTree t res) } := by
  obtain ⟨hb, hfile, hlive⟩ := h.findOrNew hfind
  have hinv := h.withHeap hb hlive
  obtain ⟨hf, he, hheld⟩ := RecBatch.mem_setTree b t res
  refine hinv.withBatch hopen hheld (fun a ha => ?_) fun a ha => ?_
  · rw [hf] at ha
    split_ifs at ha with ht
    · subst ht
      rcases hins.mem ha with rfl | hmem
      · exact Or.inr ⟨by rw [hst]; rfl, hfile⟩
      · exact Or.inl hmem
    · exact Or.inl ha
  · rw [he] at ha
    split_ifs at ha with ht
    · subst ht
      rcases hins.mem ha with rfl | hmem
      · exact Or.inr ⟨by rw [hst]; rfl, hfile⟩
      · exact Or.inl hmem
    · exact Or.inl ha

theorem RecInv.blockRow {fileid : ℤ} {heap : FilerecHeap} {file : ℕ} (hst : s.stage = .loadingBlocks)
    (hfind : s.heap.findOrNew fileid = some (heap, file)) :
    RecInv (s.andThen (heap.insertBlockIntoFilerec file) fun heap' =>
      { s with heap := heap', hashTree := file :: s.hashTree }) := by
  obtain ⟨hb, hfile, hlive⟩ := h.findOrNew hfind
  obtain ⟨heap', hpin, hb', hlive'⟩ := hb.pin hfile
  rw [FilerecHeap.insertBlockIntoFilerec, hpin, RecState.andThen_some]
  have hinv := h.withHeap hb hlive
  exact {
    balanced := hb'
    inflight_held := h.inflight_held
    open_files := fun b hopen a ha => by
      simpa [hst, RecStage.filesHeld] using h.open_files b hopen a ha
    open_extents := fun b hopen a ha => by
      have := hinv.open_extents b hopen a ha
      simp only [hst, RecStage.extentsHeld, RecStage.isOpen] at this ⊢
      exact (hlive' a).mpr this
    open_stage := h.open_stage
    searching := h.searching
    blocks := fun _ => by simp [hst, RecStage.hasBlocks]
    search_live := fun a ha => by simp [hst, RecStage.toSearch] at ha
    no_crash := h.no_crash }

theorem RecInv.freeBlock {file : ℕ} {rest : List ℕ} (hst : s.stage = .freeBlocks)
    (htree : s.hashTree = file :: rest) :
    RecInv (s.andThen (s.heap.removeHashedBlock file) fun heap =>
      { s with heap := heap, hashTree := rest }) := by
  have hb := h.balanced
  rw [htree] at hb
  obtain ⟨heap, hunpin, hb', hlive⟩ := hb.unpin
  rw [FilerecHeap.removeHashedBlock, hunpin, RecState.andThen_some]
  exact {
    balanced := hb'
    inflight_held := h.inflight_held
    open_files := fun b hopen a ha => by
      simpa [hst, RecStage.filesHeld] using h.open_files b hopen a ha
    open_extents := fun b hopen a ha => by
      have := h.open_extents b hopen a ha
      simp only [hst, RecStage.extentsHeld, RecStage.isOpen] at this ⊢
      exact (hlive a).mpr this
    open_stage := h.open_stage
    searching := h.searching
    blocks := fun _ => by simp [hst, RecStage.hasBlocks]
    search_live := fun a ha => by simp [hst, RecStage.toSearch] at ha
    no_crash := h.no_crash }

/-- Without the second phase the extents tree is empty, so there is nothing in it to hold. -/
theorem RecInv.sealFiles (hst : s.stage = .pushing .files) (hlater : s.ExtentsLater) :
    RecInv { s with stage := .sealBatch } where
  balanced := by
    have := h.balanced
    rwa [RecState.heldRefs, hst] at this
  inflight_held := h.inflight_held
  open_files b hopen a ha := by simpa [hst, RecStage.filesHeld] using h.open_files b hopen a ha
  open_extents b hopen a ha := absurd ha (hlater (by rw [hst]; rfl) b hopen a)
  open_stage := by simpa [hst, RecStage.isOpen] using h.open_stage
  searching hne := absurd (h.searching_eq_zero (by rw [hst]; rfl)) hne
  blocks hne := absurd (h.hashTree_eq_nil (by rw [hst]; rfl)) hne
  search_live a ha := by simp [RecStage.toSearch] at ha
  no_crash := by simp

/-- The search goes through the global list, whose records are live, and starts and ends workers. -/
theorem RecInv.searchStep {rest rest' : List ℕ} (hst : s.stage = .search rest)
    (hsub : ∀ a ∈ rest', a ∈ rest) (n : ℕ) :
    RecInv { s with stage := .search rest', searching := n } where
  balanced := by
    have := h.balanced
    rwa [RecState.heldRefs, hst] at this
  inflight_held := h.inflight_held
  open_files b hopen a ha := by simpa [hst, RecStage.filesHeld] using h.open_files b hopen a ha
  open_extents b hopen a ha := by
    simpa [hst, RecStage.extentsHeld, RecStage.isOpen] using h.open_extents b hopen a ha
  open_stage := by simpa [hst, RecStage.isOpen] using h.open_stage
  searching _ := rfl
  blocks _ := rfl
  search_live a ha := h.search_live a (by rw [hst]; exact hsub a ha)
  no_crash := by simp

end Steps

theorem RecInv.searchMatch {s : RecState} (h : RecInv s) {b : RecBatch} {file : ℕ} {rest : List ℕ}
    {res : List RecGroup} (hst : s.stage = .search rest) (hopen : s.openBatch = some b)
    (hblock : file ∈ s.hashTree) (hins : InsertResult file b.resExtents res) :
    RecInv { s with openBatch := some { b with resExtents := res } } := by
  refine h.withBatch hopen rfl (fun a ha => Or.inl ha) fun a ha => ?_
  rcases hins.mem ha with rfl | hmem
  · exact Or.inr ⟨by rw [hst]; rfl, h.balanced.pinned_live _ hblock⟩
  · exact Or.inl hmem

theorem RecState.andThen_later {s : RecState} {r : Option FilerecHeap}
    {next : FilerecHeap → RecState} (h : ∀ heap, (next heap).ExtentsLater) :
    (s.andThen r next).ExtentsLater := by
  cases r with
  | none => intro hst; simp [RecState.andThen, RecStage.beforeExtents] at hst
  | some heap => exact h heap

/-- Only the second load of a batch, the search and the workers of its second push touch the
extents tree. -/
theorem RecStep.extentsLater {opts : LoadOptions} {s s' : RecState} (hs : RecStep opts s s')
    (h : s.ExtentsLater) : s'.ExtentsLater := by
  -- a step that leads out of the first load and push promises nothing
  have hout : ∀ {t : RecState}, t.stage.beforeExtents = false → t.ExtentsLater :=
    fun hf ht => absurd ht (by simp [hf])
  cases hs with
  | nextWindow hst => exact hout rfl
  | lastWindow hst => exact hout rfl
  | reapFront k b rest hst hfront hready =>
    refine hout ?_
    split_ifs <;> rfl
  | put file rest k hst => exact RecState.andThen_later fun heap => hout rfl
  | putDone k hst => exact hout rfl
  | slotFree hst hfront hslot =>
    refine hout ?_
    dsimp only
    split_ifs <;> rfl
  | drained hst hnone => exact hout rfl
  | reapedSealed hst hfront => exact hout rfl
  | phaseEnded hst hnone => exact hout rfl
  | beginBatch hst =>
    intro _ b hb a
    obtain rfl := Option.some.inj hb
    simp [RecBatch.begin]
  | loadRow t b fileid heap file res hst hopen hfind hins =>
    cases t with
    | extents => exact hout (by rw [show RecState.stage _ = s.stage from rfl, hst]; rfl)
    | files =>
      intro hb b' hb' a
      obtain rfl := Option.some.inj hb'
      exact h hb b hopen a
  | rowAsserts fileid hst hfind => exact hout rfl
  | loadedFiles hst => exact fun _ b hb a => h (by rw [hst]; rfl) b hb a
  | loadedExtents hst =>
    refine hout ?_
    dsimp only
    split_ifs <;> rfl
  | blockRow fileid heap file hst hfind =>
    refine RecState.andThen_later fun heap => hout ?_
    rw [show RecState.stage _ = s.stage from rfl, hst]
    rfl
  | blockRowFailed fileid heap file hst hfind => exact hout rfl
  | blocksFailed hst => exact hout rfl
  | blocksLoaded hst => exact hout rfl
  | searchFile file rest hst =>
    refine hout ?_
    split <;> rfl
  | searchSkipEmpty file rest hst => exact hout rfl
  | searchNoMemory rest hst => exact hout rfl
  | searchMatch b file rest res hst hrunning hopen hblock hins =>
    exact hout (by rw [show RecState.stage _ = s.stage from rfl, hst]; rfl)
  | searchDone rest hst hrunning =>
    exact hout (by rw [show RecState.stage _ = s.stage from rfl, hst]; rfl)
  | searchIdle hst hidle => exact hout rfl
  | freeBlock file rest hst htree =>
    refine RecState.andThen_later fun heap => hout ?_
    rw [show RecState.stage _ = s.stage from rfl, hst]
    rfl
  | blocksFreed hst htree => exact hout rfl
  | hold t b hst hopen =>
    refine RecState.andThen_later fun heap => ?_
    cases t with
    | extents => exact hout rfl
    | files =>
      intro _ b' hb' a
      obtain rfl := Option.some.inj hb'
      exact h (by rw [hst]; rfl) b hopen a
  | push t b before after g hst hopen htree hidle hmembers =>
    cases t with
    | extents => exact hout (by rw [show RecState.stage _ = s.stage from rfl, hst]; rfl)
    | files =>
      intro hb b' hb' a
      obtain rfl := Option.some.inj hb'
      exact h hb b hopen a
  | pushedFiles hst hall =>
    refine hout ?_
    dsimp only
    split_ifs <;> rfl
  | pushedExtents hst hall =>
    refine hout ?_
    dsimp only
    split_ifs <;> rfl
  | sweep hst => exact RecState.andThen_later fun heap => hout rfl
  | sealBatch b hst hopen => exact hout rfl
  | workerOpen b b' hopen hw =>
    intro hb b₁ hb₁ a ha
    obtain rfl := Option.some.inj hb₁
    exact h hb b hopen a (hw.shrinks.2.2 a ha)
  | workerSealed b b' before after hinflight hw => exact h

theorem RecStep.inv {opts : LoadOptions} {s s' : RecState} (hs : RecStep opts s s') (h : RecInv s)
    (hlater : s.ExtentsLater) : RecInv s' := by
  cases hs with
  | nextWindow hst => exact h.follow hst rfl
  | lastWindow hst => exact h.follow hst rfl
  | reapFront k b rest hst hfront hready => exact h.reapFront hst hfront
  | put file rest k hst => exact h.put hst
  | putDone k hst => exact h.follow hst rfl
  | slotFree hst hfront hslot =>
    split_ifs
    · exact h.follow hst rfl
    · exact h.follow hst rfl
  | drained hst hnone => exact h.follow hst rfl
  | reapedSealed hst hfront => exact h.follow hst rfl
  | phaseEnded hst hnone => exact h.follow hst rfl
  | beginBatch hst => exact h.beginBatch hst
  | loadRow t b fileid heap file res hst hopen hfind hins => exact h.loadRow hst hopen hfind hins
  | rowAsserts fileid hst hfind =>
    -- a file id that is not found is new
    obtain ⟨heap, file, heq, -⟩ := FilerecHeap.findOrNew_spec h.balanced fileid
    rw [hfind] at heq
    cases heq
  | loadedFiles hst => exact h.follow hst rfl
  | loadedExtents hst =>
    split_ifs
    · exact h.follow hst rfl
    · exact h.follow hst rfl
  | blockRow fileid heap file hst hfind => exact h.blockRow hst hfind
  | blockRowFailed fileid heap file hst hfind =>
    obtain ⟨hb, -, hlive⟩ := h.findOrNew hfind
    exact (h.withHeap hb hlive).follow hst rfl
  | blocksFailed hst => exact h.follow hst rfl
  | blocksLoaded hst =>
    refine h.moveTo _ ?_ ?_ ?_ ?_ (fun _ => Or.inl rfl) (fun _ => Or.inl rfl)
      (fun a ha => (h.balanced.mem_registry a).mp ha) (by simp) <;> rw [hst] <;> rfl
  | searchFile file rest hst =>
    have hlive := h.search_live file (by rw [hst]; exact List.mem_cons_self)
    obtain ⟨c, hc⟩ := Option.isSome_iff_exists.mp hlive
    rw [hc]
    exact h.searchStep hst (fun a ha => List.mem_cons_of_mem _ ha) _
  | searchSkipEmpty file rest hst =>
    exact h.searchStep hst (fun a ha => List.mem_cons_of_mem _ ha) s.searching
  | searchNoMemory rest hst => exact h.searchStep hst (fun a ha => by simp at ha) s.searching
  | searchMatch b file rest res hst hrunning hopen hblock hins =>
    exact h.searchMatch hst hopen hblock hins
  | searchDone rest hst hrunning =>
    have := h.searchStep hst (fun a ha => ha) (s.searching - 1)
    rwa [← hst] at this
  | searchIdle hst hidle =>
    refine h.moveTo _ ?_ ?_ ?_ ?_ (fun _ => Or.inl rfl) (fun _ => Or.inr hidle) ?_ (by simp) <;>
      simp [hst, RecStage.isOpen, RecStage.filesHeld, RecStage.extentsHeld, RecStage.dropping,
        RecStage.toSearch]
  | freeBlock file rest hst htree => exact h.freeBlock hst htree
  | blocksFreed hst htree =>
    refine h.moveTo _ ?_ ?_ ?_ ?_ (fun _ => Or.inr htree) ?_ ?_ (by simp) <;>
      simp [hst, RecStage.isOpen, RecStage.filesHeld, RecStage.extentsHeld, RecStage.dropping,
        RecStage.toSearch, RecStage.searches]
  | hold t b hst hopen => exact h.hold hst hopen
  | push t b before after g hst hopen htree hidle hmembers =>
    have hfiles : (before ++ { g with state := GroupState.inPool } :: after).flatMap RecGroup.files =
        (b.tree t).flatMap RecGroup.files := by simp [htree]
    cases t with
    | files => exact h.withBatch hopen rfl (fun a ha => Or.inl (hfiles ▸ ha)) fun a ha => Or.inl ha
    | extents => exact h.withBatch hopen rfl (fun a ha => Or.inl ha) fun a ha => Or.inl (hfiles ▸ ha)
  | pushedFiles hst hall =>
    split_ifs
    · exact h.sealFiles hst hlater
    · exact h.follow hst rfl
  | pushedExtents hst hall =>
    split_ifs
    · exact h.follow hst rfl
    · exact h.follow hst rfl
  | sweep hst => exact h.sweep hst
  | sealBatch b hst hopen => exact h.sealBatch hst hopen
  | workerOpen b b' hopen hw =>
    obtain ⟨hheld, hfiles, hextents⟩ := hw.shrinks
    exact h.withBatch hopen hheld (fun a ha => Or.inl (hfiles a ha)) fun a ha => Or.inl (hextents a ha)
  | workerSealed b b' before after hinflight hw => exact h.workerSealed hinflight hw

theorem RecReachable.inv {opts : LoadOptions} {s : RecState} (h : RecReachable opts s) :
    RecInv s ∧ s.ExtentsLater := by
  induction h with
  | refl => exact ⟨.init, fun hst => by simp [RecState.init, RecStage.beforeExtents] at hst⟩
  | tail _ hstep ih => exact ⟨hstep.inv ih.1 ih.2, hstep.extentsLater ih.2⟩

/-- Whatever a batch of the phase points at is allocated, sealed or open. -/
theorem RecInv.reachable_live {s : RecState} (h : RecInv s) {b : RecBatch}
    (hb : b ∈ s.openBatch.toList ++ s.inflight) {a : ℕ} (ha : a ∈ b.reachable) : s.heap.Live a := by
  have hheld : ∀ {a}, a ∈ b.held → s.heap.Live a := fun {a} hmem =>
    h.balanced.held_live a (List.mem_append_right _ (List.mem_flatMap.mpr ⟨b, hb, hmem⟩))
  rcases List.mem_append.mp hb with hb | hb
  · have hopen : s.openBatch = some b := Option.mem_toList.mp hb
    rcases List.mem_append.mp ha with ha | ha
    · have := h.open_files b hopen a ha
      split_ifs at this
      · exact hheld this
      · exact this
    · have := h.open_extents b hopen a ha
      split_ifs at this
      · exact hheld this
      · exact this
  · exact hheld (h.inflight_held b hb a ha)

/-- Whatever the order of the steps of the producer and the workers, no assertion fires, what the
batches point at is allocated, a file id leads to the one record allocated for it and no record is
freed twice. -/
theorem filerec_lifetime (opts : LoadOptions) (s : RecState) (h : RecReachable opts s) :
    s.stage ≠ .crashed ∧
      (∀ b ∈ s.openBatch.toList ++ s.inflight, ∀ a ∈ b.reachable, s.heap.Live a) ∧
      (∀ a c, s.heap.cells a = some c → s.heap.filerecFind c.key = some a) ∧
      s.heap.freed.Nodup := by
  have hinv := h.inv.1
  exact ⟨hinv.no_crash, fun b hb a ha => hinv.reachable_live hb ha,
    fun a c hc => hinv.balanced.find_key hc, hinv.balanced.freed_nodup⟩

theorem RecState.not_frontReady_cons {s : RecState} {b : RecBatch} {rest : List RecBatch}
    (hinflight : s.inflight = b :: rest) (hready : b.ready = false) : ¬ s.FrontReady := by
  rintro ⟨b', rest', hfront, hready'⟩
  obtain ⟨rfl, rfl⟩ := List.cons.inj (hinflight.symm.trans hfront)
  simp [hready] at hready'

theorem RecState.not_frontReady_nil {s : RecState} (hinflight : s.inflight = []) :
    ¬ s.FrontReady := by
  rintro ⟨b, rest, hfront, -⟩
  simp [hinflight] at hfront

theorem RecState.allPushed_of_eq {s : RecState} {t : Tree} {b : RecBatch}
    (hopen : s.openBatch = some b) (h : (b.tree t).all fun g => decide (g.state ≠ .idle)) :
    s.allPushed t := by
  intro b' hb' g hg hidle
  obtain rfl := Option.some.inj (hopen.symm.trans hb')
  simpa [hidle] using List.all_eq_true.mp h g hg

/-- Two windows of whole files: the second holds one record of the first, which is reaped while the
second is in flight. -/
theorem recReachable_sharedRecord : ∃ s, RecReachable ⟨true, false⟩ s ∧
    s.stage = .putting [] .sealed ∧
    s.inflight = [⟨[⟨[0, 2], .inPool⟩], [], [0, 2], 1, true⟩] ∧ s.heap.freed = [1] := by
  have h : RecReachable ⟨true, false⟩ { RecState.init with stage := .reap .awaitSlot } :=
    Relation.ReflTransGen.single (.nextWindow rfl)
  have h := h.tail (.slotFree rfl (RecState.not_frontReady_nil rfl) (by decide))
  have h := h.tail (.beginBatch rfl)
  have h := h.tail (.loadRow .files _ 7 _ 0 [⟨[0], .idle⟩] rfl rfl rfl (.new []))
  have h := h.tail (.loadRow .files _ 8 _ 1 [⟨[0, 1], .idle⟩] rfl rfl rfl
    (.append [] [] ⟨[0], .idle⟩))
  have h := h.tail (.loadedFiles rfl)
  have h := h.tail (.hold .files _ rfl rfl)
  have h := h.tail (.push .files _ [] [] ⟨[0, 1], .idle⟩ rfl rfl rfl rfl le_rfl)
  have h := h.tail (.pushedFiles rfl (RecState.allPushed_of_eq rfl rfl))
  have h := h.tail (.sealBatch _ rfl rfl)
  have h := h.tail (.reapedSealed rfl (RecState.not_frontReady_cons rfl rfl))
  have h := h.tail (.nextWindow rfl)
  have h := h.tail (.slotFree rfl (RecState.not_frontReady_cons rfl rfl) (by decide))
  have h := h.tail (.beginBatch rfl)
  have h := h.tail (.loadRow .files _ 7 _ 0 [⟨[0], .idle⟩] rfl rfl rfl (.new []))
  have h := h.tail (.loadRow .files _ 9 _ 2 [⟨[0, 2], .idle⟩] rfl rfl rfl
    (.append [] [] ⟨[0], .idle⟩))
  have h := h.tail (.loadedFiles rfl)
  have h := h.tail (.hold .files _ rfl rfl)
  have h := h.tail (.push .files _ [] [] ⟨[0, 2], .idle⟩ rfl rfl rfl rfl le_rfl)
  have h := h.tail (.workerSealed _ _ [] [] rfl (.finish _ .files [] [] ⟨[0, 1], .inPool⟩ rfl rfl))
  have h := h.tail (.pushedFiles rfl (RecState.allPushed_of_eq rfl rfl))
  have h := h.tail (.sealBatch _ rfl rfl)
  have h := h.tail (.reapFront .sealed _ _ rfl rfl rfl)
  have h := h.tail (.put 0 [1] .sealed rfl)
  have h := h.tail (.put 1 [] .sealed rfl)
  exact ⟨_, h, rfl, rfl, rfl⟩

/-- A window with the search: of the records that were made for blocks alone, the one the search
found is held by the time of the sweep, and the other is freed. -/
theorem recReachable_swept : ∃ s, RecReachable ⟨false, true⟩ s ∧ s.stage = .reap .sealed ∧
    s.inflight = [⟨[⟨[0, 1], .inPool⟩], [⟨[0, 2], .inPool⟩], [0, 1, 0, 2], 2, true⟩] ∧
    s.heap.freed = [3] := by
  have h : RecReachable ⟨false, true⟩ { RecState.init with stage := .reap .awaitSlot } :=
    Relation.ReflTransGen.single (.nextWindow rfl)
  have h := h.tail (.slotFree rfl (RecState.not_frontReady_nil rfl) (by decide))
  have h := h.tail (.drained rfl rfl)
  have h := h.tail (.beginBatch rfl)
  have h := h.tail (.loadRow .files _ 7 _ 0 [⟨[0], .idle⟩] rfl rfl rfl (.new []))
  have h := h.tail (.loadRow .files _ 8 _ 1 [⟨[0, 1], .idle⟩] rfl rfl rfl
    (.append [] [] ⟨[0], .idle⟩))
  have h := h.tail (.loadedFiles rfl)
  have h := h.tail (.hold .files _ rfl rfl)
  have h := h.tail (.push .files _ [] [] ⟨[0, 1], .idle⟩ rfl rfl rfl rfl le_rfl)
  have h := h.tail (.pushedFiles rfl (RecState.allPushed_of_eq rfl rfl))
  have h := h.tail (.loadedExtents rfl)
  have h := h.tail (.blockRow 7 _ 0 rfl rfl)
  have h := h.tail (.blockRow 9 _ 2 rfl rfl)
  have h := h.tail (.blockRow 10 _ 3 rfl rfl)
  have h := h.tail (.blocksLoaded rfl)
  have h := h.tail (.searchFile 3 [2, 1, 0] rfl)
  have h := h.tail (.searchMatch _ 0 [2, 1, 0] [⟨[0], .idle⟩] rfl (by decide) rfl (by decide)
    (.new []))
  have h := h.tail (.searchMatch _ 2 [2, 1, 0] [⟨[0, 2], .idle⟩] rfl (by decide) rfl (by decide)
    (.append [] [] ⟨[0], .idle⟩))
  have h := h.tail (.searchNoMemory [2, 1, 0] rfl)
  have h := h.tail (.searchDone [] rfl (by decide))
  have h := h.tail (.searchIdle rfl rfl)
  have h := h.tail (.freeBlock 3 [2, 0] rfl rfl)
  have h := h.tail (.freeBlock 2 [0] rfl rfl)
  have h := h.tail (.freeBlock 0 [] rfl rfl)
  have h := h.tail (.blocksFreed rfl rfl)
  have h := h.tail (.hold .extents _ rfl rfl)
  have h := h.tail (.push .extents _ [] [] ⟨[0, 2], .idle⟩ rfl rfl rfl rfl le_rfl)
  have h := h.tail (.pushedExtents rfl (RecState.allPushed_of_eq rfl rfl))
  have h := h.tail (.sweep rfl)
  have h := h.tail (.sealBatch _ rfl rfl)
  exact ⟨_, h, rfl, rfl, rfl⟩

theorem filerec_lifetime_twoRuns :
    (∃ s : RecState, s.stage = .putting [] .sealed ∧ s.heap.freed = [1] ∧
        ∀ a ∈ [0, 2], s.heap.Live a) ∧
      ∃ s : RecState, s.stage = .reap .sealed ∧ s.heap.freed = [3] ∧
        ∀ a ∈ [0, 1, 2], s.heap.Live a := by
  obtain ⟨s, hs, hstage, hinflight, hfreed⟩ := recReachable_sharedRecord
  obtain ⟨t, ht, hstage', hinflight', hfreed'⟩ := recReachable_swept
  have h := (filerec_lifetime ⟨true, false⟩ s hs).2.1
  have h' := (filerec_lifetime ⟨false, true⟩ t ht).2.1
  rw [hinflight] at h
  rw [hinflight'] at h'
  refine ⟨⟨s, hstage, hfreed, fun a ha => ?_⟩, t, hstage', hfreed', fun a ha => ?_⟩
  · refine h _ (List.mem_append_right _ (List.mem_singleton_self _)) a ?_
    simpa [RecBatch.reachable] using ha
  · refine h' _ (List.mem_append_right _ (List.mem_singleton_self _)) a ?_
    simp only [List.mem_cons, List.not_mem_nil, or_false] at ha
    rcases ha with rfl | rfl | rfl <;> simp [RecBatch.reachable]

end Oans
