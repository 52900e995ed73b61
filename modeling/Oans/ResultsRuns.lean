import Oans.LockedResults
import Oans.Threads

/-!
# Inserters and removals

Inserters run at the same time. They meet under the tree's lock and under the locks of groups, so
each of their critical sections is one step, as is an allocation, which may fail. The removals come
after the last inserter has returned, one at a time.
-/

namespace Oans

open SearchTree

/-- What a call of an inserter is about, with the extents it has allocated. -/
structure InsertCall (δ : Type*) where
  digest : δ
  len : ℕ
  extents : List LinkedExtent

namespace InsertCall

variable {δ : Type*}

def insertOneResult (digest : δ) (file : ℤ) (startoff len poff : ℕ) : InsertCall δ where
  digest := digest
  len := len
  extents := [{ LinkedExtent.alloc file startoff with ePoff := poff, ePlen := len }]

def insertResult (digest : δ) (recs : ℤ × ℤ) (startoff endoff : ℕ × ℕ) : InsertCall δ where
  digest := digest
  len := wrap64 (endoff.1 + 2 ^ 64 - startoff.1 + 1)
  extents := [.alloc recs.1 startoff.1, .alloc recs.2 startoff.2]

inductive Called : InsertCall δ → Prop
  | one (digest : δ) (file : ℤ) (startoff len poff : ℕ) :
      Called (insertOneResult digest file startoff len poff)
  | pair (digest : δ) (recs : ℤ × ℤ) (startoff endoff : ℕ × ℕ) :
      Called (insertResult digest recs startoff endoff)

end InsertCall

/-- Where an inserter is: which of its locks comes next, and what it has in hand. -/
inductive Inserter (δ : Type*)
  | idle
  | finding (c : InsertCall δ)
  | missing (c : InsertCall δ)
  | made (c : InsertCall δ) (new : ℕ)
  | found (c : InsertCall δ) (dext : ℕ)
  | counting (c : InsertCall δ) (kept : ℕ)
  | returned (c : InsertCall δ) (ret : ℕ)

namespace Inserter

variable {δ : Type*}

def Running : Inserter δ → Prop
  | idle => False
  | returned _ _ => False
  | _ => True

instance (p : Inserter δ) : Decidable p.Running :=
  match p with
  | idle | returned _ _ => isFalse id
  | finding _ | missing _ | made _ _ | found _ _ | counting _ _ => isTrue trivial

def uncounted : Inserter δ → ℕ
  | counting _ kept => kept
  | _ => 0

end Inserter

/-- A tree with the inserters `ι`. The calls that had a group's lock are noted in that order, the
code has no such list. -/
structure ResultsRun (ι δ : Type*) where
  res : LockedResults δ
  inserters : ι → Inserter δ
  inserted : List (InsertCall δ)
  removing : Bool

namespace ResultsRun

variable {ι δ : Type*} [DecidableEq ι] [LinearOrder δ]

def start : ResultsRun ι δ := ⟨.init, fun _ => .idle, [], false⟩

def setInserter (s : ResultsRun ι δ) (i : ι) (p : Inserter δ) : ResultsRun ι δ :=
  { s with inserters := Function.update s.inserters i p }

def Over (s : ResultsRun ι δ) : Prop := ∀ i, ¬ (s.inserters i).Running

/-- `find_alloc_dext()`, under the tree's lock for the first time. -/
def lookUp (s : ResultsRun ι δ) (i : ι) (c : InsertCall δ) : Option (ResultsRun ι δ) :=
  (s.res.findDupeExtents c.digest c.len).map fun dext =>
    match dext with
    | none => s.setInserter i (.missing c)
    | some dext => s.setInserter i (.found c dext)

/-- `find_alloc_dext()`, under the tree's lock for the second time. -/
def lookUpAgain (B : Balancing) (s : ResultsRun ι δ) (i : ι) (c : InsertCall δ) (new : ℕ) :
    Option (ResultsRun ι δ) :=
  (s.res.findDupeExtents c.digest c.len).bind fun dext =>
    match dext with
    | none => (s.res.insertDupeExtents B new).map fun res =>
      { s with res := res }.setInserter i (.found c new)
    | some dext => some ({ s with res := s.res.setDext new none }.setInserter i (.found c dext))

/-- The caller of `find_alloc_dext()` on, under the group's lock. -/
def insertMembers (B : Balancing) (s : ResultsRun ι δ) (i : ι) (c : InsertCall δ) (dext : ℕ) :
    Option (ResultsRun ι δ) :=
  (s.res.dexts dext).bind fun d =>
    if d.deLen ≠ c.len then none  -- `abort_on()`
    else (s.res.insertExtents B dext c.extents).map fun r =>
      { s with res := r.1, inserted := s.inserted ++ [c] }.setInserter i (.counting c r.2)

/-- One step, to nothing where the code goes wrong. -/
inductive Step (B : Balancing) (s : ResultsRun ι δ) : Option (ResultsRun ι δ) → Prop
  | call {i : ι} {c : InsertCall δ} (hphase : s.removing = false)
      (hout : ¬ (s.inserters i).Running) (hcall : c.Called) :
      Step B s (some (s.setInserter i (.finding c)))
  | noExtent {i : ι} {c : InsertCall δ} (hphase : s.removing = false)
      (hout : ¬ (s.inserters i).Running) (hcall : c.Called) :
      Step B s (some (s.setInserter i (.returned c ENOMEM)))
  | lookUp {i : ι} {c : InsertCall δ} (hi : s.inserters i = .finding c) : Step B s (s.lookUp i c)
  | makeGroup {i : ι} {c : InsertCall δ} {new : ℕ} (hi : s.inserters i = .missing c)
      (hfree : s.res.dexts new = none) :
      Step B s (some ({ s with res := s.res.setDext new (some (.new c.digest c.len)) }.setInserter i
        (.made c new)))
  | noGroup {i : ι} {c : InsertCall δ} (hi : s.inserters i = .missing c) :
      Step B s (some (s.setInserter i (.returned c ENOMEM)))
  | lookUpAgain {i : ι} {c : InsertCall δ} {new : ℕ} (hi : s.inserters i = .made c new) :
      Step B s (s.lookUpAgain B i c new)
  | insertMembers {i : ι} {c : InsertCall δ} {dext : ℕ} (hi : s.inserters i = .found c dext) :
      Step B s (s.insertMembers B i c dext)
  | count {i : ι} {c : InsertCall δ} {kept : ℕ} (hi : s.inserters i = .counting c kept) :
      Step B s (some ({ s with res := { s.res with
        numExtents := s.res.numExtents + kept } }.setInserter i (.returned c 0)))
  | removeExtent {dext : ℕ} {d : LinkedDupes δ} {e : LinkedExtent} (hover : s.Over)
      (hlinked : dext ∈ s.res.root.toList) (hd : s.res.dexts dext = some d)
      (he : e ∈ d.deExtents) :
      Step B s ((s.res.removeExtent B e).map fun r => { s with res := r.1, removing := true })
  | dupeExtentsFree {dext : ℕ} (hover : s.Over) (hlinked : dext ∈ s.res.root.toList) :
      Step B s ((s.res.dupeExtentsFree B dext).map fun res =>
        { s with res := res, removing := true })
  | freeResultsTree (hover : s.Over) :
      Step B s ((s.res.freeResultsTree B).map fun res => { s with res := res, removing := true })

inductive Reaches (B : Balancing) (s : ResultsRun ι δ) : Option (ResultsRun ι δ) → Prop
  | refl : Reaches B s (some s)
  | step {s' : ResultsRun ι δ} {o : Option (ResultsRun ι δ)} (h : Reaches B s (some s'))
      (hstep : Step B s' o) : Reaches B s o

end ResultsRun

namespace InsertCall

variable {δ : Type*} [DecidableEq δ]

/-- The members a group should have after the calls of `cs`: the extents of those with its key, in
the order of the calls and each place in a file once. -/
def membersAfter (cs : List (InsertCall δ)) (g : ℕ) (digest : δ) (len : ℕ) : List LinkedExtent :=
  ((cs.filter fun c => decide (c.len = len ∧ c.digest = digest)).flatMap fun c =>
    c.extents.map (.memberOf g)).foldl LinkedExtent.addMember []

theorem membersAfter_append (cs : List (InsertCall δ)) (c : InsertCall δ) (g : ℕ) (digest : δ)
    (len : ℕ) : membersAfter (cs ++ [c]) g digest len =
      if c.len = len ∧ c.digest = digest then
        (c.extents.map (.memberOf g)).foldl LinkedExtent.addMember (membersAfter cs g digest len)
      else membersAfter cs g digest len := by
  unfold membersAfter
  rw [List.filter_append, List.flatMap_append, List.foldl_append, List.filter_singleton]
  by_cases hkey : c.len = len ∧ c.digest = digest
  · simp [hkey]
  · simp [hkey]

theorem membersAfter_eq_nil {cs : List (InsertCall δ)} {g : ℕ} {digest : δ} {len : ℕ}
    (h : ∀ c ∈ cs, ¬ (c.len = len ∧ c.digest = digest)) : membersAfter cs g digest len = [] := by
  have hfilter : cs.filter (fun c => decide (c.len = len ∧ c.digest = digest)) = [] := by
    simpa [List.filter_eq_nil_iff] using h
  rw [membersAfter, hfilter]
  rfl

theorem exists_membersAfter {cs : List (InsertCall δ)} {c : InsertCall δ} (hc : c ∈ cs) (g : ℕ)
    {e : LinkedExtent} (he : e ∈ c.extents) :
    ∃ x ∈ membersAfter cs g c.digest c.len, x.key = e.key := by
  refine LinkedExtent.exists_foldl_addMember _ [] (e := e.memberOf g) ?_
  exact List.mem_flatMap.mpr ⟨c, List.mem_filter.mpr ⟨hc, by simp⟩, List.mem_map_of_mem he⟩

end InsertCall

section Invariant

variable {ι δ : Type*} [LinearOrder δ]

def Inserter.Holds (res : LockedResults δ) (inserted : List (InsertCall δ)) : Inserter δ → Prop
  | .idle => True
  | .finding c => c.extents ≠ []
  | .missing c => c.extents ≠ []
  | .made c new => c.extents ≠ [] ∧ new ∉ res.root.toList ∧
      res.dexts new = some (.new c.digest c.len)
  | .found c dext => c.extents ≠ [] ∧ dext ∈ res.root.toList ∧
      res.keyAt dext = some (toLex (c.len, c.digest))
  | .counting c _ => c ∈ inserted
  | .returned c ret => ret = 0 → c ∈ inserted

/-- The calls noted have left their extents in the groups that are linked. -/
def LockedResults.Noted (res : LockedResults δ) (inserted : List (InsertCall δ)) : Prop :=
  ∀ g ∈ res.root.toList, ∀ digest len, res.keyAt g = some (toLex (len, digest)) →
    res.linked.filter (fun e => decide (e.eParent = some g)) =
      InsertCall.membersAfter inserted g digest len

def LockedResults.Grouped (res : LockedResults δ) (inserted : List (InsertCall δ)) : Prop :=
  ∀ c ∈ inserted, ∃ g ∈ res.root.toList, res.keyAt g = some (toLex (c.len, c.digest))

theorem LockedResults.Noted.congr {res res' : LockedResults δ} {inserted : List (InsertCall δ)}
    (h : res.Noted inserted) (hlinked : res'.linked = res.linked)
    (hkeys : ∀ g ∈ res'.root.toList, g ∈ res.root.toList ∧ res'.keyAt g = res.keyAt g) :
    res'.Noted inserted := by
  intro g hg digest len hkey
  obtain ⟨hold, hsame⟩ := hkeys g hg
  rw [hlinked]
  exact h g hold digest len (hsame.symm.trans hkey)

omit [LinearOrder δ] in
theorem LockedResults.Grouped.congr {res res' : LockedResults δ} {inserted : List (InsertCall δ)}
    (h : res.Grouped inserted)
    (hkeys : ∀ g ∈ res.root.toList, g ∈ res'.root.toList ∧ res'.keyAt g = res.keyAt g) :
    res'.Grouped inserted := by
  intro c hc
  obtain ⟨g, hg, hkey⟩ := h c hc
  exact ⟨g, (hkeys g hg).1, (hkeys g hg).2.trans hkey⟩

omit [LinearOrder δ] in
theorem InsertCall.Called.extents_ne_nil {c : InsertCall δ} (h : c.Called) : c.extents ≠ [] := by
  cases h with
  | one => exact List.cons_ne_nil _ _
  | pair => exact List.cons_ne_nil _ _

omit [LinearOrder δ] in
/-- An inserter sees only the group it has in hand. -/
theorem Inserter.Holds.congr {res res' : LockedResults δ} {log log' : List (InsertCall δ)}
    {p : Inserter δ} (h : p.Holds res log) (hlog : log ⊆ log')
    (hmade : ∀ c new, p = .made c new → new ∉ res.root.toList →
      res.dexts new = some (.new c.digest c.len) →
      new ∉ res'.root.toList ∧ res'.dexts new = res.dexts new)
    (hfound : ∀ c dext, p = .found c dext → dext ∈ res.root.toList →
      dext ∈ res'.root.toList ∧ res'.keyAt dext = res.keyAt dext) : p.Holds res' log' := by
  cases p with
  | made c new =>
    obtain ⟨hroot, hdext⟩ := hmade c new rfl h.2.1 h.2.2
    exact ⟨h.1, hroot, hdext.trans h.2.2⟩
  | found c dext =>
    obtain ⟨hroot, hkey⟩ := hfound c dext rfl h.2.1
    exact ⟨h.1, hroot, hkey.trans h.2.2⟩
  | idle => trivial
  | finding c => exact h
  | missing c => exact h
  | counting c kept => exact hlog h
  | returned c ret => exact fun hret => hlog (h hret)

namespace ResultsRun

variable [Fintype ι] {s : ResultsRun ι δ} {o : Option (ResultsRun ι δ)}

structure Inv (s : ResultsRun ι δ) : Prop where
  holds : s.res.Holds
  inserter : ∀ i, (s.inserters i).Holds s.res s.inserted
  made_ne : ∀ i j, i ≠ j → ∀ c c' new, s.inserters i = .made c new → s.inserters j ≠ .made c' new
  /-- a group without members is about to get some -/
  filled : ∀ g ∈ s.res.root.toList, ∀ d, s.res.dexts g = some d → d.deExtents = [] →
    ∃ i c, s.inserters i = .found c g
  counted : s.res.numExtents + ∑ i, (s.inserters i).uncounted = s.res.members
  phase : s.removing = true → s.Over
  freed : s.removing = false → s.res.freed = []
  noted : s.res.Noted s.inserted
  grouped : s.removing = false → s.res.Grouped s.inserted

theorem Inv.start : (start : ResultsRun ι δ).Inv where
  holds := .init
  inserter _ := trivial
  made_ne := by simp [ResultsRun.start]
  filled := by simp [ResultsRun.start, LockedResults.init]
  counted := by
    simp [ResultsRun.start, LockedResults.init, LockedResults.members, Inserter.uncounted]
  phase := by simp [ResultsRun.start]
  freed _ := rfl
  noted := by simp [ResultsRun.start, LockedResults.init, LockedResults.Noted]
  grouped _ := by simp [ResultsRun.start, LockedResults.Grouped]

theorem Inv.inserting (h : s.Inv) {i : ι} (hi : (s.inserters i).Running) : s.removing = false :=
  Bool.not_eq_true _ ▸ fun hphase => h.phase hphase i hi

variable [DecidableEq ι]

/-- One inserter moves, with a change to the tree that the others do not see. -/
theorem Inv.move (h : s.Inv) (i : ι) (hphase : s.removing = false) {res : LockedResults δ}
    {p : Inserter δ} {log : List (InsertCall δ)} (hholds : res.Holds)
    (hfreed : res.freed = s.res.freed) (hnoted : res.Noted log) (hgrouped : res.Grouped log)
    (hp : p.Holds res log) (hother : ∀ j, j ≠ i → (s.inserters j).Holds res log)
    (hmade : ∀ c new, p = .made c new → ∀ j, j ≠ i → ∀ c', s.inserters j ≠ .made c' new)
    (hfilled : ∀ g ∈ res.root.toList, ∀ d, res.dexts g = some d → d.deExtents = [] →
      (∃ c, p = .found c g) ∨ ∃ j, j ≠ i ∧ ∃ c, s.inserters j = .found c g)
    (hcount : res.numExtents + p.uncounted + s.res.members =
      s.res.numExtents + (s.inserters i).uncounted + res.members) :
    ({ s with res := res, inserted := log }.setInserter i p).Inv where
  holds := hholds
  inserter := (Function.forall_update_iff s.inserters fun _ p => p.Holds res log).mpr ⟨hp, hother⟩
  made_ne j k hjk c c' new hj hk := by
    simp only [setInserter, Function.update_apply] at hj hk
    split_ifs at hj hk with hji hki hki
    · exact hjk (hji.trans hki.symm)
    · exact hmade c new hj k hki c' hk
    · exact hmade c' new hk j hji c hj
    · exact h.made_ne j k hjk c c' new hj hk
  filled g hg d hd hnil := by
    rcases hfilled g hg d hd hnil with ⟨c, rfl⟩ | ⟨j, hj, c, hjc⟩
    · exact ⟨i, c, Function.update_self ..⟩
    · exact ⟨j, c, (Function.update_of_ne hj _ _).trans hjc⟩
  counted := by
    have hsum := Threads.sum_update Inserter.uncounted s.inserters i p
    have hold := h.counted
    change res.numExtents + ∑ j, (Function.update s.inserters i p j).uncounted = res.members
    omega
  phase hremoving := by
    rw [setInserter, hphase] at hremoving
    cases hremoving
  freed _ := hfreed.trans (h.freed hphase)
  noted := hnoted
  grouped _ := hgrouped

omit [DecidableEq ι] in
/-- The groups without members are those that other inserters have in hand. -/
theorem Inv.filled_by_other (h : s.Inv) {i : ι} (hi : ∀ c g, s.inserters i ≠ .found c g) {g : ℕ}
    (hg : g ∈ s.res.root.toList) {d : LinkedDupes δ} (hd : s.res.dexts g = some d)
    (hnil : d.deExtents = []) : ∃ j, j ≠ i ∧ ∃ c, s.inserters j = .found c g := by
  obtain ⟨j, c, hj⟩ := h.filled g hg d hd hnil
  refine ⟨j, ?_, c, hj⟩
  rintro rfl
  exact hi c g hj

theorem Inv.setInserter (h : s.Inv) {i : ι} (hphase : s.removing = false) {p : Inserter δ}
    (hp : p.Holds s.res s.inserted) (hmade : ∀ c new, p ≠ .made c new)
    (hi : ∀ c g, s.inserters i ≠ .found c g) (hcount : (s.inserters i).uncounted = p.uncounted) :
    (s.setInserter i p).Inv :=
  h.move i hphase h.holds rfl h.noted (h.grouped hphase) hp (fun j _ => h.inserter j)
    (fun c new hnew => absurd hnew (hmade c new))
    (fun _ hg _ hd hnil => Or.inr (h.filled_by_other hi hg hd hnil)) (by rw [hcount])

section Insertion

variable {i : ι} {c : InsertCall δ} {B : Balancing}

omit [DecidableEq ι] in
/-- Whether the key has a group, and if so that one. -/
theorem Inv.findDupeExtents (h : s.Inv) (digest : δ) (len : ℕ) :
    (∃ g ∈ s.res.root.toList, s.res.keyAt g = some (toLex (len, digest)) ∧
      s.res.findDupeExtents digest len = some (some g)) ∨
    (∀ g ∈ s.res.root.toList, s.res.keyAt g ≠ some (toLex (len, digest))) ∧
      s.res.findDupeExtents digest len = some none :=
  find_spec h.holds.sorted

theorem Inv.lookUp (h : s.Inv) (hi : s.inserters i = .finding c) :
    ∃ s', s.lookUp i c = some s' ∧ s'.Inv := by
  have hself := h.inserter i
  have hphase := h.inserting (i := i) (hi ▸ trivial)
  have hnot : ∀ c' g, s.inserters i ≠ .found c' g := by simp [hi]
  rw [hi] at hself
  rcases h.findDupeExtents c.digest c.len with ⟨g, hg, hkey, hfind⟩ | ⟨-, hfind⟩
  · exact ⟨s.setInserter i (.found c g), by rw [ResultsRun.lookUp, hfind]; rfl,
      h.setInserter hphase ⟨hself, hg, hkey⟩ (by simp) hnot (by rw [hi]; rfl)⟩
  · exact ⟨s.setInserter i (.missing c), by rw [ResultsRun.lookUp, hfind]; rfl,
      h.setInserter hphase hself (by simp) hnot (by rw [hi]; rfl)⟩

/-- Memory that is free is no group that anyone knows of. -/
theorem Inv.makeGroup (h : s.Inv) (hi : s.inserters i = .missing c) {new : ℕ}
    (hfree : s.res.dexts new = none) :
    ({ s with res := s.res.setDext new (some (.new c.digest c.len)) }.setInserter i
      (.made c new)).Inv := by
  have hself := h.inserter i
  have hphase := h.inserting (i := i) (hi ▸ trivial)
  rw [hi] at hself
  have hnew : new ∉ s.res.root.toList := by
    intro hmem
    obtain ⟨d, hd⟩ := h.holds.get hmem
    rw [hfree] at hd
    cases hd
  have hkeep : ∀ a, s.res.dexts a ≠ none →
      (s.res.setDext new (some (.new c.digest c.len))).dexts a = s.res.dexts a := by
    rintro a ha
    refine Function.update_of_ne ?_ _ _
    rintro rfl
    exact ha hfree
  have hkeys : ∀ g ∈ s.res.root.toList,
      (s.res.setDext new (some (.new c.digest c.len))).keyAt g = s.res.keyAt g := by
    intro g hg
    obtain ⟨d, hd⟩ := h.holds.get hg
    refine congrArg (Option.map LinkedDupes.key) (hkeep g ?_)
    rw [hd]
    exact Option.some_ne_none _
  obtain ⟨hholds, hmembers⟩ := h.holds.setDext_of_not_mem hnew (some (.new c.digest c.len))
  refine h.move i hphase hholds rfl (h.noted.congr rfl fun g hg => ⟨hg, hkeys g hg⟩)
    ((h.grouped hphase).congr fun g hg => ⟨hg, hkeys g hg⟩)
    ⟨hself, hnew, Function.update_self ..⟩ (fun j _ => ?_) (fun c' new' hp j _ c'' hj => ?_)
    (fun g hg d hd hnil => Or.inr ?_) ?_
  · refine (h.inserter j).congr (List.Subset.refl _)
      (fun c' a _ hroot hdext => ⟨hroot, hkeep a ?_⟩) fun c' g _ hroot => ⟨hroot, hkeys g hroot⟩
    rw [hdext]
    exact Option.some_ne_none _
  · -- another inserter's new group is at an address that is taken
    obtain ⟨-, rfl⟩ := Inserter.made.inj hp
    have hmade := h.inserter j
    rw [hj] at hmade
    cases hfree.symm.trans hmade.2.2
  · obtain ⟨d', hd'⟩ := h.holds.get hg
    have hold : s.res.dexts g = some d := by
      rw [← hd]
      exact (hkeep g (hd' ▸ Option.some_ne_none _)).symm
    exact h.filled_by_other (by simp [hi]) hg hold hnil
  · rw [hi, hmembers]
    rfl

omit [DecidableEq ι] in
theorem Inv.holds_made (h : s.Inv) {new : ℕ} (hi : s.inserters i = .made c new) :
    c.extents ≠ [] ∧ new ∉ s.res.root.toList ∧
      s.res.dexts new = some (.new c.digest c.len) := by
  have hself := h.inserter i
  rwa [hi] at hself

/-- Another inserter was faster, and the new group is freed. -/
theorem Inv.freeMade (h : s.Inv) {new g : ℕ} (hi : s.inserters i = .made c new)
    (hg : g ∈ s.res.root.toList) (hkey : s.res.keyAt g = some (toLex (c.len, c.digest))) :
    ({ s with res := s.res.setDext new none }.setInserter i (.found c g)).Inv := by
  have hphase := h.inserting (i := i) (hi ▸ trivial)
  obtain ⟨hne, hnew, -⟩ := h.holds_made hi
  have hkeep : ∀ a, a ≠ new → (s.res.setDext new none).dexts a = s.res.dexts a :=
    fun a ha => Function.update_of_ne ha _ _
  have hkeepRoot : ∀ a ∈ s.res.root.toList,
      (s.res.setDext new none).dexts a = s.res.dexts a := by
    intro a ha
    refine hkeep a ?_
    rintro rfl
    exact hnew ha
  have hkeys : ∀ a ∈ s.res.root.toList, (s.res.setDext new none).keyAt a = s.res.keyAt a :=
    fun a ha => congrArg (Option.map LinkedDupes.key) (hkeepRoot a ha)
  obtain ⟨hholds, hmembers⟩ := h.holds.setDext_of_not_mem hnew none
  refine h.move i hphase hholds rfl (h.noted.congr rfl fun a ha => ⟨ha, hkeys a ha⟩)
    ((h.grouped hphase).congr fun a ha => ⟨ha, hkeys a ha⟩) ⟨hne, hg, (hkeys g hg).trans hkey⟩
    (fun j hj => ?_) (by simp) (fun a ha d hd hnil => Or.inr ?_) ?_
  · refine (h.inserter j).congr (List.Subset.refl _) (fun c' a hja hroot _ => ⟨hroot, hkeep a ?_⟩)
      fun c' a _ hroot => ⟨hroot, hkeys a hroot⟩
    rintro rfl
    exact h.made_ne j i hj c' c a hja hi
  · exact h.filled_by_other (by simp [hi]) ha ((hkeepRoot a ha).symm.trans hd) hnil
  · rw [hi, hmembers]
    rfl

omit [DecidableEq ι] in
/-- No call noted has the key of a group that is new to the tree, and no member is of it. -/
theorem Inv.noted_insertDupeExtents (h : s.Inv) (hphase : s.removing = false) {new : ℕ}
    (hnew : new ∉ s.res.root.toList)
    (hnone : ∀ g ∈ s.res.root.toList, s.res.keyAt g ≠ some (toLex (c.len, c.digest)))
    {res : LockedResults δ} (hroot : ∀ a, a ∈ res.root.toList ↔ a = new ∨ a ∈ s.res.root.toList)
    (hkeys : res.keyAt = s.res.keyAt) (hkeyNew : res.keyAt new = some (toLex (c.len, c.digest)))
    (hlinked : res.linked = s.res.linked) : res.Noted s.inserted := by
  intro a ha digest len hkey
  rw [hlinked]
  rcases (hroot a).mp ha with rfl | ha
  · rw [hkeyNew, Option.some.injEq, toLex.injective.eq_iff, Prod.mk.injEq] at hkey
    obtain ⟨rfl, rfl⟩ := hkey
    rw [InsertCall.membersAfter_eq_nil, List.filter_eq_nil_iff]
    · intro e he hpar
      obtain ⟨b, hb, hbpar⟩ := h.holds.owned e he (by simp [h.freed hphase])
      rw [of_decide_eq_true hpar, Option.some.injEq] at hbpar
      exact hnew (hbpar ▸ hb)
    · rintro c' hc' ⟨hlen, hdigest⟩
      obtain ⟨b, hb, hbkey⟩ := h.grouped hphase c' hc'
      exact hnone b hb (hlen ▸ hdigest ▸ hbkey)
  · exact h.noted a ha digest len (hkeys ▸ hkey)

/-- The new group is linked in. -/
theorem Inv.linkMade (h : s.Inv) (B : Balancing) {new : ℕ} (hi : s.inserters i = .made c new)
    (hnone : ∀ g ∈ s.res.root.toList, s.res.keyAt g ≠ some (toLex (c.len, c.digest))) :
    ∃ res, s.res.insertDupeExtents B new = some res ∧
      ({ s with res := res }.setInserter i (.found c new)).Inv := by
  have hphase := h.inserting (i := i) (hi ▸ trivial)
  obtain ⟨hne, hnew, hdext⟩ := h.holds_made hi
  obtain ⟨res, hins, hholds, hroot, hdexts, hnum, hlinked, hfreed, hmembers⟩ :=
    LockedResults.insertDupeExtents_spec B h.holds hnew hdext hnone
  have hkeys : res.keyAt = s.res.keyAt := by
    funext a
    rw [LockedResults.keyAt, LockedResults.keyAt, hdexts]
  have hkeyNew : res.keyAt new = some (toLex (c.len, c.digest)) := by
    rw [LockedResults.keyAt, hdexts, hdext]
    rfl
  refine ⟨res, hins, h.move i hphase hholds hfreed
    (h.noted_insertDupeExtents hphase hnew hnone hroot hkeys hkeyNew hlinked)
    ((h.grouped hphase).congr fun a ha => ⟨(hroot a).mpr (Or.inr ha), by rw [hkeys]⟩)
    ⟨hne, (hroot new).mpr (Or.inl rfl), hkeyNew⟩ (fun j hj => ?_) (by simp)
    (fun a ha d hd hnil => ?_) ?_⟩
  · refine (h.inserter j).congr (List.Subset.refl _)
      (fun c' a hja hold _ => ⟨fun ha => ?_, by rw [hdexts]⟩)
      fun c' a _ hold => ⟨(hroot a).mpr (Or.inr hold), by rw [hkeys]⟩
    rcases (hroot a).mp ha with rfl | ha
    · exact h.made_ne j i hj c' c a hja hi
    · exact hold ha
  · rcases (hroot a).mp ha with rfl | ha
    · exact Or.inl ⟨c, rfl⟩
    · exact Or.inr (h.filled_by_other (by simp [hi]) ha (hdexts ▸ hd) hnil)
  · rw [hi, hmembers, hnum]
    rfl

theorem Inv.lookUpAgain (h : s.Inv) (B : Balancing) {new : ℕ} (hi : s.inserters i = .made c new) :
    ∃ s', s.lookUpAgain B i c new = some s' ∧ s'.Inv := by
  rcases h.findDupeExtents c.digest c.len with ⟨g, hg, hkey, hfind⟩ | ⟨hnone, hfind⟩
  · exact ⟨_, by rw [ResultsRun.lookUpAgain, hfind, Option.bind_some], h.freeMade hi hg hkey⟩
  · obtain ⟨res, hins, hinv⟩ := h.linkMade B hi hnone
    refine ⟨_, ?_, hinv⟩
    rw [ResultsRun.lookUpAgain, hfind, Option.bind_some]
    simp only [hins, Option.map_some]

omit [DecidableEq ι] in
/-- The call is noted, and its extents are in its group. -/
theorem Inv.noted_insertMembers (h : s.Inv) (hphase : s.removing = false) {dext kept : ℕ}
    (hg : dext ∈ s.res.root.toList) (hkey : s.res.keyAt dext = some (toLex (c.len, c.digest)))
    {res : LockedResults δ} (hext : LockedResults.Extends s.res res dext c.extents kept) :
    res.Noted (s.inserted ++ [c]) := by
  have hfreed := h.freed hphase
  have hlinked {t : LockedResults δ} (ht : t.freed = []) (a : ℕ) :
      t.linkedTo a = t.linked.filter fun e => decide (e.eParent = some a) := by
    simp [LockedResults.linkedTo, ht]
  intro a ha digest len hakey
  rw [hext.keyAt_eq] at hakey
  rw [hext.root] at ha
  rw [← hlinked (hext.freed.trans hfreed), InsertCall.membersAfter_append,
    ← h.noted a ha digest len hakey, ← hlinked hfreed]
  obtain ⟨d, d', hd, hd', -, hlist⟩ := hext.filled
  by_cases hag : a = dext
  · subst hag
    have hmatch : c.len = len ∧ c.digest = digest := by
      rw [hkey, Option.some.injEq, toLex.injective.eq_iff, Prod.mk.injEq] at hakey
      exact hakey
    rw [if_pos hmatch, ← (hext.holds.group a (hext.root ▸ ha) d' hd').order, hlist,
      (h.holds.group a ha d hd).order]
  · have hmatch : ¬ (c.len = len ∧ c.digest = digest) := by
      rintro ⟨rfl, rfl⟩
      exact hag (List.inj_on_of_nodup_map h.holds.sorted.keys_nodup ha hg (hakey.trans hkey.symm))
    obtain ⟨b, hb⟩ := h.holds.get ha
    rw [if_neg hmatch, ← (h.holds.group a ha b hb).order,
      (hext.holds.group a (hext.root ▸ ha) b ((hext.other a hag).trans hb)).order]

theorem Inv.insertMembers (h : s.Inv) (B : Balancing) {dext : ℕ}
    (hi : s.inserters i = .found c dext) :
    ∃ s', s.insertMembers B i c dext = some s' ∧ s'.Inv := by
  have hphase := h.inserting (i := i) (hi ▸ trivial)
  obtain ⟨hne, hg, hkey⟩ : c.extents ≠ [] ∧ dext ∈ s.res.root.toList ∧
      s.res.keyAt dext = some (toLex (c.len, c.digest)) := by
    have hself := h.inserter i
    rwa [hi] at hself
  have hfreed := h.freed hphase
  obtain ⟨res, kept, hins, hext⟩ := LockedResults.insertExtents_spec B h.holds hg hfreed c.extents
  obtain ⟨d, -, hd, -⟩ := hext.filled
  have hlen : d.deLen = c.len := by
    rw [LockedResults.keyAt, hd, Option.map_some, Option.some.injEq, LinkedDupes.key,
      toLex.injective.eq_iff, Prod.mk.injEq] at hkey
    exact hkey.1
  have hkeys := hext.keyAt_eq
  have hlog : s.inserted ⊆ s.inserted ++ [c] := List.subset_append_left ..
  have hp : (Inserter.counting c kept).Holds res (s.inserted ++ [c]) :=
    List.mem_append_right _ (List.mem_singleton_self c)
  have hgrouped : res.Grouped (s.inserted ++ [c]) := by
    intro c' hc'
    rcases List.mem_append.mp hc' with hc' | hc'
    · obtain ⟨a, ha, hakey⟩ := h.grouped hphase c' hc'
      exact ⟨a, hext.root ▸ ha, (hkeys a).trans hakey⟩
    · rw [List.mem_singleton.mp hc']
      exact ⟨dext, hext.root ▸ hg, (hkeys dext).trans hkey⟩
  have hnoted : res.Noted (s.inserted ++ [c]) :=
    h.noted_insertMembers hphase hg hkey hext
  refine ⟨{ s with res := res, inserted := s.inserted ++ [c] }.setInserter i (.counting c kept), ?_,
    h.move i hphase hext.holds hext.freed hnoted hgrouped hp (fun j _ => ?_) (by simp)
      (fun a ha b hb hnil => Or.inr ?_) ?_⟩
  · rw [ResultsRun.insertMembers, hd, Option.bind_some, if_neg (not_not_intro hlen), hins]
    rfl
  · refine (h.inserter j).congr hlog (fun c' a _ hroot _ => ?_) fun c' a _ hroot => ?_
    · have hne' : a ≠ dext := by
        rintro rfl
        exact hroot hg
      exact ⟨hext.root ▸ hroot, hext.other a hne'⟩
    · exact ⟨hext.root ▸ hroot, hkeys a⟩
  · have hne' : a ≠ dext := by
      rintro rfl
      exact hext.deExtents_ne_nil hne hb hnil
    obtain ⟨j, c', hj⟩ := h.filled a (hext.root ▸ ha) b ((hext.other a hne').symm.trans hb) hnil
    refine ⟨j, ?_, c', hj⟩
    rintro rfl
    rw [hi, Inserter.found.injEq] at hj
    exact hne' hj.2.symm
  · rw [hi, hext.members, hext.numExtents]
    simp only [Inserter.uncounted]
    omega

theorem Inv.count (h : s.Inv) {kept : ℕ} (hi : s.inserters i = .counting c kept) :
    ({ s with res := { s.res with numExtents := s.res.numExtents + kept } }.setInserter i
      (.returned c 0)).Inv := by
  have hphase := h.inserting (i := i) (hi ▸ trivial)
  have hsame := h.holds
  have hself := h.inserter i
  rw [hi] at hself
  refine h.move i hphase ⟨hsame.sorted, fun g hg d hd => (hsame.group g hg d hd).congr rfl,
    hsame.owned, hsame.numDupes⟩ rfl (h.noted.congr rfl fun _ hg => ⟨hg, rfl⟩)
    ((h.grouped hphase).congr fun _ hg => ⟨hg, rfl⟩) (fun _ => hself)
    (fun j _ => (h.inserter j).congr (List.Subset.refl _)
      (fun _ _ _ hroot _ => ⟨hroot, rfl⟩) fun _ _ _ hroot => ⟨hroot, rfl⟩) (by simp)
    (fun g hg d hd hnil => Or.inr (h.filled_by_other (by simp [hi]) hg hd hnil)) ?_
  rw [hi]
  rfl

end Insertion

section Removal

variable {B : Balancing}

omit [DecidableEq ι] in
theorem Inv.settled (h : s.Inv) (hover : s.Over) :
    s.res.numExtents = s.res.members ∧ s.res.Filled := by
  have hzero : ∀ i, (s.inserters i).uncounted = 0 := by
    intro i
    have hi := hover i
    cases hp : s.inserters i with
    | counting c kept =>
      rw [hp] at hi
      exact absurd trivial hi
    | _ => rfl
  refine ⟨?_, fun g hg d hd hnil => ?_⟩
  · have hcount := h.counted
    simp only [hzero, Finset.sum_const_zero, Nat.add_zero] at hcount
    exact hcount
  · obtain ⟨i, c, hi⟩ := h.filled g hg d hd hnil
    exact hover i (hi ▸ trivial)

omit [DecidableEq ι] in
/-- A removal leaves a tree that holds, and its caller is the only one. -/
theorem Inv.afterRemoval (h : s.Inv) (hover : s.Over) {res : LockedResults δ} (hholds : res.Holds)
    (hcount : res.numExtents = res.members) (hfilled : res.Filled)
    (hnoted : res.Noted s.inserted) :
    ({ s with res := res, removing := true } : ResultsRun ι δ).Inv where
  holds := hholds
  inserter i := by
    have hi := hover i
    have hself := h.inserter i
    cases hp : s.inserters i with
    | idle => trivial
    | returned c ret =>
      rw [hp] at hself
      exact hself
    | _ =>
      rw [hp] at hi
      exact absurd trivial hi
  made_ne := h.made_ne
  filled g hg d hd hnil := absurd hnil (hfilled g hg d hd)
  counted := by
    have hold := h.counted
    rw [(h.settled hover).1] at hold
    change res.numExtents + ∑ i, (s.inserters i).uncounted = res.members
    omega
  phase _ := hover
  freed hremoving := by cases hremoving
  noted := hnoted
  grouped hremoving := by cases hremoving

omit [DecidableEq ι] in
theorem Inv.noted_groupFreed (h : s.Inv) {res : LockedResults δ} {g : ℕ}
    (hfreed : LockedResults.GroupFreed s.res res g) : res.Noted s.inserted :=
  h.noted.congr hfreed.linked fun a ha => ⟨((hfreed.root a).mp ha).1,
    congrArg (Option.map LinkedDupes.key) (hfreed.other a ((hfreed.root a).mp ha).2)⟩

omit [DecidableEq ι] in
theorem Inv.noted_memberRemoved (h : s.Inv) {res : LockedResults δ} {g : ℕ} {d : LinkedDupes δ}
    {e : LinkedExtent} (hd : s.res.dexts g = some d)
    (hremoved : LockedResults.MemberRemoved s.res res g d e) : res.Noted s.inserted := by
  refine h.noted.congr hremoved.linked fun a ha => ⟨hremoved.root ▸ ha, ?_⟩
  by_cases hag : a = g
  · obtain ⟨d', hd', hkey, -⟩ := hremoved.left
    rw [hag, LockedResults.keyAt, LockedResults.keyAt, hd, hd', Option.map_some, Option.map_some,
      hkey]
  · exact congrArg (Option.map LinkedDupes.key) (hremoved.other a hag)

theorem Inv.step (h : s.Inv) (hstep : Step B s o) : ∃ s', o = some s' ∧ s'.Inv := by
  cases hstep with
  | @call i c hphase hout hcall =>
    refine ⟨_, rfl, h.setInserter hphase hcall.extents_ne_nil (by simp) (fun c' g hi => ?_) ?_⟩
    · exact hout (hi ▸ trivial)
    · cases hp : s.inserters i with
      | counting c' kept => exact absurd (hp ▸ trivial) hout
      | _ => rfl
  | @noExtent i c hphase hout hcall =>
    refine ⟨_, rfl, h.setInserter hphase (fun hret => ?_) (by simp) (fun c' g hi => ?_) ?_⟩
    · cases hret
    · exact hout (hi ▸ trivial)
    · cases hp : s.inserters i with
      | counting c' kept => exact absurd (hp ▸ trivial) hout
      | _ => rfl
  | lookUp hi => exact h.lookUp hi
  | makeGroup hi hfree => exact ⟨_, rfl, h.makeGroup hi hfree⟩
  | @noGroup i c hi =>
    have hphase := h.inserting (i := i) (hi ▸ trivial)
    refine ⟨_, rfl, h.setInserter hphase (fun hret => ?_) (by simp) (by simp [hi])
      (by rw [hi]; rfl)⟩
    cases hret
  | lookUpAgain hi => exact h.lookUpAgain B hi
  | insertMembers hi => exact h.insertMembers B hi
  | count hi => exact ⟨_, rfl, h.count hi⟩
  | removeExtent hover hlinked hd he =>
    obtain ⟨hcount, hfilled⟩ := h.settled hover
    obtain ⟨res, ⟨-, hremove, hfreed⟩ | ⟨htwo, hremove, hremoved⟩⟩ :=
      LockedResults.removeExtent_spec B h.holds hcount hlinked hd he
    · exact ⟨_, by rw [hremove]; rfl, h.afterRemoval hover hfreed.holds hfreed.counted
        (hfreed.filled hfilled) (h.noted_groupFreed hfreed)⟩
    · exact ⟨_, by rw [hremove]; rfl, h.afterRemoval hover hremoved.holds hremoved.counted
        (hremoved.filled he htwo hfilled) (h.noted_memberRemoved hd hremoved)⟩
  | @dupeExtentsFree g hover hlinked =>
    obtain ⟨hcount, hfilled⟩ := h.settled hover
    obtain ⟨d, hd⟩ := h.holds.get hlinked
    obtain ⟨res, hfree, hfreed⟩ := LockedResults.dupeExtentsFree_spec B h.holds hcount hlinked hd
      (hfilled g hlinked d hd)
    exact ⟨_, by rw [hfree]; rfl, h.afterRemoval hover hfreed.holds hfreed.counted
      (hfreed.filled hfilled) (h.noted_groupFreed hfreed)⟩
  | freeResultsTree hover =>
    obtain ⟨hcount, hfilled⟩ := h.settled hover
    obtain ⟨res, hfree, hholds, hcount', hnil⟩ :=
      LockedResults.freeResultsTree_spec B h.holds hcount hfilled
    refine ⟨_, by rw [hfree]; rfl,
      h.afterRemoval hover hholds hcount' (fun g hg => ?_) fun g hg => ?_⟩
    · exact absurd (hnil ▸ hg) List.not_mem_nil
    · exact absurd (hnil ▸ hg) List.not_mem_nil

omit [Fintype ι] in
theorem Step.inserted_prefix {s' : ResultsRun ι δ} (hstep : Step B s (some s')) :
    s.inserted <+: s'.inserted := by
  generalize ho : some s' = o at hstep
  cases hstep with
  | @lookUp i c hi =>
    obtain ⟨dext, -, rfl⟩ := Option.map_eq_some_iff.mp ho.symm
    cases dext <;> exact List.prefix_rfl
  | @lookUpAgain i c new hi =>
    obtain ⟨dext, -, hs'⟩ := Option.bind_eq_some_iff.mp ho.symm
    cases dext with
    | none =>
      obtain ⟨res, -, rfl⟩ := Option.map_eq_some_iff.mp hs'
      exact List.prefix_rfl
    | some dext =>
      obtain rfl := Option.some.inj hs'
      exact List.prefix_rfl
  | @insertMembers i c dext hi =>
    obtain ⟨d, -, hs'⟩ := Option.bind_eq_some_iff.mp ho.symm
    split_ifs at hs'
    obtain ⟨r, -, rfl⟩ := Option.map_eq_some_iff.mp hs'
    exact List.prefix_append _ _
  | removeExtent =>
    obtain ⟨r, -, rfl⟩ := Option.map_eq_some_iff.mp ho.symm
    exact List.prefix_rfl
  | dupeExtentsFree =>
    obtain ⟨r, -, rfl⟩ := Option.map_eq_some_iff.mp ho.symm
    exact List.prefix_rfl
  | freeResultsTree =>
    obtain ⟨r, -, rfl⟩ := Option.map_eq_some_iff.mp ho.symm
    exact List.prefix_rfl
  | _ =>
    obtain rfl := Option.some.inj ho
    exact List.prefix_rfl

omit [Fintype ι] in
theorem Reaches.inserted_prefix {s' : ResultsRun ι δ} (h : Reaches B s (some s')) :
    s.inserted <+: s'.inserted := by
  generalize ho : some s' = o at h
  induction h generalizing s' with
  | refl =>
    obtain rfl := Option.some.inj ho
    exact List.prefix_rfl
  | step _ hstep ih =>
    subst ho
    exact (ih rfl).trans hstep.inserted_prefix

theorem Inv.reaches (h : s.Inv) (hreaches : Reaches B s o) : ∃ s', o = some s' ∧ s'.Inv := by
  induction hreaches with
  | refl => exact ⟨s, rfl, h⟩
  | step _ hstep ih =>
    obtain ⟨s₁, hs₁, hinv⟩ := ih
    obtain rfl := Option.some.inj hs₁
    exact hinv.step hstep

end Removal

section Consistency

structure Consistent (B : Balancing) (s : ResultsRun ι δ) : Prop where
  live : ∀ g ∈ s.res.root.toList, ∃ d, s.res.dexts g = some d
  one_group : ∀ g ∈ s.res.root.toList, ∀ g' ∈ s.res.root.toList, ∀ d d',
    s.res.dexts g = some d → s.res.dexts g' = some d' →
    d.deLen = d'.deLen → d.deHash = d'.deHash → g = g'
  counts : ∀ g ∈ s.res.root.toList, ∀ d, s.res.dexts g = some d →
    d.deNumDupes = d.deExtents.length ∧ d.deNumDupes = d.deExtentsRoot.toList.length ∧
      ∀ e, e ∈ d.deExtentsRoot.toList ↔ e ∈ d.deExtents
  once : ∀ g ∈ s.res.root.toList, ∀ d, s.res.dexts g = some d →
    (d.deExtents.map fun e => (e.eFile, e.eLoff)).Nodup
  returned : ∀ i c, s.inserters i = .returned c 0 → c ∈ s.inserted
  /-- nothing that a call has inserted is missing -/
  found : s.removing = false → ∀ c ∈ s.inserted, ∃ g ∈ s.res.root.toList, ∃ d,
    s.res.dexts g = some d ∧ d.deLen = c.len ∧ d.deHash = c.digest ∧
      ∀ e ∈ c.extents, ∃ x ∈ d.deExtents, x.eFile = e.eFile ∧ x.eLoff = e.eLoff
  kept : s.removing = false → s.res.freed = []
  order : ∀ g ∈ s.res.root.toList, ∀ d, s.res.dexts g = some d →
    d.deExtents = (InsertCall.membersAfter s.inserted g d.deHash d.deLen).filter
      fun e => decide (e ∉ s.res.freed)
  target : ∀ g ∈ s.res.root.toList, ∀ d, s.res.dexts g = some d →
    d.deExtents.head? = (InsertCall.membersAfter s.inserted g d.deHash d.deLen).find?
      fun e => decide (e ∉ s.res.freed)
  totals : s.Over → s.res.numDupes = s.res.root.toList.length ∧ s.res.numExtents =
    (s.res.root.toList.map fun g =>
      ((s.res.dexts g).map fun d => d.deExtents.length).getD 0).sum
  /-- at most two members before the removal: the group goes -/
  remove : s.Over → ∀ g ∈ s.res.root.toList, ∀ d, s.res.dexts g = some d → ∀ e ∈ d.deExtents,
    ∃ res ret, s.res.removeExtent B e = some (res, ret) ∧
      (ret = 0 ↔ res.dexts g = none ∧ g ∉ res.root.toList) ∧
      (ret = 0 ↔ d.deExtents.length ≤ 2) ∧
      (ret ≠ 0 → ∃ d', res.dexts g = some d' ∧ d'.deExtents = d.deExtents.erase e ∧
        ret = d'.deExtents.length) ∧
      ∀ a, a ≠ g → res.dexts a = s.res.dexts a
  free : s.Over → ∀ g ∈ s.res.root.toList,
    ∃ res, s.res.dupeExtentsFree B g = some res ∧ res.dexts g = none ∧ g ∉ res.root.toList ∧
      ∀ a, a ≠ g → res.dexts a = s.res.dexts a

variable {B : Balancing}

omit [DecidableEq ι] in
/-- The members are what the calls have brought, less what was removed. -/
theorem Inv.order (h : s.Inv) {g : ℕ} (hg : g ∈ s.res.root.toList) {d : LinkedDupes δ}
    (hd : s.res.dexts g = some d) :
    d.deExtents = (InsertCall.membersAfter s.inserted g d.deHash d.deLen).filter
      fun e => decide (e ∉ s.res.freed) := by
  have hkey : s.res.keyAt g = some (toLex (d.deLen, d.deHash)) :=
    congrArg (Option.map LinkedDupes.key) hd
  rw [← h.noted g hg _ _ hkey, List.filter_filter]
  refine (h.holds.group g hg d hd).order.trans (List.filter_congr fun e _ => ?_)
  rw [Bool.decide_and, Bool.and_comm]

omit [DecidableEq ι] in
theorem Inv.returned (h : s.Inv) {i : ι} {c : InsertCall δ}
    (hi : s.inserters i = .returned c 0) : c ∈ s.inserted := by
  have hself := h.inserter i
  rw [hi] at hself
  exact hself rfl

omit [DecidableEq ι] in
theorem Inv.found (h : s.Inv) (hphase : s.removing = false) {c : InsertCall δ}
    (hc : c ∈ s.inserted) : ∃ g ∈ s.res.root.toList, ∃ d, s.res.dexts g = some d ∧
      d.deLen = c.len ∧ d.deHash = c.digest ∧
        ∀ e ∈ c.extents, ∃ x ∈ d.deExtents, x.eFile = e.eFile ∧ x.eLoff = e.eLoff := by
  obtain ⟨g, hg, hkey⟩ := h.grouped hphase c hc
  obtain ⟨d, hd⟩ := h.holds.get hg
  rw [LockedResults.keyAt, hd, Option.map_some, Option.some.injEq, LinkedDupes.key,
    toLex.injective.eq_iff, Prod.mk.injEq] at hkey
  obtain ⟨hlen, hdigest⟩ := hkey
  refine ⟨g, hg, d, hd, hlen, hdigest, fun e he => ?_⟩
  obtain ⟨x, hx, hxe⟩ := InsertCall.exists_membersAfter hc g he
  refine ⟨x, ?_, Prod.mk.inj (toLex.injective hxe)⟩
  rw [h.order hg hd, hlen, hdigest, h.freed hphase]
  simpa using hx

omit [DecidableEq ι] in
theorem Inv.consistent (h : s.Inv) (B : Balancing) : s.Consistent B where
  live _ hg := h.holds.get hg
  one_group g hg g' hg' d d' hd hd' hlen hhash := by
    refine List.inj_on_of_nodup_map h.holds.sorted.keys_nodup hg hg' ?_
    rw [LockedResults.keyAt, LockedResults.keyAt, hd, hd', Option.map_some, Option.map_some,
      LinkedDupes.key, LinkedDupes.key, hlen, hhash]
  counts g hg d hd := by
    have hgroup := h.holds.group g hg d hd
    exact ⟨hgroup.count, hgroup.count.trans hgroup.tree.length_eq.symm,
      fun e => hgroup.tree.mem_iff⟩
  once g hg d hd := by
    have hgroup := h.holds.group g hg d hd
    have hkeys := (hgroup.tree.map fun e => some e.key).nodup_iff.mp hgroup.sorted.keys_nodup
    have hsplit : d.deExtents.map (fun e => some e.key) =
        (d.deExtents.map fun e => (e.eFile, e.eLoff)).map fun p => some (toLex p) := by
      rw [List.map_map]
      rfl
    exact (hsplit ▸ hkeys).of_map
  returned _ _ hi := h.returned hi
  found hphase _ hc := h.found hphase hc
  kept := h.freed
  order _ hg _ hd := h.order hg hd
  target g hg d hd := by rw [h.order hg hd, List.head?_filter]
  totals hover := ⟨h.holds.numDupes, (h.settled hover).1⟩
  remove hover g hg d hd e he := by
    obtain ⟨res, ⟨htwo, hremove, hfreed⟩ | ⟨htwo, hremove, hremoved⟩⟩ :=
      LockedResults.removeExtent_spec B h.holds (h.settled hover).1 hg hd he
    · have hgone : g ∉ res.root.toList := fun hmem => ((hfreed.root g).mp hmem).2 rfl
      exact ⟨res, 0, hremove, by simp [hfreed.gone, hgone], by simp [htwo],
        fun hne => absurd rfl hne, hfreed.other⟩
    · obtain ⟨d', hd', -, hlist⟩ := hremoved.left
      have hret : d.deExtents.length - 1 ≠ 0 := by omega
      refine ⟨res, _, hremove, by simp [hret, hd'], ?_, fun _ => ⟨d', hd', hlist, ?_⟩,
        hremoved.other⟩
      · exact iff_of_false hret (by omega)
      · rw [hlist, List.length_erase_of_mem he]
  free hover g hg := by
    obtain ⟨hcount, hfilled⟩ := h.settled hover
    obtain ⟨d, hd⟩ := h.holds.get hg
    obtain ⟨res, hfree, hfreed⟩ :=
      LockedResults.dupeExtentsFree_spec B h.holds hcount hg hd (hfilled g hg d hd)
    exact ⟨res, hfree, hfreed.gone, fun hmem => ((hfreed.root g).mp hmem).2 rfl, hfreed.other⟩

end Consistency

end ResultsRun

end Invariant

/-- A turn of a schedule: an inserter is called or goes on, with memory for a group at `new` if it
needs some, or the `k`-th member of a group is removed. -/
inductive Turn (ι δ : Type*)
  | call (i : ι) (c : {c : InsertCall δ // c.Called})
  | go (i : ι) (new : ℕ)
  | remove (g k : ℕ)

namespace ResultsRun

variable {ι δ : Type*} [Fintype ι] [DecidableEq ι] [LinearOrder δ] {B : Balancing}

instance (s : ResultsRun ι δ) : Decidable s.Over := inferInstanceAs (Decidable (∀ _, _))

def turn (B : Balancing) (s : ResultsRun ι δ) : Turn ι δ → Option (ResultsRun ι δ)
  | .call i c =>
    if s.removing = false ∧ ¬ (s.inserters i).Running then some (s.setInserter i (.finding c.val))
    else none
  | .go i new =>
    match s.inserters i with
    | .finding c => s.lookUp i c
    | .missing c =>
      match s.res.dexts new with
      | none => some ({ s with res := s.res.setDext new (some (.new c.digest c.len)) }.setInserter i
          (.made c new))
      | some _ => none
    | .made c new => s.lookUpAgain B i c new
    | .found c dext => s.insertMembers B i c dext
    | .counting c kept => some ({ s with res := { s.res with
        numExtents := s.res.numExtents + kept } }.setInserter i (.returned c 0))
    | _ => none
  | .remove g k =>
    if s.Over ∧ g ∈ s.res.root.toList then
      (s.res.dexts g).bind fun d => d.deExtents[k]?.bind fun e =>
        (s.res.removeExtent B e).map fun r => { s with res := r.1, removing := true }
    else none

theorem turn_step {s s' : ResultsRun ι δ} {t : Turn ι δ}
    (h : s.turn B t = some s') : Step B s (some s') := by
  cases t with
  | call i c =>
    simp only [turn] at h
    split_ifs at h with hcall
    exact h ▸ .call hcall.1 hcall.2 c.property
  | go i new =>
    simp only [turn] at h
    cases hi : s.inserters i with
    | idle => simp [hi] at h
    | returned c ret => simp [hi] at h
    | finding c => exact h ▸ hi ▸ .lookUp hi
    | missing c =>
      rw [hi] at h
      cases hfree : s.res.dexts new with
      | some d => simp [hfree] at h
      | none =>
        rw [hfree] at h
        exact h ▸ .makeGroup hi hfree
    | made c new =>
      rw [hi] at h
      exact h ▸ .lookUpAgain hi
    | found c dext =>
      rw [hi] at h
      exact h ▸ .insertMembers hi
    | counting c kept =>
      rw [hi] at h
      exact h ▸ .count hi
  | remove g k =>
    simp only [turn] at h
    split_ifs at h with hover
    obtain ⟨d, hd, h⟩ := Option.bind_eq_some_iff.mp h
    obtain ⟨e, he, h⟩ := Option.bind_eq_some_iff.mp h
    exact h ▸ .removeExtent hover.1 hover.2 hd (List.mem_of_getElem? he)

def play (B : Balancing) (s : ResultsRun ι δ) : List (Turn ι δ) → ResultsRun ι δ
  | [] => s
  | t :: ts =>
    match s.turn B t with
    | none => s
    | some s' => s'.play B ts

theorem play_reaches {s s' : ResultsRun ι δ} (h : Reaches B s (some s')) (ts : List (Turn ι δ)) :
    Reaches B s (some (s'.play B ts)) := by
  induction ts generalizing s' with
  | nil => exact h
  | cons t ts ih =>
    rw [play]
    split
    · exact h
    next hturn => exact ih (h.step (turn_step hturn))

def shown (s : ResultsRun ι δ) : List (Option (ℕ × δ × List (ℤ × ℕ))) :=
  s.res.root.toList.map fun g => (s.res.dexts g).map fun d =>
    (d.deLen, d.deHash, d.deExtents.map fun e => (e.eFile, e.eLoff))

end ResultsRun

end Oans
