import Mathlib.Tactic

/-!
# The results tree

Groups of equal content waiting to be deduplicated, keyed by (length, digest). A group lists its
members in insertion order; its first member is the dedupe target. The red-black trees only serve
lookups, so a group is found by its key and a member by its (file, offset).
-/

namespace Oans

def wrap64 (n : ℕ) : ℕ := n % 2 ^ 64

structure Extent where
  eFile : ℤ
  eLoff : ℕ
  ePoff : ℕ
  ePlen : ℕ
  deriving DecidableEq, Repr

structure DupeExtents (δ : Type*) where
  deNumDupes : ℕ
  deLen : ℕ
  deHash : δ
  deExtents : List Extent
  deriving DecidableEq, Repr

namespace DupeExtents

variable {δ : Type*}

/-- What `find_dupe_extents` compares: length first, then digest. -/
def key (g : DupeExtents δ) : ℕ × δ := (g.deLen, g.deHash)

def new (digest : δ) (len : ℕ) : DupeExtents δ := ⟨0, len, digest, []⟩

/-- `insert_extent_rb` refuses a member whose (file, offset) is already there. -/
def hasExtent (g : DupeExtents δ) (e : Extent) : Bool :=
  g.deExtents.any fun x => decide (x.eFile = e.eFile ∧ x.eLoff = e.eLoff)

def insertExtentListFree (g : DupeExtents δ) (e : Extent) : DupeExtents δ :=
  if g.hasExtent e then g
  else { g with deNumDupes := g.deNumDupes + 1, deExtents := g.deExtents ++ [e] }

@[simp] theorem key_new (digest : δ) (len : ℕ) : (new digest len).key = (len, digest) := rfl

@[simp] theorem key_insertExtentListFree (g : DupeExtents δ) (e : Extent) :
    (g.insertExtentListFree e).key = g.key := by
  unfold insertExtentListFree
  split <;> rfl

end DupeExtents

structure ResultsTree (δ : Type*) where
  groups : List (DupeExtents δ)
  numDupes : ℕ
  numExtents : ℕ
  keys_nodup : (groups.map DupeExtents.key).Nodup

namespace ResultsTree

variable {δ : Type*}

/-- `init_results_tree`. -/
def init : ResultsTree δ := ⟨[], 0, 0, List.nodup_nil⟩

variable [DecidableEq δ]

def findDupeExtents (res : ResultsTree δ) (digest : δ) (len : ℕ) : Option (DupeExtents δ) :=
  res.groups.find? fun g => decide (g.key = (len, digest))

def members (res : ResultsTree δ) (digest : δ) (len : ℕ) : List Extent :=
  ((res.findDupeExtents digest len).map DupeExtents.deExtents).getD []

theorem findDupeExtents_eq_none {res : ResultsTree δ} {digest : δ} {len : ℕ} :
    res.findDupeExtents digest len = none ↔ (len, digest) ∉ res.groups.map DupeExtents.key := by
  simp only [findDupeExtents, List.find?_eq_none, decide_eq_true_eq, List.mem_map, not_exists,
    not_and]

/-- Keys are unique, so a group of the tree is the one its key finds. -/
theorem findDupeExtents_of_mem {res : ResultsTree δ} {g : DupeExtents δ} (hg : g ∈ res.groups) :
    res.findDupeExtents g.deHash g.deLen = some g := by
  obtain ⟨groups, _, _, hnodup⟩ := res
  simp only [findDupeExtents] at hg ⊢
  induction groups with
  | nil => simp at hg
  | cons x xs ih =>
    rw [List.map_cons, List.nodup_cons] at hnodup
    rcases List.mem_cons.mp hg with rfl | hg
    · simp [DupeExtents.key]
    · have hx : x.key ≠ (g.deLen, g.deHash) := fun he =>
        hnodup.1 (he ▸ List.mem_map_of_mem (f := DupeExtents.key) hg)
      rw [List.find?_cons_of_neg (by simpa using hx)]
      exact ih hnodup.2 hg

theorem members_of_mem {res : ResultsTree δ} {g : DupeExtents δ} (hg : g ∈ res.groups) :
    res.members g.deHash g.deLen = g.deExtents := by
  simp [members, findDupeExtents_of_mem hg]

def findAllocDext (res : ResultsTree δ) (digest : δ) (len : ℕ) : ResultsTree δ :=
  match h : res.findDupeExtents digest len with
  | some _ => res
  | none =>
    { groups := res.groups ++ [.new digest len]
      numDupes := res.numDupes + 1
      numExtents := res.numExtents
      keys_nodup := by
        rw [List.map_append, List.map_singleton, List.nodup_append]
        refine ⟨res.keys_nodup, List.nodup_singleton _, ?_⟩
        intro a ha b hb hab
        rw [List.mem_singleton, DupeExtents.key_new] at hb
        exact findDupeExtents_eq_none.mp h (hb ▸ hab ▸ ha) }

def insertOneResult (res : ResultsTree δ) (digest : δ) (file : ℤ) (startoff len poff : ℕ) :
    ResultsTree δ :=
  let extent : Extent := ⟨file, startoff, poff, len⟩
  let known := (res.findDupeExtents digest len).any fun g => g.hasExtent extent
  let res := res.findAllocDext digest len
  { groups := res.groups.map fun g =>
      if g.key = (len, digest) then g.insertExtentListFree extent else g
    numDupes := res.numDupes
    numExtents := if known then res.numExtents else res.numExtents + 1
    keys_nodup := by
      have hkeys : (DupeExtents.key ∘ fun g : DupeExtents δ =>
          if g.key = (len, digest) then g.insertExtentListFree extent else g) = DupeExtents.key := by
        funext g
        simp only [Function.comp_apply]
        split <;> simp
      rw [List.map_map, hkeys]
      exact res.keys_nodup }

theorem findDupeExtents_findAllocDext (res : ResultsTree δ) (digest : δ) (len : ℕ) :
    (res.findAllocDext digest len).findDupeExtents digest len =
      some ((res.findDupeExtents digest len).getD (.new digest len)) := by
  unfold findAllocDext
  split
  next g h => rw [h, Option.getD_some]
  next h =>
    have hfind : (res.groups ++ [DupeExtents.new digest len]).find?
        (fun g => decide (g.key = (len, digest))) = some (.new digest len) := by
      rw [List.find?_append]
      change (res.findDupeExtents digest len).or _ = _
      simp [h]
    simp only [h, Option.getD_none]
    exact hfind

theorem findDupeExtents_findAllocDext_of_ne (res : ResultsTree δ) {digest digest' : δ}
    {len len' : ℕ} (hne : (len', digest') ≠ (len, digest)) :
    (res.findAllocDext digest len).findDupeExtents digest' len' =
      res.findDupeExtents digest' len' := by
  unfold findAllocDext
  split
  · rfl
  · rw [findDupeExtents, List.find?_append]
    change (res.findDupeExtents digest' len').or _ = _
    simp [hne.symm]

theorem findDupeExtents_insertOneResult (res : ResultsTree δ) (digest digest' : δ) (file : ℤ)
    (startoff len len' poff : ℕ) :
    (res.insertOneResult digest file startoff len poff).findDupeExtents digest' len' =
      ((res.findAllocDext digest len).findDupeExtents digest' len').map fun g =>
        if g.key = (len, digest) then g.insertExtentListFree ⟨file, startoff, poff, len⟩ else g := by
  have hkey (g : DupeExtents δ) :
      (if g.key = (len, digest) then g.insertExtentListFree ⟨file, startoff, poff, len⟩
        else g).key = g.key := by
    split <;> simp
  simp only [findDupeExtents, insertOneResult, List.find?_map, Function.comp_def, hkey]

theorem members_insertOneResult_of_ne (res : ResultsTree δ) {digest digest' : δ} (file : ℤ)
    (startoff : ℕ) {len len' : ℕ} (poff : ℕ) (hne : (len', digest') ≠ (len, digest)) :
    (res.insertOneResult digest file startoff len poff).members digest' len' =
      res.members digest' len' := by
  unfold members
  rw [findDupeExtents_insertOneResult, findDupeExtents_findAllocDext_of_ne res hne, Option.map_map]
  cases h : res.findDupeExtents digest' len' with
  | none => rfl
  | some g =>
    have hkey : g.key = (len', digest') := by simpa using List.find?_some h
    simp [hkey, hne]

/-- Within its group a member goes to the end of the list, once per (file, offset). -/
theorem members_insertOneResult (res : ResultsTree δ) (digest : δ) (file : ℤ)
    (startoff len poff : ℕ) :
    (res.insertOneResult digest file startoff len poff).members digest len =
      if ∃ x ∈ res.members digest len, x.eFile = file ∧ x.eLoff = startoff then
        res.members digest len
      else res.members digest len ++ [⟨file, startoff, poff, len⟩] := by
  unfold members
  rw [findDupeExtents_insertOneResult, findDupeExtents_findAllocDext]
  cases h : res.findDupeExtents digest len with
  | none => simp [DupeExtents.insertExtentListFree, DupeExtents.hasExtent, DupeExtents.new,
      DupeExtents.key]
  | some g =>
    have hkey : g.key = (len, digest) := by simpa using List.find?_some h
    simp only [Option.getD_some, Option.map_some, hkey, if_true, DupeExtents.insertExtentListFree,
      DupeExtents.hasExtent, List.any_eq_true, decide_eq_true_eq]
    split <;> rfl

def insertAll (res : ResultsTree δ) (l : List (δ × Extent)) : ResultsTree δ :=
  l.foldl (fun res a => res.insertOneResult a.1 a.2.eFile a.2.eLoff a.2.ePlen a.2.ePoff) res

/-- Inserting members at distinct places appends those of each group, in order, to that group. -/
theorem members_insertAll (k : δ × ℕ) (l : List (δ × Extent)) (res : ResultsTree δ)
    (hl : ((l.filter fun a => decide ((a.1, a.2.ePlen) = k)).map
      fun a => (a.2.eFile, a.2.eLoff)).Nodup)
    (hfresh : ∀ e ∈ res.members k.1 k.2, (e.eFile, e.eLoff) ∉
      (l.filter fun a => decide ((a.1, a.2.ePlen) = k)).map fun a => (a.2.eFile, a.2.eLoff)) :
    (res.insertAll l).members k.1 k.2 =
      res.members k.1 k.2 ++ (l.filter fun a => decide ((a.1, a.2.ePlen) = k)).map Prod.snd := by
  induction l generalizing res with
  | nil => simp [insertAll]
  | cons a l ih =>
    rw [insertAll, List.foldl_cons, ← insertAll]
    by_cases hk : (a.1, a.2.ePlen) = k
    · subst hk
      simp only [decide_true, List.filter_cons_of_pos, List.map_cons, List.nodup_cons] at hl hfresh ⊢
      have hnew : ¬ ∃ x ∈ res.members a.1 a.2.ePlen, x.eFile = a.2.eFile ∧ x.eLoff = a.2.eLoff := by
        rintro ⟨x, hx, hfile, hloff⟩
        exact hfresh x hx (by rw [hfile, hloff]; exact List.mem_cons_self)
      have hstep := (members_insertOneResult res a.1 a.2.eFile a.2.eLoff a.2.ePlen a.2.ePoff).trans
        (if_neg hnew)
      rw [ih _ hl.2, hstep, List.append_assoc, List.singleton_append]
      intro e he
      rw [hstep, List.mem_append, List.mem_singleton] at he
      rcases he with he | rfl
      · exact fun hmem => hfresh e he (List.mem_cons_of_mem _ hmem)
      · exact hl.1
    · have hstep : (res.insertOneResult a.1 a.2.eFile a.2.eLoff a.2.ePlen a.2.ePoff).members k.1 k.2 =
          res.members k.1 k.2 := by
        refine members_insertOneResult_of_ne res a.2.eFile a.2.eLoff a.2.ePoff fun he => hk ?_
        exact Prod.ext (congrArg Prod.snd he).symm (congrArg Prod.fst he).symm
      rw [List.filter_cons_of_neg (by simpa using hk)] at hl hfresh ⊢
      rw [ih _ hl (by rw [hstep]; exact hfresh), hstep]

def NoEmptyGroup (res : ResultsTree δ) : Prop := ∀ g ∈ res.groups, g.deExtents ≠ []

theorem mem_groups_findAllocDext {res : ResultsTree δ} {digest : δ} {len : ℕ} {g : DupeExtents δ}
    (hg : g ∈ (res.findAllocDext digest len).groups) : g ∈ res.groups ∨ g = .new digest len := by
  unfold findAllocDext at hg
  split at hg
  · exact Or.inl hg
  · simpa using hg

theorem NoEmptyGroup.insertOneResult {res : ResultsTree δ} (h : res.NoEmptyGroup) (digest : δ)
    (file : ℤ) (startoff len poff : ℕ) :
    (res.insertOneResult digest file startoff len poff).NoEmptyGroup := by
  intro g hg
  obtain ⟨g', hg', rfl⟩ := List.mem_map.mp hg
  split
  · unfold DupeExtents.insertExtentListFree
    split
    · next hhas => rintro hnil; simp [DupeExtents.hasExtent, hnil] at hhas
    · simp
  · next hkey =>
    rcases mem_groups_findAllocDext hg' with hold | rfl
    · exact h g' hold
    · exact absurd rfl hkey

theorem NoEmptyGroup.insertAll {res : ResultsTree δ} (h : res.NoEmptyGroup)
    (l : List (δ × Extent)) : (res.insertAll l).NoEmptyGroup := by
  induction l generalizing res with
  | nil => exact h
  | cons a l ih => exact ih (h.insertOneResult _ _ _ _ _)

def Counted (res : ResultsTree δ) : Prop := ∀ g ∈ res.groups, g.deNumDupes = g.deExtents.length

theorem Counted.insertOneResult {res : ResultsTree δ} (h : res.Counted) (digest : δ) (file : ℤ)
    (startoff len poff : ℕ) : (res.insertOneResult digest file startoff len poff).Counted := by
  intro g hg
  obtain ⟨g', hg', rfl⟩ := List.mem_map.mp hg
  have hold : g'.deNumDupes = g'.deExtents.length := by
    rcases mem_groups_findAllocDext hg' with hold | rfl
    · exact h g' hold
    · rfl
  split
  · unfold DupeExtents.insertExtentListFree
    split
    · exact hold
    · simp [hold]
  · exact hold

theorem Counted.insertAll {res : ResultsTree δ} (h : res.Counted) (l : List (δ × Extent)) :
    (res.insertAll l).Counted := by
  induction l generalizing res with
  | nil => exact h
  | cons a l ih => exact ih (h.insertOneResult _ _ _ _ _)

end ResultsTree

def dextWork {δ : Type*} (g : DupeExtents δ) : ℕ := g.deLen * (g.deNumDupes - 1)

namespace ResultsTree

variable {δ : Type*} [DecidableEq δ]

theorem members_eq_nil {res : ResultsTree δ} {digest : δ} {len : ℕ}
    (h : (len, digest) ∉ res.groups.map DupeExtents.key) : res.members digest len = [] := by
  simp [members, findDupeExtents_eq_none.mpr h]

/-- A sum over distinct keys does not see keys that add nothing. -/
theorem sum_map_of_subset {κ : Type*} [DecidableEq κ] {keys all : List κ} {f : κ → ℕ}
    (hkeys : keys.Nodup) (hall : all.Nodup) (hsub : keys ⊆ all)
    (hzero : ∀ k ∈ all, k ∉ keys → f k = 0) : (keys.map f).sum = (all.map f).sum := by
  rw [← List.sum_toFinset _ hkeys, ← List.sum_toFinset _ hall]
  refine Finset.sum_subset (fun k hk => ?_) fun k hk hnot => ?_
  · exact List.mem_toFinset.mpr (hsub (List.mem_toFinset.mp hk))
  · exact hzero k (List.mem_toFinset.mp hk) fun h => hnot (List.mem_toFinset.mpr h)

/-- The work of a tree, group key by group key over any keys that cover its groups. -/
theorem sum_dextWork {res : ResultsTree δ} (h : res.Counted) {keys : List (δ × ℕ)}
    (hnodup : keys.Nodup) (hkeys : ∀ g ∈ res.groups, (g.deHash, g.deLen) ∈ keys) :
    (res.groups.map dextWork).sum =
      (keys.map fun k => k.2 * ((res.members k.1 k.2).length - 1)).sum := by
  have hwork : res.groups.map dextWork = (res.groups.map fun g => (g.deHash, g.deLen)).map
      fun k => k.2 * ((res.members k.1 k.2).length - 1) := by
    rw [List.map_map]
    refine List.map_congr_left fun g hg => ?_
    simp [dextWork, h g hg, members_of_mem hg]
  have hgroups : (res.groups.map fun g => (g.deHash, g.deLen)).Nodup := by
    have hswap : res.groups.map (fun g => (g.deHash, g.deLen)) =
        (res.groups.map DupeExtents.key).map Prod.swap := by
      rw [List.map_map]
      rfl
    rw [hswap]
    exact res.keys_nodup.map Prod.swap_injective
  rw [hwork]
  refine sum_map_of_subset hgroups hnodup (fun k hk => ?_) fun k _ hk => ?_
  · obtain ⟨g, hg, rfl⟩ := List.mem_map.mp hk
    exact hkeys g hg
  · rw [members_eq_nil, List.length_nil, Nat.zero_sub, mul_zero]
    intro hmem
    obtain ⟨g, hg, hgk⟩ := List.mem_map.mp hmem
    refine hk (List.mem_map.mpr ⟨g, hg, ?_⟩)
    exact Prod.ext (congrArg Prod.snd hgk) (congrArg Prod.fst hgk)

end ResultsTree

end Oans
