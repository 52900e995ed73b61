import Oans.ResultsTree
import Oans.SearchTree

/-!
# The results tree under its locks

A group lives at an address: the tree links it, and its members are both in a list and in a tree
of their own. A function answers nothing where the code would read freed memory, abort or not
return. Each one keeps `Holds`, and the count of all members.
-/

namespace Oans

open SearchTree

def ENOMEM : ℕ := 12

structure LinkedExtent extends Extent where
  eParent : Option ℕ
  deriving DecidableEq, Repr

namespace LinkedExtent

def key (e : LinkedExtent) : ℤ ×ₗ ℕ := toLex (e.eFile, e.eLoff)

def alloc (file : ℤ) (loff : ℕ) : LinkedExtent := ⟨⟨file, loff, 0, 0⟩, none⟩

def memberOf (g : ℕ) (e : LinkedExtent) : LinkedExtent := { e with eParent := some g }

/-- What a list of members should become: the new one goes to the end, unless there is one at its
place in the file already. -/
def addMember (l : List LinkedExtent) (e : LinkedExtent) : List LinkedExtent :=
  if ∃ x ∈ l, x.key = e.key then l else l ++ [e]

theorem subset_addMember (l : List LinkedExtent) (e : LinkedExtent) : l ⊆ addMember l e := by
  unfold addMember
  split
  · exact List.Subset.refl l
  · exact List.subset_append_left l [e]

theorem exists_addMember (l : List LinkedExtent) (e : LinkedExtent) :
    ∃ x ∈ addMember l e, x.key = e.key := by
  unfold addMember
  split
  next h => exact h
  next h => exact ⟨e, List.mem_append_right _ (List.mem_singleton_self e), rfl⟩

theorem subset_foldl_addMember (es l : List LinkedExtent) : l ⊆ es.foldl addMember l := by
  induction es generalizing l with
  | nil => exact List.Subset.refl l
  | cons e es ih => exact List.Subset.trans (subset_addMember l e) (ih _)

theorem exists_foldl_addMember (es l : List LinkedExtent) {e : LinkedExtent} (he : e ∈ es) :
    ∃ x ∈ es.foldl addMember l, x.key = e.key := by
  induction es generalizing l with
  | nil => exact absurd he List.not_mem_nil
  | cons a es ih =>
    rcases List.mem_cons.mp he with rfl | he
    · obtain ⟨x, hx, hkey⟩ := exists_addMember l e
      exact ⟨x, subset_foldl_addMember es _ hx, hkey⟩
    · exact ih _ he

end LinkedExtent

structure LinkedDupes (δ : Type*) where
  deNumDupes : ℕ
  deLen : ℕ
  deHash : δ
  deExtents : List LinkedExtent
  deExtentsRoot : SearchTree LinkedExtent

namespace LinkedDupes

variable {δ : Type*}

def key (d : LinkedDupes δ) : ℕ ×ₗ δ := toLex (d.deLen, d.deHash)

def new (digest : δ) (len : ℕ) : LinkedDupes δ := ⟨0, len, digest, [], .leaf⟩

def link (B : Balancing) (d : LinkedDupes δ) (e : LinkedExtent) (root : SearchTree LinkedExtent) :
    LinkedDupes δ :=
  { d with
    deNumDupes := d.deNumDupes + 1
    deExtents := d.deExtents ++ [e]
    deExtentsRoot := B.run root }

def unlink (B : Balancing) (d : LinkedDupes δ) (e : LinkedExtent) : LinkedDupes δ :=
  { d with
    deNumDupes := d.deNumDupes - 1
    deExtents := d.deExtents.erase e
    deExtentsRoot := B.run (d.deExtentsRoot.erase e) }

end LinkedDupes

/-- `struct results_tree` and the memory its groups are in. What was linked into a group and what
was freed from one is noted, the code has neither. -/
structure LockedResults (δ : Type*) where
  root : SearchTree ℕ
  numDupes : ℕ
  numExtents : ℕ
  dexts : ℕ → Option (LinkedDupes δ)
  linked : List LinkedExtent
  freed : List LinkedExtent

namespace LockedResults

variable {δ : Type*}

/-- `init_results_tree()`. -/
def init : LockedResults δ := ⟨.leaf, 0, 0, fun _ => none, [], []⟩

def keyAt (s : LockedResults δ) (a : ℕ) : Option (ℕ ×ₗ δ) := (s.dexts a).map LinkedDupes.key

def setDext (s : LockedResults δ) (a : ℕ) (d : Option (LinkedDupes δ)) : LockedResults δ :=
  { s with dexts := Function.update s.dexts a d }

section Insertion

variable [LinearOrder δ]

def findDupeExtents (s : LockedResults δ) (digest : δ) (len : ℕ) : Option (Option ℕ) :=
  s.root.find s.keyAt (toLex (len, digest))

def insertDupeExtents (B : Balancing) (s : LockedResults δ) (dext : ℕ) :
    Option (LockedResults δ) :=
  (s.dexts dext).bind fun d => (s.root.insert s.keyAt d.key dext).bind fun root =>
    -- a group with this key already aborts
    root.map fun root => { s with root := B.run root, numDupes := s.numDupes + 1 }

def linkMember (B : Balancing) (s : LockedResults δ) (dext : ℕ) (d : LinkedDupes δ)
    (e : LinkedExtent) (root : SearchTree LinkedExtent) : LockedResults δ :=
  { s.setDext dext (some (d.link B e root)) with linked := s.linked ++ [e] }

/-- The tree, and whether the extent is linked now: if not it was freed. -/
def insertExtentListFree (B : Balancing) (s : LockedResults δ) (dext : ℕ) (e : LinkedExtent) :
    Option (LockedResults δ × Bool) :=
  (s.dexts dext).bind fun d =>
    let e := { e with eParent := some dext }
    (d.deExtentsRoot.insert (fun x => some x.key) e.key e).map fun root =>
      match root with
      | none => (s, false)
      | some root => (s.linkMember B dext d e root, true)

def insertExtents (B : Balancing) (dext : ℕ) :
    LockedResults δ → List LinkedExtent → Option (LockedResults δ × ℕ)
  | s, [] => some (s, 0)
  | s, e :: es => (s.insertExtentListFree B dext e).bind fun r =>
    (insertExtents B dext r.1 es).map fun r' => (r'.1, r'.2 + if r.2 then 1 else 0)

end Insertion

section Removal

def unlinkMember (B : Balancing) (s : LockedResults δ) (p : ℕ) (d : LinkedDupes δ)
    (e : LinkedExtent) : LockedResults δ :=
  { s.setDext p (some (d.unlink B e)) with
    numExtents := s.numExtents - 1
    freed := s.freed ++ [e] }

def freeGroup (B : Balancing) (s : LockedResults δ) (p : ℕ) : Option (LockedResults δ) :=
  if p ∈ s.root.toList then
    some { s.setDext p none with root := B.run (s.root.erase p), numDupes := s.numDupes - 1 }
  else none

/-- `remove_extent()` from `again:` on, for so many rounds at most. -/
def removeLoop (B : Balancing) (p : ℕ) :
    ℕ → LockedResults δ → LinkedExtent → Option (LockedResults δ × ℕ)
  | 0, _, _ => none
  | rounds + 1, s, e => (s.dexts p).bind fun d =>
    if e ∈ d.deExtents ∧ e ∈ d.deExtentsRoot.toList then
      let s := s.unlinkMember B p d e
      let d := d.unlink B e
      if d.deNumDupes = 1 then
        -- one extent is no list of duplicates; an empty tree aborts here
        d.deExtentsRoot.first.bind fun e => removeLoop B p rounds s e
      else if d.deNumDupes = 0 then (s.freeGroup B p).map fun s => (s, d.deNumDupes)
      else some (s, d.deNumDupes)
    else none

/-- Every round unlinks a member of the group, so there are no more rounds than members. -/
def removeExtent (B : Balancing) (s : LockedResults δ) (e : LinkedExtent) :
    Option (LockedResults δ × ℕ) :=
  e.eParent.bind fun p => (s.dexts p).bind fun d => removeLoop B p d.deExtents.length s e

def freeLoop (B : Balancing) (dext : ℕ) : ℕ → LockedResults δ → Option (LockedResults δ)
  | 0, _ => none
  | rounds + 1, s => (s.dexts dext).bind fun d => d.deExtentsRoot.first.bind fun e =>
    (s.removeExtent B e).bind fun r => if 0 < r.2 then freeLoop B dext rounds r.1 else some r.1

def dupeExtentsFree (B : Balancing) (s : LockedResults δ) (dext : ℕ) : Option (LockedResults δ) :=
  (s.dexts dext).bind fun d => freeLoop B dext d.deExtents.length s

def freeTreeLoop (B : Balancing) : ℕ → LockedResults δ → Option (LockedResults δ)
  | 0, s => if s.root.first = none then some s else none
  | rounds + 1, s =>
    match s.root.first with
    | none => some s
    | some de => (s.dupeExtentsFree B de).bind (freeTreeLoop B rounds)

def freeResultsTree (B : Balancing) (s : LockedResults δ) : Option (LockedResults δ) :=
  freeTreeLoop B s.root.toList.length s

end Removal

section Specs

variable {s s' : LockedResults δ} {g : ℕ} {d d' : LinkedDupes δ}

def linkedTo (s : LockedResults δ) (g : ℕ) : List LinkedExtent :=
  s.linked.filter fun e => decide (e.eParent = some g ∧ e ∉ s.freed)

def size (s : LockedResults δ) (g : ℕ) : ℕ := ((s.dexts g).map fun d => d.deExtents.length).getD 0

def members (s : LockedResults δ) : ℕ := (s.root.toList.map s.size).sum

structure GroupHolds (s : LockedResults δ) (g : ℕ) (d : LinkedDupes δ) : Prop where
  count : d.deNumDupes = d.deExtents.length
  tree : d.deExtentsRoot.toList.Perm d.deExtents
  sorted : Sorted (fun e => some (LinkedExtent.key e)) d.deExtentsRoot.toList
  order : d.deExtents = s.linkedTo g

variable [LinearOrder δ]

structure Holds (s : LockedResults δ) : Prop where
  sorted : Sorted s.keyAt s.root.toList
  group : ∀ g ∈ s.root.toList, ∀ d, s.dexts g = some d → s.GroupHolds g d
  owned : ∀ e ∈ s.linked, e ∉ s.freed → ∃ g ∈ s.root.toList, e.eParent = some g
  numDupes : s.numDupes = s.root.toList.length

omit [LinearOrder δ] in
theorem size_of_some (hd : s.dexts g = some d) : s.size g = d.deExtents.length := by
  rw [size, hd, Option.map_some, Option.getD_some]

theorem Holds.init : (init : LockedResults δ).Holds :=
  ⟨.nil, by simp [LockedResults.init], by simp [LockedResults.init], rfl⟩

theorem Holds.get (h : s.Holds) (hg : g ∈ s.root.toList) : ∃ d, s.dexts g = some d := by
  obtain ⟨k, hk⟩ := h.sorted.readable g hg
  obtain ⟨d, hd, -⟩ := Option.map_eq_some_iff.mp hk
  exact ⟨d, hd⟩

omit [LinearOrder δ] in
theorem GroupHolds.congr (h : s.GroupHolds g d) (hlinked : s'.linkedTo g = s.linkedTo g) :
    s'.GroupHolds g d :=
  ⟨h.count, h.tree, h.sorted, h.order.trans hlinked.symm⟩

omit [LinearOrder δ] in
theorem GroupHolds.nodup (h : s.GroupHolds g d) : d.deExtents.Nodup :=
  h.tree.nodup_iff.mp h.sorted.nodup

theorem sum_map_change {l : List ℕ} (hl : l.Nodup) (hg : g ∈ l) {f f' : ℕ → ℕ}
    (hother : ∀ a, a ≠ g → f' a = f a) : (l.map f').sum + f g = (l.map f).sum + f' g := by
  have hrest : (l.erase g).map f' = (l.erase g).map f :=
    List.map_congr_left fun a ha => hother a (hl.mem_erase_iff.mp ha).1
  rw [← List.sum_map_erase f' hg, ← List.sum_map_erase f hg, hrest]
  omega

/-- One group changes, and what was noted of others does not. -/
theorem Holds.change (h : s.Holds) (hg : g ∈ s.root.toList) (hd : s.dexts g = some d)
    (hroot : s'.root = s.root) (hdexts : s'.dexts = Function.update s.dexts g (some d'))
    (hnum : s'.numDupes = s.numDupes) (hkey : d'.key = d.key) (hgroup : s'.GroupHolds g d')
    (hlinked : ∀ a, a ≠ g → s'.linkedTo a = s.linkedTo a)
    (howned : ∀ e ∈ s'.linked, e ∉ s'.freed → e ∈ s.linked ∧ e ∉ s.freed ∨ e.eParent = some g) :
    s'.Holds ∧ s'.members + d.deExtents.length = s.members + d'.deExtents.length := by
  have hself : s'.dexts g = some d' := by rw [hdexts, Function.update_self]
  have hother : ∀ a, a ≠ g → s'.dexts a = s.dexts a := fun a ha => by
    rw [hdexts, Function.update_of_ne ha]
  constructor
  · refine ⟨?_, fun a ha b hb => ?_, fun e he hfreed => ?_, by rw [hnum, h.numDupes, hroot]⟩
    · rw [hroot]
      refine h.sorted.congr fun a _ => ?_
      by_cases hag : a = g
      · rw [hag, keyAt, keyAt, hself, hd, Option.map_some, Option.map_some, hkey]
      · rw [keyAt, keyAt, hother a hag]
    · rw [hroot] at ha
      by_cases hag : a = g
      · subst hag
        rw [hself, Option.some.injEq] at hb
        exact hb ▸ hgroup
      · rw [hother a hag] at hb
        exact (h.group a ha b hb).congr (hlinked a hag)
    · rw [hroot]
      rcases howned e he hfreed with ⟨hold, hnot⟩ | hpar
      · exact h.owned e hold hnot
      · exact ⟨g, hg, hpar⟩
  · have hsum := sum_map_change h.sorted.nodup hg fun a ha =>
      (show s'.size a = s.size a by rw [size, size, hother a ha])
    rw [size_of_some hd, size_of_some hself] at hsum
    rw [members, members, hroot]
    exact hsum

/-- Memory that no link of the tree leads to. -/
theorem Holds.setDext_of_not_mem (h : s.Holds) {a : ℕ} (ha : a ∉ s.root.toList)
    (o : Option (LinkedDupes δ)) : (s.setDext a o).Holds ∧ (s.setDext a o).members = s.members := by
  have hother : ∀ b ∈ s.root.toList, (s.setDext a o).dexts b = s.dexts b := by
    intro b hb
    refine Function.update_of_ne ?_ _ _
    rintro rfl
    exact ha hb
  refine ⟨⟨h.sorted.congr fun b hb => ?_, fun b hb e he => ?_, h.owned, h.numDupes⟩, ?_⟩
  · rw [keyAt, keyAt, hother b hb]
  · rw [hother b hb] at he
    exact (h.group b hb e he).congr rfl
  · exact congrArg List.sum (List.map_congr_left fun b hb => by rw [size, size, hother b hb])

end Specs

section InsertSpecs

variable {s s' s'' : LockedResults δ} {g : ℕ} [LinearOrder δ]

structure Extends (s s' : LockedResults δ) (g : ℕ) (es : List LinkedExtent) (n : ℕ) : Prop where
  holds : s'.Holds
  root : s'.root = s.root
  other : ∀ a, a ≠ g → s'.dexts a = s.dexts a
  filled : ∃ d d', s.dexts g = some d ∧ s'.dexts g = some d' ∧ d'.key = d.key ∧
    d'.deExtents = (es.map (.memberOf g)).foldl LinkedExtent.addMember d.deExtents
  numExtents : s'.numExtents = s.numExtents
  freed : s'.freed = s.freed
  members : s'.members = s.members + n

theorem Extends.trans {n m : ℕ} {es es' : List LinkedExtent} (h : Extends s s' g es n)
    (h' : Extends s' s'' g es' m) : Extends s s'' g (es ++ es') (n + m) where
  holds := h'.holds
  root := h'.root.trans h.root
  other a ha := (h'.other a ha).trans (h.other a ha)
  filled := by
    obtain ⟨d, d₁, hd, hd₁, hkey, hlist⟩ := h.filled
    obtain ⟨d₂, d', hd₂, hd', hkey', hlist'⟩ := h'.filled
    rw [hd₁, Option.some.injEq] at hd₂
    subst hd₂
    refine ⟨d, d', hd, hd', hkey'.trans hkey, ?_⟩
    rw [List.map_append, List.foldl_append, ← hlist, hlist']
  numExtents := h'.numExtents.trans h.numExtents
  freed := h'.freed.trans h.freed
  members := by rw [h'.members, h.members, add_assoc]

theorem Extends.keyAt_eq {n : ℕ} {es : List LinkedExtent} (h : Extends s s' g es n) (a : ℕ) :
    s'.keyAt a = s.keyAt a := by
  rw [keyAt, keyAt]
  by_cases ha : a = g
  · obtain ⟨d, d', hd, hd', hkey, -⟩ := h.filled
    rw [ha, hd, hd', Option.map_some, Option.map_some, hkey]
  · rw [h.other a ha]

theorem Extends.deExtents_ne_nil {n : ℕ} {es : List LinkedExtent} (h : Extends s s' g es n)
    (hne : es ≠ []) {d : LinkedDupes δ} (hd : s'.dexts g = some d) : d.deExtents ≠ [] := by
  obtain ⟨d₀, d', -, hd', -, hlist⟩ := h.filled
  obtain rfl := Option.some.inj (hd'.symm.trans hd)
  obtain ⟨e, he⟩ := List.exists_mem_of_ne_nil _ hne
  obtain ⟨x, hx, -⟩ := LinkedExtent.exists_foldl_addMember (es.map (.memberOf g)) d₀.deExtents
    (List.mem_map_of_mem he)
  exact List.ne_nil_of_mem (hlist ▸ hx)

omit [LinearOrder δ] in
theorem GroupHolds.link (B : Balancing) {d : LinkedDupes δ} (h : s.GroupHolds g d)
    (hfreed : s.freed = []) {e : LinkedExtent} (hpar : e.eParent = some g)
    {root : SearchTree LinkedExtent} {before after : List LinkedExtent}
    (hold : d.deExtentsRoot.toList = before ++ after) (hnew : root.toList = before ++ e :: after)
    (hlo : ∀ x ∈ before, ∃ k ∈ some x.key, k < e.key)
    (hhi : ∀ x ∈ after, ∃ k ∈ some x.key, e.key < k) :
    (s.linkMember B g d e root).GroupHolds g (d.link B e root) where
  count := by simp [LinkedDupes.link, h.count]
  tree := by
    have hperm := hold ▸ h.tree
    rw [LinkedDupes.link, Balancing.toList_run, hnew]
    exact List.perm_middle.trans ((hperm.cons e).trans (List.perm_append_singleton e _).symm)
  sorted := by
    have hsorted := hold ▸ h.sorted
    rw [LinkedDupes.link, Balancing.toList_run, hnew]
    exact hsorted.insert_between rfl hlo hhi
  order := by
    have hkeep : decide (e.eParent = some g ∧ e ∉ s.freed) = true := by simp [hpar, hfreed]
    simp only [LinkedDupes.link, linkMember, linkedTo, setDext, List.filter_append, h.order]
    rw [List.filter_singleton, hkeep]
    rfl

theorem insertExtentListFree_spec (B : Balancing) (h : s.Holds) (hg : g ∈ s.root.toList)
    (hfreed : s.freed = []) (e : LinkedExtent) :
    ∃ s' kept, s.insertExtentListFree B g e = some (s', kept) ∧
      Extends s s' g [e] (if kept = true then 1 else 0) := by
  obtain ⟨d, hd⟩ := h.get hg
  have hgroup := h.group g hg d hd
  obtain ⟨e', he'⟩ : ∃ e', e' = { e with eParent := some g } := ⟨_, rfl⟩
  have hpar : e'.eParent = some g := by rw [he']
  have hfold (l : List LinkedExtent) :
      ([e].map (.memberOf g)).foldl LinkedExtent.addMember l = LinkedExtent.addMember l e' := by
    rw [he']
    rfl
  simp only [insertExtentListFree, hd, Option.bind_some, ← he']
  rcases insert_spec hgroup.sorted (k := e'.key) (x := e') with
    ⟨⟨x, hx, hkey⟩, hins⟩ | ⟨root, before, after, hins, hold, hnew, hlo, hhi⟩
  · -- there is a member at this place already
    refine ⟨s, false, by rw [hins]; rfl, h, rfl, fun _ _ => rfl, ⟨d, d, hd, hd, rfl, ?_⟩, rfl, rfl,
      rfl⟩
    rw [hfold, LinkedExtent.addMember,
      if_pos ⟨x, hgroup.tree.mem_iff.mp hx, Option.some.inj hkey⟩]
  · have hother : ∀ a, a ≠ g → (s.linkMember B g d e' root).linkedTo a = s.linkedTo a := by
      intro a ha
      have hdrop : [e'].filter (fun e => decide (e.eParent = some a ∧ e ∉ s.freed)) = [] := by
        simp [hpar, ha.symm]
      exact (List.filter_append ..).trans ((congrArg _ hdrop).trans (List.append_nil _))
    have howned : ∀ x ∈ (s.linkMember B g d e' root).linked, x ∉ s.freed →
        x ∈ s.linked ∧ x ∉ s.freed ∨ x.eParent = some g := by
      intro x hx hnot
      rcases List.mem_append.mp hx with hx | hx
      · exact Or.inl ⟨hx, hnot⟩
      · rw [List.mem_singleton.mp hx]
        exact Or.inr hpar
    have hchange : (s.linkMember B g d e' root).Holds ∧
        (s.linkMember B g d e' root).members + d.deExtents.length =
          s.members + (d.link B e' root).deExtents.length :=
      h.change hg hd rfl rfl rfl rfl (hgroup.link B hfreed hpar hold hnew hlo hhi) hother howned
    obtain ⟨hholds, hmembers⟩ := hchange
    have hfresh : ¬ ∃ x ∈ d.deExtents, x.key = e'.key := by
      rintro ⟨x, hx, hkey⟩
      rw [← hgroup.tree.mem_iff, hold, List.mem_append] at hx
      rcases hx with hx | hx
      · obtain ⟨k, hk, hlt⟩ := hlo x hx
        exact absurd (Option.some.inj hk ▸ hkey) hlt.ne
      · obtain ⟨k, hk, hlt⟩ := hhi x hx
        exact absurd (Option.some.inj hk ▸ hkey) hlt.ne'
    have hlist : (d.link B e' root).deExtents =
        ([e].map (.memberOf g)).foldl LinkedExtent.addMember d.deExtents := by
      rw [hfold, LinkedExtent.addMember, if_neg hfresh, LinkedDupes.link]
    refine ⟨s.linkMember B g d e' root, true, by rw [hins]; rfl, hholds, rfl,
      fun a ha => Function.update_of_ne ha _ _,
      ⟨d, _, hd, Function.update_self .., rfl, hlist⟩, rfl, rfl, ?_⟩
    simp only [LinkedDupes.link, List.length_append, List.length_singleton] at hmembers
    simp only [if_true]
    omega

theorem insertExtents_spec (B : Balancing) (h : s.Holds) (hg : g ∈ s.root.toList)
    (hfreed : s.freed = []) (es : List LinkedExtent) :
    ∃ s' kept, insertExtents B g s es = some (s', kept) ∧ Extends s s' g es kept := by
  induction es generalizing s with
  | nil =>
    obtain ⟨d, hd⟩ := h.get hg
    exact ⟨s, 0, rfl, h, rfl, fun _ _ => rfl, ⟨d, d, hd, hd, rfl, rfl⟩, rfl, rfl, rfl⟩
  | cons e es ih =>
    obtain ⟨s₁, kept, hfirst, hext⟩ := insertExtentListFree_spec B h hg hfreed e
    obtain ⟨s', n, hrest, hext'⟩ := ih hext.holds (hext.root ▸ hg) (hext.freed.trans hfreed)
    simp only [insertExtents, hfirst, Option.bind_some, hrest]
    exact ⟨s', n + if kept = true then 1 else 0, rfl, Nat.add_comm _ n ▸ hext.trans hext'⟩

/-- A new group is linked in under a key that no group has. -/
theorem insertDupeExtents_spec (B : Balancing) (h : s.Holds) (hg : g ∉ s.root.toList) {digest : δ}
    {len : ℕ} (hd : s.dexts g = some (.new digest len))
    (hnone : ∀ a ∈ s.root.toList, s.keyAt a ≠ some (toLex (len, digest))) :
    ∃ s', s.insertDupeExtents B g = some s' ∧ s'.Holds ∧
      (∀ a, a ∈ s'.root.toList ↔ a = g ∨ a ∈ s.root.toList) ∧ s'.dexts = s.dexts ∧
        s'.numExtents = s.numExtents ∧ s'.linked = s.linked ∧ s'.freed = s.freed ∧
        s'.members = s.members := by
  have hkey : s.keyAt g = some (toLex (len, digest)) := by rw [keyAt, hd]; rfl
  simp only [insertDupeExtents, hd, Option.bind_some]
  rcases insert_spec h.sorted (k := toLex (len, digest)) (x := g) with
    ⟨⟨a, ha, hak⟩, -⟩ | ⟨root, before, after, hins, hold, hnew, hlo, hhi⟩
  · exact absurd hak (hnone a ha)
  · have hsorted : Sorted s.keyAt root.toList :=
      hnew ▸ (hold ▸ h.sorted).insert_between hkey hlo hhi
    have hmem : ∀ a, a ∈ root.toList ↔ a = g ∨ a ∈ s.root.toList := by
      intro a
      rw [hnew, hold, List.mem_append, List.mem_cons, List.mem_append]
      tauto
    refine ⟨{ s with root := B.run root, numDupes := s.numDupes + 1 }, ?_, ?_, ?_, rfl, rfl, rfl,
      rfl, ?_⟩
    · rw [show (LinkedDupes.new digest len).key = toLex (len, digest) from rfl, hins]
      rfl
    · refine ⟨by rwa [Balancing.toList_run], fun a ha d hda => ?_, fun e he hnot => ?_, ?_⟩
      · rw [Balancing.toList_run, hmem] at ha
        rcases ha with rfl | ha
        · -- nothing has been linked into the new group
          rw [hd, Option.some.injEq] at hda
          subst hda
          refine ⟨rfl, .refl _, .nil, (List.filter_eq_nil_iff.mpr fun e he hpar => ?_).symm⟩
          rw [decide_eq_true_eq] at hpar
          obtain ⟨b, hb, hbpar⟩ := h.owned e he hpar.2
          rw [hpar.1, Option.some.injEq] at hbpar
          exact hg (hbpar ▸ hb)
        · exact (h.group a ha d hda).congr rfl
      · obtain ⟨b, hb, hpar⟩ := h.owned e he hnot
        exact ⟨b, by rw [Balancing.toList_run, hmem]; exact Or.inr hb, hpar⟩
      · rw [Balancing.toList_run, hnew, h.numDupes, hold]
        simp only [List.length_append, List.length_cons]
        omega
    · intro a
      rw [Balancing.toList_run]
      exact hmem a
    · have hzero : s.size g = 0 := by rw [size, hd]; rfl
      change ((B.run root).toList.map s.size).sum = (s.root.toList.map s.size).sum
      rw [Balancing.toList_run, hnew, hold]
      simp [hzero]

end InsertSpecs

section RemoveSpecs

variable {s s' s'' : LockedResults δ} {g : ℕ} {d : LinkedDupes δ} {e : LinkedExtent}

theorem GroupHolds.mem (h : s.GroupHolds g d) (he : e ∈ d.deExtents) :
    e ∈ s.linked ∧ e.eParent = some g ∧ e ∉ s.freed := by
  rw [h.order, linkedTo, List.mem_filter, decide_eq_true_eq] at he
  exact he

theorem GroupHolds.unlink (B : Balancing) (h : s.GroupHolds g d) (he : e ∈ d.deExtents) :
    (s.unlinkMember B g d e).GroupHolds g (d.unlink B e) where
  count := by rw [LinkedDupes.unlink, h.count, List.length_erase_of_mem he]
  tree := by
    rw [LinkedDupes.unlink, Balancing.toList_run, toList_erase_of_nodup e h.sorted.nodup]
    exact h.tree.erase e
  sorted := by
    rw [LinkedDupes.unlink, Balancing.toList_run, toList_erase_of_nodup e h.sorted.nodup]
    exact h.sorted.sublist List.erase_sublist
  order := by
    rw [LinkedDupes.unlink, h.nodup.erase_eq_filter, h.order, linkedTo, List.filter_filter]
    refine List.filter_congr fun x _ => ?_
    by_cases hx : x = e <;> simp [hx, unlinkMember]

variable [LinearOrder δ]

theorem Holds.unlinkMember (B : Balancing) (h : s.Holds) (hg : g ∈ s.root.toList)
    (hd : s.dexts g = some d) (he : e ∈ d.deExtents) :
    (s.unlinkMember B g d e).Holds ∧ (s.unlinkMember B g d e).members + 1 = s.members := by
  have hgroup := h.group g hg d hd
  obtain ⟨-, hpar, -⟩ := hgroup.mem he
  have hother : ∀ a, a ≠ g → (s.unlinkMember B g d e).linkedTo a = s.linkedTo a := by
    intro a ha
    refine List.filter_congr fun x _ => decide_eq_decide.mpr (and_congr_right fun hx => ?_)
    have hne : x ≠ e := by
      rintro rfl
      exact ha (Option.some.inj (hx.symm.trans hpar))
    simp [LockedResults.unlinkMember, hne]
  have howned : ∀ x ∈ (s.unlinkMember B g d e).linked, x ∉ (s.unlinkMember B g d e).freed →
      x ∈ s.linked ∧ x ∉ s.freed ∨ x.eParent = some g :=
    fun x hx hnot => Or.inl ⟨hx, fun hfreed => hnot (List.mem_append_left _ hfreed)⟩
  have hchange : (s.unlinkMember B g d e).Holds ∧
      (s.unlinkMember B g d e).members + d.deExtents.length =
        s.members + (d.unlink B e).deExtents.length :=
    h.change hg hd rfl rfl rfl rfl (hgroup.unlink B he) hother howned
  obtain ⟨hholds, hmembers⟩ := hchange
  have hpos := List.length_pos_of_mem he
  rw [LinkedDupes.unlink, List.length_erase_of_mem he] at hmembers
  exact ⟨hholds, by omega⟩

structure GroupFreed (s s' : LockedResults δ) (g : ℕ) : Prop where
  holds : s'.Holds
  gone : s'.dexts g = none
  other : ∀ a, a ≠ g → s'.dexts a = s.dexts a
  root : ∀ a, a ∈ s'.root.toList ↔ a ∈ s.root.toList ∧ a ≠ g
  linked : s'.linked = s.linked
  counted : s'.numExtents = s'.members

theorem freeGroup_spec (B : Balancing) (h : s.Holds) (hcount : s.numExtents = s.members)
    (hg : g ∈ s.root.toList) (hd : s.dexts g = some d) (hnil : d.deExtents = []) :
    ∃ s', s.freeGroup B g = some s' ∧ GroupFreed s s' g := by
  have hgroup := h.group g hg d hd
  obtain ⟨s', hs'⟩ : ∃ s', s.freeGroup B g = some s' := ⟨_, if_pos hg⟩
  refine ⟨s', hs', ?_⟩
  rw [freeGroup, if_pos hg, Option.some.injEq] at hs'
  subst hs'
  have hlist : (B.run (s.root.erase g)).toList = s.root.toList.erase g := by
    rw [Balancing.toList_run, toList_erase_of_nodup g h.sorted.nodup]
  have hmem : ∀ a, a ∈ (B.run (s.root.erase g)).toList ↔ a ∈ s.root.toList ∧ a ≠ g := by
    intro a
    rw [hlist, h.sorted.nodup.mem_erase_iff, and_comm]
  have hother : ∀ a, a ≠ g → (s.setDext g none).dexts a = s.dexts a :=
    fun a ha => Function.update_of_ne ha _ _
  refine ⟨⟨?_, fun a ha b hb => ?_, fun x hx hnot => ?_, ?_⟩, Function.update_self .., hother, hmem,
    rfl, ?_⟩
  · rw [hlist]
    refine (h.sorted.sublist List.erase_sublist).congr fun a ha => ?_
    exact congrArg (Option.map LinkedDupes.key) (hother a (h.sorted.nodup.mem_erase_iff.mp ha).1)
  · obtain ⟨ha, hne⟩ := (hmem a).mp ha
    exact (h.group a ha b ((hother a hne).symm.trans hb)).congr rfl
  · -- the group had nothing linked into it any more
    obtain ⟨a, ha, hpar⟩ := h.owned x hx hnot
    refine ⟨a, (hmem a).mpr ⟨ha, ?_⟩, hpar⟩
    rintro rfl
    have hin : x ∈ s.linkedTo a := List.mem_filter.mpr ⟨hx, decide_eq_true ⟨hpar, hnot⟩⟩
    rw [← hgroup.order, hnil] at hin
    exact List.not_mem_nil hin
  · change s.numDupes - 1 = (B.run (s.root.erase g)).toList.length
    rw [hlist, h.numDupes, List.length_erase_of_mem hg]
  · have hsum := List.sum_map_erase s.size hg
    rw [size_of_some hd, hnil, List.length_nil, Nat.zero_add] at hsum
    refine hcount.trans (hsum.symm.trans ?_)
    change _ = ((B.run (s.root.erase g)).toList.map _).sum
    rw [hlist]
    refine congrArg List.sum (List.map_congr_left fun a ha => ?_)
    exact congrArg (fun o => (o.map fun d : LinkedDupes δ => d.deExtents.length).getD 0)
      (hother a (h.sorted.nodup.mem_erase_iff.mp ha).1).symm

theorem removeLoop_last (B : Balancing) (h : s.Holds) (hcount : s.numExtents = s.members)
    (hg : g ∈ s.root.toList) (hd : s.dexts g = some d) (hone : d.deExtents = [e]) (rounds : ℕ) :
    ∃ s', removeLoop B g (rounds + 1) s e = some (s', 0) ∧ GroupFreed s s' g := by
  have he : e ∈ d.deExtents := hone ▸ List.mem_singleton_self e
  have hgroup := h.group g hg d hd
  obtain ⟨hholds, hmembers⟩ := h.unlinkMember B hg hd he
  have hself : (s.unlinkMember B g d e).dexts g = some (d.unlink B e) := Function.update_self ..
  have hnil : (d.unlink B e).deExtents = [] := by simp [LinkedDupes.unlink, hone]
  have hnum : (d.unlink B e).deNumDupes = 0 := by rw [(hgroup.unlink B he).count, hnil]; rfl
  have hcount' : (s.unlinkMember B g d e).numExtents = (s.unlinkMember B g d e).members := by
    change s.numExtents - 1 = _
    omega
  obtain ⟨s', hfree, hfreed⟩ := freeGroup_spec B hholds hcount' hg hself hnil
  refine ⟨s', ?_, hfreed.holds, hfreed.gone, fun a ha => ?_, hfreed.root, hfreed.linked,
    hfreed.counted⟩
  · simp only [removeLoop, hd, Option.bind_some, if_pos (And.intro he (hgroup.tree.mem_iff.mpr he)),
      hnum, hfree, Option.map_some]
    rfl
  · exact (hfreed.other a ha).trans (Function.update_of_ne ha _ _)

structure MemberRemoved (s s' : LockedResults δ) (g : ℕ) (d : LinkedDupes δ) (e : LinkedExtent) :
    Prop where
  holds : s'.Holds
  left : ∃ d', s'.dexts g = some d' ∧ d'.key = d.key ∧ d'.deExtents = d.deExtents.erase e
  other : ∀ a, a ≠ g → s'.dexts a = s.dexts a
  root : s'.root = s.root
  linked : s'.linked = s.linked
  counted : s'.numExtents = s'.members

theorem removeExtent_spec (B : Balancing) (h : s.Holds) (hcount : s.numExtents = s.members)
    (hg : g ∈ s.root.toList) (hd : s.dexts g = some d) (he : e ∈ d.deExtents) :
    ∃ s', (d.deExtents.length ≤ 2 ∧ s.removeExtent B e = some (s', 0) ∧ GroupFreed s s' g) ∨
      (2 < d.deExtents.length ∧ s.removeExtent B e = some (s', d.deExtents.length - 1) ∧
        MemberRemoved s s' g d e) := by
  have hgroup := h.group g hg d hd
  obtain ⟨-, hpar, -⟩ := hgroup.mem he
  have hpos := List.length_pos_of_mem he
  obtain ⟨rounds, hrounds⟩ : ∃ n, d.deExtents.length = n + 1 := ⟨_, (Nat.sub_add_cancel hpos).symm⟩
  have hremove : s.removeExtent B e = removeLoop B g (rounds + 1) s e := by
    simp only [removeExtent, hpar, Option.bind_some, hd, hrounds]
  obtain ⟨hholds, hmembers⟩ := h.unlinkMember B hg hd he
  have hgroup' := hgroup.unlink B he
  have hself : (s.unlinkMember B g d e).dexts g = some (d.unlink B e) := Function.update_self ..
  have hcount' : (s.unlinkMember B g d e).numExtents = (s.unlinkMember B g d e).members := by
    change s.numExtents - 1 = _
    omega
  have hlen : (d.unlink B e).deExtents.length = rounds := by
    rw [LinkedDupes.unlink, List.length_erase_of_mem he, hrounds, Nat.add_sub_cancel]
  have hnum : (d.unlink B e).deNumDupes = rounds := hgroup'.count.trans hlen
  have hround : removeLoop B g (rounds + 1) s e =
      if rounds = 1 then (d.unlink B e).deExtentsRoot.first.bind fun e' =>
        removeLoop B g rounds (s.unlinkMember B g d e) e'
      else if rounds = 0 then ((s.unlinkMember B g d e).freeGroup B g).map fun s' => (s', rounds)
      else some (s.unlinkMember B g d e, rounds) := by
    simp only [removeLoop, hd, Option.bind_some,
      if_pos (And.intro he (hgroup.tree.mem_iff.mpr he)), hnum]
  obtain rfl | rfl | htwo : rounds = 0 ∨ rounds = 1 ∨ 2 ≤ rounds := by omega
  · -- it was the only one
    have hone : d.deExtents = [e] := by
      obtain ⟨x, hx⟩ := List.length_eq_one_iff.mp hrounds
      rw [hx, List.mem_singleton] at he
      rw [hx, he]
    obtain ⟨s', hloop, hfreed⟩ := removeLoop_last B h hcount hg hd hone 0
    exact ⟨s', Or.inl ⟨by omega, hremove.trans hloop, hfreed⟩⟩
  · -- the one that is left goes too
    obtain ⟨x, hx⟩ := List.length_eq_one_iff.mp hlen
    have htree := hgroup'.tree
    rw [hx, List.perm_singleton] at htree
    have hfirst : (d.unlink B e).deExtentsRoot.first = some x := by rw [first_eq, htree]; rfl
    obtain ⟨s', hloop, hfreed⟩ := removeLoop_last B hholds hcount' hg hself hx 0
    refine ⟨s', Or.inl ⟨by omega, ?_, hfreed.holds, hfreed.gone, fun a ha => ?_, hfreed.root,
      hfreed.linked, hfreed.counted⟩⟩
    · rw [hremove, hround, if_pos rfl, hfirst, Option.bind_some]
      exact hloop
    · exact (hfreed.other a ha).trans (Function.update_of_ne ha _ _)
  · refine ⟨s.unlinkMember B g d e, Or.inr ⟨by omega, ?_, hholds, ⟨_, hself, rfl, rfl⟩,
      fun a ha => Function.update_of_ne ha _ _, rfl, rfl, hcount'⟩⟩
    rw [hremove, hround, if_neg (by omega), if_neg (by omega), hrounds, Nat.add_sub_cancel]

theorem freeLoop_spec (B : Balancing) (rounds : ℕ) (h : s.Holds) (hcount : s.numExtents = s.members)
    (hg : g ∈ s.root.toList) (hd : s.dexts g = some d) (hne : d.deExtents ≠ [])
    (hrounds : d.deExtents.length ≤ rounds) :
    ∃ s', freeLoop B g rounds s = some s' ∧ GroupFreed s s' g := by
  induction rounds generalizing s d with
  | zero => exact absurd (List.length_eq_zero_iff.mp (Nat.le_zero.mp hrounds)) hne
  | succ rounds ih =>
    have hgroup := h.group g hg d hd
    obtain ⟨e, hfirst⟩ : ∃ e, d.deExtentsRoot.first = some e := by
      rw [first_eq, ← Option.isSome_iff_exists, List.isSome_head?]
      exact fun hnil => hne (List.nil_perm.mp (hnil ▸ hgroup.tree))
    have he : e ∈ d.deExtents := by
      rw [first_eq] at hfirst
      exact hgroup.tree.mem_iff.mp (List.mem_of_head? hfirst)
    simp only [freeLoop, hd, Option.bind_some, hfirst]
    obtain ⟨s₁, ⟨-, hremove, hfreed⟩ | ⟨htwo, hremove, hremoved⟩⟩ :=
      removeExtent_spec B h hcount hg hd he
    · rw [hremove]
      exact ⟨s₁, rfl, hfreed⟩
    · obtain ⟨d', hd', -, hlist⟩ := hremoved.left
      have hlen : d'.deExtents.length = d.deExtents.length - 1 := by
        rw [hlist, List.length_erase_of_mem he]
      have hne' : d'.deExtents ≠ [] := by
        rw [ne_eq, ← List.length_eq_zero_iff]
        omega
      obtain ⟨s', hloop, hfreed⟩ := ih hremoved.holds hremoved.counted (hremoved.root ▸ hg) hd' hne'
        (by omega)
      refine ⟨s', ?_, hfreed.holds, hfreed.gone, fun a ha => ?_, fun a => ?_,
        hfreed.linked.trans hremoved.linked, hfreed.counted⟩
      · rw [hremove, Option.bind_some, if_pos (by simp only; omega)]
        exact hloop
      · exact (hfreed.other a ha).trans (hremoved.other a ha)
      · rw [hfreed.root, hremoved.root]

theorem dupeExtentsFree_spec (B : Balancing) (h : s.Holds) (hcount : s.numExtents = s.members)
    (hg : g ∈ s.root.toList) (hd : s.dexts g = some d) (hne : d.deExtents ≠ []) :
    ∃ s', s.dupeExtentsFree B g = some s' ∧ GroupFreed s s' g := by
  rw [dupeExtentsFree, hd, Option.bind_some]
  exact freeLoop_spec B _ h hcount hg hd hne le_rfl

def Filled (s : LockedResults δ) : Prop :=
  ∀ g ∈ s.root.toList, ∀ d, s.dexts g = some d → d.deExtents ≠ []

theorem GroupFreed.filled (h : GroupFreed s s' g) (hfilled : s.Filled) : s'.Filled := by
  intro a ha d hd
  obtain ⟨ha, hne⟩ := (h.root a).mp ha
  exact hfilled a ha d ((h.other a hne).symm.trans hd)

theorem MemberRemoved.filled (h : MemberRemoved s s' g d e) (he : e ∈ d.deExtents)
    (htwo : 2 < d.deExtents.length) (hfilled : s.Filled) : s'.Filled := by
  intro a ha d' hd'
  obtain ⟨d₁, hd₁, -, hlist⟩ := h.left
  rcases eq_or_ne a g with rfl | hne
  · rw [hd₁, Option.some.injEq] at hd'
    rw [← hd', hlist, ne_eq, ← List.length_eq_zero_iff, List.length_erase_of_mem he]
    omega
  · exact hfilled a (h.root ▸ ha) d' ((h.other a hne).symm.trans hd')

theorem freeTreeLoop_spec (B : Balancing) (rounds : ℕ) (h : s.Holds)
    (hcount : s.numExtents = s.members) (hfilled : s.Filled)
    (hrounds : s.root.toList.length ≤ rounds) :
    ∃ s', freeTreeLoop B rounds s = some s' ∧ s'.Holds ∧ s'.numExtents = s'.members ∧
      s'.root.toList = [] := by
  induction rounds generalizing s with
  | zero =>
    have hnil := List.length_eq_zero_iff.mp (Nat.le_zero.mp hrounds)
    have hfirst : s.root.first = none := by rw [first_eq, hnil]; rfl
    exact ⟨s, if_pos hfirst, h, hcount, hnil⟩
  | succ rounds ih =>
    rcases hlist : s.root.toList with _ | ⟨g, gs⟩
    · have hfirst : s.root.first = none := by rw [first_eq, hlist]; rfl
      exact ⟨s, by simp only [freeTreeLoop, hfirst], h, hcount, hlist⟩
    · have hfirst : s.root.first = some g := by rw [first_eq, hlist]; rfl
      have hg : g ∈ s.root.toList := hlist ▸ List.mem_cons_self
      obtain ⟨d, hd⟩ := h.get hg
      obtain ⟨s₁, hfree, hfreed⟩ := dupeExtentsFree_spec B h hcount hg hd (hfilled g hg d hd)
      have hlen : s₁.root.toList.length ≤ rounds := by
        have hsub : s₁.root.toList ⊆ s.root.toList.erase g := fun a ha =>
          h.sorted.nodup.mem_erase_iff.mpr ((hfreed.root a).mp ha).symm
        have hle := (hfreed.holds.sorted.nodup.subperm hsub).length_le
        rw [List.length_erase_of_mem hg] at hle
        omega
      obtain ⟨s', hloop, hrest⟩ := ih hfreed.holds hfreed.counted (hfreed.filled hfilled) hlen
      refine ⟨s', ?_, hrest⟩
      simp only [freeTreeLoop, hfirst, hfree, Option.bind_some]
      exact hloop

theorem freeResultsTree_spec (B : Balancing) (h : s.Holds) (hcount : s.numExtents = s.members)
    (hfilled : s.Filled) :
    ∃ s', s.freeResultsTree B = some s' ∧ s'.Holds ∧ s'.numExtents = s'.members ∧
      s'.root.toList = [] :=
  freeTreeLoop_spec B _ h hcount hfilled le_rfl

end RemoveSpecs

end LockedResults

end Oans
