import Oans.FiemapShare
import Oans.SortedCells

/-!
# Space freed, counted once

`fiemap_unshared_bytes()` says how much storage deduplicating a destination would release, and
adds the destination's addresses to the set of those a group has accounted for. Over any sequence
of destinations the set stays sorted without repetition, and a destination is credited only for
records whose address was not in it.
-/

namespace Oans

open SortedCells

/-- `struct fiemap_phys_set`; the first `n` cells are in use and `cap` are allocated. -/
structure PhysSet where
  v : ℕ → ℕ
  n : ℕ
  cap : ℕ

def sortUniq (v : ℕ → ℕ) (n : ℕ) : (ℕ → ℕ) × ℕ :=
  if n < 2 then (v, n) else compact (sortCells v n) n

def pushCell (cells : (ℕ → ℕ) × ℕ) (address : ℕ) : (ℕ → ℕ) × ℕ :=
  (Function.update cells.1 cells.2 address, cells.2 + 1)

def PhysSet.mem (set : PhysSet) (address : ℕ) : Bool := search set.v set.n address

def PhysSet.empty : PhysSet := ⟨fun _ => 0, 0, 0⟩

/-- `fiemap_phys_set_init()`; `alloc` says whether the array could be allocated. -/
def physSetInit (fm : Option Fiemap) (alloc : Bool) : PhysSet :=
  match fm with
  | none => .empty
  | some fm =>
    if fm.fmExtents.length = 0 ∨ alloc = false then .empty
    else
      let cells := fm.fmExtents.foldl
        (fun cells e => if e.addressable then pushCell cells e.fePhysical else cells)
        (fun _ => 0, 0)
      let (v, n) := sortUniq cells.1 cells.2
      ⟨v, n, fm.fmExtents.length⟩

def growCap (need : ℕ) : ℕ → ℕ → ℕ
  | 0, cap => cap
  | fuel + 1, cap => if cap < need then growCap need fuel (cap * 2) else cap

/-- `phys_set_merge()`; `alloc` says whether the array could grow. -/
def PhysSet.merge (set : PhysSet) (add : ℕ → ℕ) (nAdd : ℕ) (alloc : Bool) : PhysSet :=
  if nAdd = 0 then set
  else if set.cap < set.n + nAdd ∧ alloc = false then set
  else
    let cap :=
      if set.cap < set.n + nAdd then
        growCap (set.n + nAdd) (set.n + nAdd) (if set.cap ≠ 0 then set.cap else 16)
      else set.cap
    let (v, n) := compact (mergeCells set.v set.n add nAdd) (set.n + nAdd)
    ⟨v, n, cap⟩

def FiemapExtent.inRange (e : FiemapExtent) (off len : ℕ) : ℕ :=
  min e.feEnd (off + len) - max e.feLogical off

structure Destination where
  dm : Option Fiemap
  destOff : ℕ
  len : ℕ
  allocFresh : Bool
  allocGrow : Bool

def unsharedLoop (seen : PhysSet) (d : Destination) :
    List FiemapExtent → ℕ → (ℕ → ℕ) × ℕ → ℕ × (ℕ → ℕ) × ℕ
  | [], unshared, fresh => (unshared, fresh)
  | e :: es, unshared, fresh =>
    let start := if d.destOff < e.feLogical then e.feLogical else d.destOff
    let stop := if d.destOff + d.len < e.feEnd then d.destOff + d.len else e.feEnd
    if stop ≤ start then unsharedLoop seen d es unshared fresh
    else if e.addressable = true ∧ seen.n ≠ 0 ∧ seen.mem e.fePhysical = true then
      unsharedLoop seen d es unshared fresh
    else
      unsharedLoop seen d es (unshared + (stop - start))
        (if e.addressable = true ∧ d.allocFresh = true then pushCell fresh e.fePhysical else fresh)

def fiemapUnsharedBytes (seen : PhysSet) (d : Destination) : ℕ × PhysSet :=
  match d.dm with
  | none => (d.len, seen)
  | some dm =>
    let (unshared, fresh) := unsharedLoop seen d dm.fmExtents 0 (fun _ => 0, 0)
    if d.allocFresh = true then
      let (add, nAdd) := sortUniq fresh.1 fresh.2
      (unshared, seen.merge add nAdd d.allocGrow)
    else (unshared, seen)

def PhysSet.after (set : PhysSet) (ds : List Destination) : PhysSet :=
  ds.foldl (fun set d => (fiemapUnsharedBytes set d).2) set

namespace PhysSet

def Has (set : PhysSet) (address : ℕ) : Prop := Cell set.v 0 set.n address

instance (set : PhysSet) (address : ℕ) : Decidable (set.Has address) :=
  decidable_of_iff (∃ i, i < set.n ∧ set.v i = address) (by simp [Has, Cell])

def Credits (set : PhysSet) (d : Destination) (address : ℕ) : Prop :=
  ∃ dm, d.dm = some dm ∧ ∃ e ∈ dm.fmExtents, 0 < e.inRange d.destOff d.len ∧
    e.addressable = true ∧ e.fePhysical = address ∧ ¬ set.Has address

/-- The bytes of the destination's records without an address in the set; all of the range when
there is no map of it. -/
def unseenBytes (set : PhysSet) (d : Destination) : ℕ :=
  match d.dm with
  | none => d.len
  | some dm => (dm.fmExtents.map fun e =>
      if e.addressable = true ∧ set.Has e.fePhysical then 0 else e.inRange d.destOff d.len).sum

structure WellFormed (set : PhysSet) : Prop where
  sorted : Increasing set.v 0 set.n
  fits : set.n ≤ set.cap

end PhysSet

theorem sortUniq_spec (v : ℕ → ℕ) (n : ℕ) :
    (sortUniq v n).2 ≤ n ∧ Increasing (sortUniq v n).1 0 (sortUniq v n).2 ∧
      ∀ x, Cell (sortUniq v n).1 0 (sortUniq v n).2 x ↔ Cell v 0 n x := by
  unfold sortUniq
  by_cases hn : n < 2
  · rw [if_pos hn]
    exact ⟨le_rfl, fun i j _ hij hj => by omega, fun x => Iff.rfl⟩
  · rw [if_neg hn]
    obtain ⟨hord, hcells⟩ := sortCells_spec v n
    obtain ⟨-, hle, hinc, hkept⟩ := compact_spec (by omega) hord
    exact ⟨hle, hinc, fun x => (hkept x).trans (hcells x)⟩

theorem cell_pushCell (cells : (ℕ → ℕ) × ℕ) (address x : ℕ) :
    Cell (pushCell cells address).1 0 (pushCell cells address).2 x ↔
      Cell cells.1 0 cells.2 x ∨ address = x := by
  simp only [pushCell]
  rw [cell_succ (Nat.zero_le _), cell_update_of_le le_rfl, Function.update_self]

theorem pushAddresses_spec (es : List FiemapExtent) (cells : (ℕ → ℕ) × ℕ) :
    (es.foldl (fun cells e => if e.addressable then pushCell cells e.fePhysical else cells)
        cells).2 ≤ cells.2 + es.length ∧
      ∀ x, Cell (es.foldl (fun cells e =>
          if e.addressable then pushCell cells e.fePhysical else cells) cells).1 0
        (es.foldl (fun cells e =>
          if e.addressable then pushCell cells e.fePhysical else cells) cells).2 x ↔
        Cell cells.1 0 cells.2 x ∨ ∃ e ∈ es, e.addressable = true ∧ e.fePhysical = x := by
  induction es generalizing cells with
  | nil => exact ⟨le_rfl, fun x => by simp⟩
  | cons e es ih =>
    rw [List.foldl_cons]
    by_cases haddr : e.addressable = true
    · rw [if_pos haddr]
      obtain ⟨hle, hcells⟩ := ih (pushCell cells e.fePhysical)
      refine ⟨?_, fun x => ?_⟩
      · have : (pushCell cells e.fePhysical).2 = cells.2 + 1 := rfl
        rw [List.length_cons]
        omega
      · rw [hcells, cell_pushCell]
        simp [haddr, or_assoc]
    · rw [if_neg haddr]
      obtain ⟨hle, hcells⟩ := ih cells
      refine ⟨by rw [List.length_cons]; omega, fun x => ?_⟩
      rw [hcells]
      simp [haddr]

theorem le_growCap (need fuel cap : ℕ) (hcap : 0 < cap) (hfuel : need ≤ fuel + cap) :
    need ≤ growCap need fuel cap := by
  induction fuel generalizing cap with
  | zero => simpa [growCap] using hfuel
  | succ fuel ih =>
    rw [growCap]
    by_cases hlt : cap < need
    · rw [if_pos hlt]
      exact ih (cap * 2) (by omega) (by omega)
    · rw [if_neg hlt]
      omega

namespace PhysSet

theorem mem_iff {set : PhysSet} (h : set.WellFormed) (address : ℕ) :
    set.mem address = true ↔ set.Has address :=
  search_iff address h.sorted.ordered

theorem empty_wellFormed : PhysSet.empty.WellFormed :=
  ⟨fun i j _ hij hj => by simp [PhysSet.empty] at hj, le_rfl⟩

theorem not_has_empty (address : ℕ) : ¬ PhysSet.empty.Has address := not_cell_of_le le_rfl

/-- The set starts as the target's addresses, or empty where they could not be stored. -/
theorem init_spec (tgt : Option Fiemap) (alloc : Bool) :
    (physSetInit tgt alloc).WellFormed ∧ (alloc = true → ∀ a, (physSetInit tgt alloc).Has a ↔
      ∃ fm, tgt = some fm ∧ ∃ e ∈ fm.fmExtents, e.addressable = true ∧ e.fePhysical = a) := by
  cases tgt with
  | none => exact ⟨empty_wellFormed, fun _ a => by simp [physSetInit, not_has_empty]⟩
  | some fm =>
    by_cases hnone : fm.fmExtents.length = 0 ∨ alloc = false
    · rw [physSetInit, if_pos hnone]
      refine ⟨empty_wellFormed, fun halloc a => ?_⟩
      have hempty : fm.fmExtents = [] := by
        rcases hnone with hzero | hno
        · exact List.length_eq_zero_iff.mp hzero
        · rw [halloc] at hno
          cases hno
      simp [not_has_empty, hempty]
    · rw [physSetInit, if_neg hnone]
      obtain ⟨hle, hcells⟩ := pushAddresses_spec fm.fmExtents (fun _ => 0, 0)
      generalize fm.fmExtents.foldl _ _ = cells at hle hcells
      obtain ⟨hkept, hinc, huniq⟩ := sortUniq_spec cells.1 cells.2
      refine ⟨⟨hinc, by dsimp only at hle ⊢; omega⟩, fun _ a => ?_⟩
      refine (huniq a).trans ((hcells a).trans ?_)
      rw [or_iff_right (not_cell_of_le le_rfl)]
      simp

/-- A merge adds all the addresses, or none where the array cannot grow. -/
theorem merge_spec {set : PhysSet} (h : set.WellFormed) {add : ℕ → ℕ} {nAdd : ℕ}
    (hadd : Increasing add 0 nAdd) (alloc : Bool) : (set.merge add nAdd alloc).WellFormed ∧
      (alloc = false ∧ set.merge add nAdd alloc = set ∨
        ∀ a, (set.merge add nAdd alloc).Has a ↔ set.Has a ∨ Cell add 0 nAdd a) := by
  unfold merge
  by_cases hzero : nAdd = 0
  · rw [if_pos hzero]
    refine ⟨h, Or.inr fun a => ?_⟩
    rw [or_iff_left (not_cell_of_le (by omega))]
  rw [if_neg hzero]
  by_cases hfail : set.cap < set.n + nAdd ∧ alloc = false
  · rw [if_pos hfail]
    exact ⟨h, Or.inl ⟨hfail.2, rfl⟩⟩
  rw [if_neg hfail]
  obtain ⟨hord, hcells⟩ := mergeCells_spec h.sorted.ordered hadd.ordered
  obtain ⟨-, hle, hinc, hkept⟩ := compact_spec (by omega) hord
  refine ⟨⟨hinc, hle.trans ?_⟩, Or.inr fun a => (hkept a).trans (hcells a)⟩
  dsimp only
  by_cases hgrow : set.cap < set.n + nAdd
  · rw [if_pos hgrow]
    refine le_growCap _ _ _ ?_ (by omega)
    split_ifs <;> omega
  · rw [if_neg hgrow]
    omega

/-- The bytes counted, and the addresses gathered to join the set. -/
theorem unsharedLoop_spec {seen : PhysSet} (h : seen.WellFormed) (d : Destination)
    (es : List FiemapExtent) (unshared : ℕ) (fresh : (ℕ → ℕ) × ℕ) :
    (unsharedLoop seen d es unshared fresh).1 = unshared + (es.map fun e =>
        if e.addressable = true ∧ seen.Has e.fePhysical then 0
        else e.inRange d.destOff d.len).sum ∧
      (d.allocFresh = true → ∀ x, Cell (unsharedLoop seen d es unshared fresh).2.1 0
          (unsharedLoop seen d es unshared fresh).2.2 x ↔
        Cell fresh.1 0 fresh.2 x ∨ ∃ e ∈ es, 0 < e.inRange d.destOff d.len ∧
          e.addressable = true ∧ e.fePhysical = x ∧ ¬ seen.Has x) := by
  induction es generalizing unshared fresh with
  | nil => exact ⟨rfl, fun _ x => by simp [unsharedLoop]⟩
  | cons e es ih =>
    have hrange : e.inRange d.destOff d.len =
        (if d.destOff + d.len < e.feEnd then d.destOff + d.len else e.feEnd) -
          (if d.destOff < e.feLogical then e.feLogical else d.destOff) := by
      unfold FiemapExtent.inRange
      split_ifs <;> omega
    rw [unsharedLoop, List.map_cons, List.sum_cons]
    generalize (if d.destOff + d.len < e.feEnd then d.destOff + d.len else e.feEnd) = stop at hrange
    generalize (if d.destOff < e.feLogical then e.feLogical else d.destOff) = start at hrange
    by_cases hout : stop ≤ start
    · rw [if_pos hout]
      obtain ⟨hsum, hcells⟩ := ih unshared fresh
      have hzero : e.inRange d.destOff d.len = 0 := by omega
      refine ⟨by rw [hsum, hzero, ite_self, Nat.zero_add], fun halloc x => ?_⟩
      rw [hcells halloc]
      simp [hzero]
    rw [if_neg hout]
    by_cases hseen : e.addressable = true ∧ seen.Has e.fePhysical
    · have hn : seen.n ≠ 0 := by
        obtain ⟨i, -, hi, -⟩ := hseen.2
        omega
      rw [if_pos ⟨hseen.1, hn, (mem_iff h _).mpr hseen.2⟩, if_pos hseen]
      obtain ⟨hsum, hcells⟩ := ih unshared fresh
      refine ⟨by rw [hsum, Nat.zero_add], fun halloc x => ?_⟩
      rw [hcells halloc]
      have hold : ¬ (e.fePhysical = x ∧ ¬ seen.Has x) := by
        rintro ⟨rfl, hnot⟩
        exact hnot hseen.2
      simp only [List.mem_cons, exists_eq_or_imp]
      tauto
    · rw [if_neg fun hc => hseen ⟨hc.1, (mem_iff h _).mp hc.2.2⟩, if_neg hseen]
      obtain ⟨hsum, hcells⟩ := ih (unshared + (stop - start))
        (if e.addressable = true ∧ d.allocFresh = true then pushCell fresh e.fePhysical else fresh)
      refine ⟨by rw [hsum, hrange, Nat.add_assoc], fun halloc x => ?_⟩
      rw [hcells halloc]
      have hpos : 0 < e.inRange d.destOff d.len := by omega
      simp only [List.mem_cons, exists_eq_or_imp, hpos, true_and]
      by_cases haddr : e.addressable = true
      · rw [if_pos ⟨haddr, halloc⟩, cell_pushCell]
        have hnew : e.fePhysical = x → ¬ seen.Has x := by
          rintro rfl hhas
          exact hseen ⟨haddr, hhas⟩
        tauto
      · rw [if_neg fun hc => haddr hc.1]
        tauto

/-- Disjoint records have no more bytes in a range than the range is long. -/
theorem sum_inRange_le (es : List FiemapExtent) (off len lo : ℕ)
    (hsorted : es.Pairwise fun d e => d.feEnd ≤ e.feLogical) (hlo : ∀ e ∈ es, lo ≤ e.feLogical) :
    (es.map fun e => e.inRange off len).sum ≤ off + len - max off lo := by
  induction es generalizing lo with
  | nil => exact Nat.zero_le _
  | cons e es ih =>
    obtain ⟨hafter, hsorted⟩ := List.pairwise_cons.mp hsorted
    have hrest := ih e.feEnd hsorted hafter
    have hle := hlo e List.mem_cons_self
    have hend : e.feLogical ≤ e.feEnd := Nat.le_add_right _ _
    rw [List.map_cons, List.sum_cons]
    unfold FiemapExtent.inRange at hrest ⊢
    omega

theorem unseenBytes_le (set : PhysSet) (d : Destination) : set.unseenBytes d ≤ d.len := by
  unfold unseenBytes
  cases d.dm with
  | none => exact le_rfl
  | some dm =>
    refine le_trans (List.sum_le_sum fun e _ => ?_) ((sum_inRange_le dm.fmExtents d.destOff d.len 0
      dm.sorted fun e _ => Nat.zero_le _).trans (by omega))
    split_ifs
    · exact Nat.zero_le _
    · exact le_rfl

theorem fiemapUnsharedBytes_spec {set : PhysSet} (h : set.WellFormed) (d : Destination) :
    (fiemapUnsharedBytes set d).1 = set.unseenBytes d ∧
      (fiemapUnsharedBytes set d).2.WellFormed ∧
      ((d.allocFresh = false ∨ d.allocGrow = false) ∧ (fiemapUnsharedBytes set d).2 = set ∨
        ∀ a, (fiemapUnsharedBytes set d).2.Has a ↔ set.Has a ∨ set.Credits d a) := by
  unfold fiemapUnsharedBytes unseenBytes Credits
  cases hdm : d.dm with
  | none => exact ⟨rfl, h, Or.inr fun a => by simp⟩
  | some dm =>
    obtain ⟨hsum, hcells⟩ := unsharedLoop_spec h d dm.fmExtents 0 (fun _ => 0, 0)
    rw [Nat.zero_add] at hsum
    dsimp only
    cases halloc : d.allocFresh with
    | false => exact ⟨hsum, h, Or.inl ⟨Or.inl rfl, rfl⟩⟩
    | true =>
      have hfresh := hcells halloc
      generalize unsharedLoop set d dm.fmExtents 0 (fun _ => 0, 0) = counted at hsum hfresh
      obtain ⟨-, hinc, huniq⟩ := sortUniq_spec counted.2.1 counted.2.2
      obtain ⟨hwf, hmerge⟩ := merge_spec h hinc d.allocGrow
      refine ⟨hsum, hwf, hmerge.imp (fun hfail => ⟨Or.inr hfail.1, hfail.2⟩) fun hhas a => ?_⟩
      refine (hhas a).trans (or_congr_right ((huniq a).trans ((hfresh a).trans ?_)))
      rw [or_iff_right (not_cell_of_le le_rfl)]
      simp

theorem after_append (set : PhysSet) (ds ds' : List Destination) :
    set.after (ds ++ ds') = (set.after ds).after ds' := List.foldl_append

theorem WellFormed.after {set : PhysSet} (h : set.WellFormed) (ds : List Destination) :
    (set.after ds).WellFormed := by
  induction ds generalizing set with
  | nil => exact h
  | cons d ds ih => exact ih (fiemapUnsharedBytes_spec h d).2.1

theorem Has.after {set : PhysSet} (h : set.WellFormed) {address : ℕ} (hhas : set.Has address)
    (ds : List Destination) : (set.after ds).Has address := by
  induction ds generalizing set with
  | nil => exact hhas
  | cons d ds ih =>
    obtain ⟨-, hwf, hset⟩ := fiemapUnsharedBytes_spec h d
    have hstays : (fiemapUnsharedBytes set d).2.Has address := by
      rcases hset with ⟨-, heq⟩ | hmem
      · rwa [heq]
      · exact (hmem address).mpr (Or.inl hhas)
    exact ih hwf hstays

/-- Without a failed allocation the set grows by what is credited, destination by destination. -/
theorem has_after_iff {set : PhysSet} (h : set.WellFormed) (ds : List Destination)
    (halloc : ∀ d ∈ ds, d.allocFresh = true ∧ d.allocGrow = true) (address : ℕ) :
    (set.after ds).Has address ↔ set.Has address ∨
      ∃ before d rest, ds = before ++ d :: rest ∧ (set.after before).Credits d address := by
  induction ds generalizing set with
  | nil => simp [PhysSet.after]
  | cons d ds ih =>
    obtain ⟨-, hwf, hset⟩ := fiemapUnsharedBytes_spec h d
    have hmem : ∀ a, (fiemapUnsharedBytes set d).2.Has a ↔ set.Has a ∨ set.Credits d a := by
      refine hset.resolve_left ?_
      rintro ⟨hfail, -⟩
      rw [(halloc d List.mem_cons_self).1, (halloc d List.mem_cons_self).2] at hfail
      simp at hfail
    have hrest := ih hwf fun d' hd' => halloc d' (List.mem_cons_of_mem d hd')
    rw [show set.after (d :: ds) = (fiemapUnsharedBytes set d).2.after ds from rfl, hrest, hmem,
      or_assoc]
    refine or_congr_right ⟨?_, ?_⟩
    · rintro (hcredit | ⟨before, d', rest, rfl, hcredit⟩)
      · exact ⟨[], d, ds, rfl, hcredit⟩
      · exact ⟨d :: before, d', rest, rfl, hcredit⟩
    · rintro ⟨before, d', rest, heq, hcredit⟩
      cases before with
      | nil =>
        obtain ⟨rfl, rfl⟩ := List.cons.inj heq
        exact Or.inl hcredit
      | cons d'' before =>
        obtain ⟨rfl, rfl⟩ := List.cons.inj heq
        exact Or.inr ⟨before, d', rest, rfl, hcredit⟩

end PhysSet

/-- Over any sequence of destinations the set of addresses stays sorted, holds exactly the target's
addresses and those credited, and no address in it is credited again. -/
theorem freed_space_counted_once (tgt : Option Fiemap) (alloc : Bool) (ds : List Destination) :
    ((physSetInit tgt alloc).after ds).WellFormed ∧
    (alloc = true → (∀ d ∈ ds, d.allocFresh = true ∧ d.allocGrow = true) →
      ∀ a, ((physSetInit tgt alloc).after ds).Has a ↔
        (∃ fm, tgt = some fm ∧ ∃ e ∈ fm.fmExtents, e.addressable = true ∧ e.fePhysical = a) ∨
          ∃ before d rest, ds = before ++ d :: rest ∧
            ((physSetInit tgt alloc).after before).Credits d a) ∧
    (∀ d, (fiemapUnsharedBytes ((physSetInit tgt alloc).after ds) d).1 =
          ((physSetInit tgt alloc).after ds).unseenBytes d ∧
        ((physSetInit tgt alloc).after ds).unseenBytes d ≤ d.len ∧
        ((d.allocFresh = false ∨ d.allocGrow = false) ∧
            (fiemapUnsharedBytes ((physSetInit tgt alloc).after ds) d).2 =
              (physSetInit tgt alloc).after ds ∨
          ∀ a, (fiemapUnsharedBytes ((physSetInit tgt alloc).after ds) d).2.Has a ↔
            ((physSetInit tgt alloc).after ds).Has a ∨
              ((physSetInit tgt alloc).after ds).Credits d a)) ∧
    ∀ a, ((physSetInit tgt alloc).after ds).Has a →
      ∀ later d, ¬ ((physSetInit tgt alloc).after (ds ++ later)).Credits d a := by
  obtain ⟨hinit, htgt⟩ := PhysSet.init_spec tgt alloc
  have hwf := hinit.after ds
  refine ⟨hwf, fun halloc hds a => ?_, fun d => ?_, fun a hhas later d hcredit => ?_⟩
  · rw [PhysSet.has_after_iff hinit ds hds, htgt halloc]
  · obtain ⟨hbytes, -, hset⟩ := PhysSet.fiemapUnsharedBytes_spec hwf d
    exact ⟨hbytes, PhysSet.unseenBytes_le _ d, hset⟩
  · obtain ⟨-, -, -, -, -, -, -, hnot⟩ := hcredit
    rw [PhysSet.after_append] at hnot
    exact hnot (hhas.after hwf later)

end Oans
