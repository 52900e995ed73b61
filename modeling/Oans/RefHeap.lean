import Mathlib.Tactic

/-!
# A registry of reference-counted cells

Cells live at addresses that are never used again. A cell is found by its key through the
registry, is held by counted references and may be pinned. A lookup of an address that is not
live, a reference given back that was never taken and a swept cell that is still pinned all fail.
The ledger `Balanced` says which references and pins are out; every operation is specified by what
it does to the ledger and to the set of live addresses.
-/

namespace RefHeap

structure Cell (κ : Type*) where
  key : κ
  refs : ℕ
  pins : ℕ
  deriving DecidableEq, Repr

structure Heap (κ : Type*) where
  cells : ℕ → Option (Cell κ)
  registry : List ℕ
  next : ℕ
  freed : List ℕ

variable {κ : Type*}

namespace Heap

def empty : Heap κ := ⟨fun _ => none, [], 0, []⟩

def Live (h : Heap κ) (a : ℕ) : Prop := (h.cells a).isSome = true

instance (h : Heap κ) (a : ℕ) : Decidable (h.Live a) := inferInstanceAs (Decidable (_ = true))

def setCell (h : Heap κ) (a : ℕ) (c : Cell κ) : Heap κ :=
  { h with cells := Function.update h.cells a (some c) }

def free (h : Heap κ) (a : ℕ) : Option (Heap κ) :=
  match h.cells a with
  | none => none
  | some _ => some { h with
      cells := Function.update h.cells a none
      registry := h.registry.erase a
      freed := a :: h.freed }

def get (h : Heap κ) (a : ℕ) : Option (Heap κ) :=
  match h.cells a with
  | none => none
  | some c => some (h.setCell a { c with refs := c.refs + 1 })

def put (h : Heap κ) (a : ℕ) : Option (Heap κ) :=
  match h.cells a with
  | none => none
  | some c =>
    if c.refs = 0 then none
    else if c.refs - 1 = 0 then (h.setCell a { c with refs := c.refs - 1 }).free a
    else some (h.setCell a { c with refs := c.refs - 1 })

def pin (h : Heap κ) (a : ℕ) : Option (Heap κ) :=
  match h.cells a with
  | none => none
  | some c => some (h.setCell a { c with pins := c.pins + 1 })

def unpin (h : Heap κ) (a : ℕ) : Option (Heap κ) :=
  match h.cells a with
  | none => none
  | some c => if c.pins = 0 then none else some (h.setCell a { c with pins := c.pins - 1 })

def sweepCell (h : Heap κ) (a : ℕ) : Option (Heap κ) :=
  match h.cells a with
  | none => none
  | some c => if c.refs ≠ 0 then some h else if c.pins ≠ 0 then none else h.free a

def sweep (h : Heap κ) : Option (Heap κ) := h.registry.foldlM sweepCell h

variable [DecidableEq κ]

def find (h : Heap κ) (k : κ) : Option ℕ :=
  h.registry.find? fun a => (h.cells a).any fun c => decide (c.key = k)

def alloc (h : Heap κ) (k : κ) : Option (Heap κ) :=
  if (h.find k).isSome then none
  else some { h with
    cells := Function.update h.cells h.next (some ⟨k, 0, 0⟩)
    registry := h.next :: h.registry
    next := h.next + 1 }

end Heap

/-- `held` are the references out, `pinned` the pins. -/
structure Balanced (h : Heap κ) (held pinned : List ℕ) : Prop where
  registry_nodup : h.registry.Nodup
  mem_registry : ∀ a, a ∈ h.registry ↔ h.Live a
  keys_inj : ∀ a b c d, h.cells a = some c → h.cells b = some d → c.key = d.key → a = b
  refs_eq : ∀ a c, h.cells a = some c → c.refs = held.count a
  pins_eq : ∀ a c, h.cells a = some c → c.pins = pinned.count a
  held_live : ∀ a ∈ held, h.Live a
  pinned_live : ∀ a ∈ pinned, h.Live a
  fresh : ∀ a, h.Live a → a < h.next
  freed_lt : ∀ a ∈ h.freed, a < h.next
  freed_dead : ∀ a ∈ h.freed, ¬ h.Live a
  freed_nodup : h.freed.Nodup

theorem balanced_empty : Balanced (Heap.empty : Heap κ) [] [] := by
  constructor <;> simp [Heap.empty, Heap.Live]

theorem Balanced.perm {h : Heap κ} {held held' pinned : List ℕ} (hb : Balanced h held pinned)
    (hperm : held.Perm held') : Balanced h held' pinned where
  registry_nodup := hb.registry_nodup
  mem_registry := hb.mem_registry
  keys_inj := hb.keys_inj
  refs_eq a c hc := (hb.refs_eq a c hc).trans (hperm.count_eq a)
  pins_eq := hb.pins_eq
  held_live a ha := hb.held_live a (hperm.mem_iff.mpr ha)
  pinned_live := hb.pinned_live
  fresh := hb.fresh
  freed_lt := hb.freed_lt
  freed_dead := hb.freed_dead
  freed_nodup := hb.freed_nodup

section Spec

variable {h : Heap κ} {held pinned : List ℕ} {a : ℕ}

theorem Heap.live_setCell {c : Cell κ} {b : ℕ} : (h.setCell a c).Live b ↔ b = a ∨ h.Live b := by
  by_cases hb : b = a
  · simp [Heap.Live, Heap.setCell, hb]
  · simp [Heap.Live, Heap.setCell, hb]

theorem Heap.free_eq {c : Cell κ} (hc : h.cells a = some c) : h.free a = some { h with
    cells := Function.update h.cells a none
    registry := h.registry.erase a
    freed := a :: h.freed } := by
  simp only [Heap.free, hc]

theorem Heap.get_eq {c : Cell κ} (hc : h.cells a = some c) :
    h.get a = some (h.setCell a { c with refs := c.refs + 1 }) := by
  simp only [Heap.get, hc]

theorem Heap.pin_eq {c : Cell κ} (hc : h.cells a = some c) :
    h.pin a = some (h.setCell a { c with pins := c.pins + 1 }) := by
  simp only [Heap.pin, hc]

theorem Heap.live_of_eq {c : Cell κ} (ha : h.cells a = some c) : h.Live a := by
  rw [Heap.Live, ha]
  rfl

/-- Changing the counts of a live cell along with the ledger. -/
theorem Balanced.setCell (hb : Balanced h held pinned) {c c' : Cell κ} (ha : h.cells a = some c)
    (hkey : c'.key = c.key) {held' pinned' : List ℕ} (hrefs : c'.refs = held'.count a)
    (hpins : c'.pins = pinned'.count a) (hheld : ∀ b, b ≠ a → held'.count b = held.count b)
    (hpinned : ∀ b, b ≠ a → pinned'.count b = pinned.count b) :
    Balanced (h.setCell a c') held' pinned' := by
  have hlive : ∀ b, (h.setCell a c').Live b ↔ h.Live b := fun b => by
    rw [Heap.live_setCell]
    exact or_iff_right_of_imp fun hba => hba ▸ Heap.live_of_eq ha
  have hcell : ∀ b d, (h.setCell a c').cells b = some d →
      b = a ∧ d = c' ∨ b ≠ a ∧ h.cells b = some d := by
    intro b d hd
    by_cases hba : b = a
    · subst hba
      exact Or.inl ⟨rfl, by simpa [Heap.setCell, eq_comm] using hd⟩
    · exact Or.inr ⟨hba, by simpa [Heap.setCell, hba] using hd⟩
  constructor
  case registry_nodup => exact hb.registry_nodup
  case mem_registry => exact fun b => (hb.mem_registry b).trans (hlive b).symm
  case keys_inj =>
    intro b b' d d' hd hd' heq
    rcases hcell b d hd with ⟨rfl, rfl⟩ | ⟨hba, hold⟩ <;>
      rcases hcell b' d' hd' with ⟨rfl, rfl⟩ | ⟨hba', hold'⟩
    · rfl
    · exact hb.keys_inj _ _ _ _ ha hold' (hkey ▸ heq)
    · exact hb.keys_inj _ _ _ _ hold ha (heq.trans hkey)
    · exact hb.keys_inj _ _ _ _ hold hold' heq
  case refs_eq =>
    intro b d hd
    rcases hcell b d hd with ⟨rfl, rfl⟩ | ⟨hba, hd⟩
    · exact hrefs
    · rw [hheld b hba]
      exact hb.refs_eq b d hd
  case pins_eq =>
    intro b d hd
    rcases hcell b d hd with ⟨rfl, rfl⟩ | ⟨hba, hd⟩
    · exact hpins
    · rw [hpinned b hba]
      exact hb.pins_eq b d hd
  case held_live =>
    intro b hmem
    by_cases hba : b = a
    · exact (hlive b).mpr (hba ▸ Heap.live_of_eq ha)
    · refine (hlive b).mpr (hb.held_live b (List.count_pos_iff.mp ?_))
      rw [← hheld b hba]
      exact List.count_pos_iff.mpr hmem
  case pinned_live =>
    intro b hmem
    by_cases hba : b = a
    · exact (hlive b).mpr (hba ▸ Heap.live_of_eq ha)
    · refine (hlive b).mpr (hb.pinned_live b (List.count_pos_iff.mp ?_))
      rw [← hpinned b hba]
      exact List.count_pos_iff.mpr hmem
  case fresh => exact fun b hlb => hb.fresh b ((hlive b).mp hlb)
  case freed_lt => exact hb.freed_lt
  case freed_dead => exact fun b hmem hlb => hb.freed_dead b hmem ((hlive b).mp hlb)
  case freed_nodup => exact hb.freed_nodup

/-- A live cell that nobody holds or pins can be freed, and only it dies. -/
theorem Balanced.free (hb : Balanced h held pinned) (ha : h.Live a) (hheld : a ∉ held)
    (hpinned : a ∉ pinned) : ∃ h', h.free a = some h' ∧ Balanced h' held pinned ∧
      ∀ b, h'.Live b ↔ h.Live b ∧ b ≠ a := by
  obtain ⟨c, hc⟩ := Option.isSome_iff_exists.mp ha
  have hlive : ∀ b, ((Function.update h.cells a none) b).isSome = true ↔ h.Live b ∧ b ≠ a := by
    intro b
    by_cases hba : b = a
    · simp [hba]
    · simp [Heap.Live, hba]
  have hcell : ∀ b d, (Function.update h.cells a none) b = some d → h.cells b = some d := by
    intro b d hd
    by_cases hba : b = a
    · simp [hba] at hd
    · simpa [hba] using hd
  refine ⟨_, Heap.free_eq hc, ?_, hlive⟩
  constructor
  case registry_nodup => exact hb.registry_nodup.erase a
  case mem_registry =>
    intro b
    rw [hb.registry_nodup.mem_erase_iff, hb.mem_registry, and_comm]
    exact (hlive b).symm
  case keys_inj => exact fun b b' d d' hd hd' => hb.keys_inj b b' d d' (hcell b d hd) (hcell b' d' hd')
  case refs_eq => exact fun b d hd => hb.refs_eq b d (hcell b d hd)
  case pins_eq => exact fun b d hd => hb.pins_eq b d (hcell b d hd)
  case held_live => exact fun b hmem => (hlive b).mpr ⟨hb.held_live b hmem, fun h => hheld (h ▸ hmem)⟩
  case pinned_live =>
    exact fun b hmem => (hlive b).mpr ⟨hb.pinned_live b hmem, fun h => hpinned (h ▸ hmem)⟩
  case fresh => exact fun b hlb => hb.fresh b ((hlive b).mp hlb).1
  case freed_lt =>
    intro b hmem
    rcases List.mem_cons.mp hmem with rfl | hmem
    · exact hb.fresh b ha
    · exact hb.freed_lt b hmem
  case freed_dead =>
    intro b hmem hlb
    rcases List.mem_cons.mp hmem with rfl | hmem
    · exact ((hlive b).mp hlb).2 rfl
    · exact hb.freed_dead b hmem ((hlive b).mp hlb).1
  case freed_nodup => exact List.nodup_cons.mpr ⟨fun hmem => hb.freed_dead a hmem ha, hb.freed_nodup⟩

theorem Balanced.get (hb : Balanced h held pinned) (ha : h.Live a) :
    ∃ h', h.get a = some h' ∧ Balanced h' (a :: held) pinned ∧ ∀ b, h'.Live b ↔ h.Live b := by
  obtain ⟨c, hc⟩ := Option.isSome_iff_exists.mp ha
  refine ⟨_, Heap.get_eq hc, ?_, fun b => ?_⟩
  · refine hb.setCell hc (show { c with refs := c.refs + 1 }.key = c.key from rfl) ?_
      (hb.pins_eq a c hc) (fun b hba => ?_) fun b _ => rfl
    · rw [List.count_cons_self, ← hb.refs_eq a c hc]
    · rw [List.count_cons_of_ne hba.symm]
  · rw [Heap.live_setCell]
    exact or_iff_right_of_imp fun hba => hba ▸ ha

theorem Balanced.foldlM_get (hb : Balanced h held pinned) {l : List ℕ} (hl : ∀ b ∈ l, h.Live b) :
    ∃ h', l.foldlM Heap.get h = some h' ∧ Balanced h' (l ++ held) pinned ∧
      ∀ b, h'.Live b ↔ h.Live b := by
  induction l generalizing h held with
  | nil => exact ⟨h, rfl, hb, fun _ => Iff.rfl⟩
  | cons a l ih =>
    obtain ⟨h₁, hget, hb₁, hlive₁⟩ := hb.get (hl a List.mem_cons_self)
    obtain ⟨h', hfold, hb', hlive'⟩ :=
      ih hb₁ fun b hmem => (hlive₁ b).mpr (hl b (List.mem_cons_of_mem _ hmem))
    refine ⟨h', by rw [List.foldlM_cons, hget]; exact hfold, ?_, fun b => ?_⟩
    · exact hb'.perm List.perm_middle
    · rw [hlive', hlive₁]

/-- Giving a reference back keeps a cell that is held more often. -/
theorem Balanced.put (hb : Balanced h (a :: held) pinned) (hpinned : a ∉ pinned) :
    ∃ h', h.put a = some h' ∧ Balanced h' held pinned ∧
      ∀ b, h'.Live b ↔ h.Live b ∧ (b ≠ a ∨ a ∈ held) := by
  obtain ⟨c, hc⟩ := Option.isSome_iff_exists.mp (hb.held_live a List.mem_cons_self)
  have hrefs := hb.refs_eq a c hc
  rw [List.count_cons_self] at hrefs
  have hset : Balanced (h.setCell a { c with refs := c.refs - 1 }) held pinned := by
    refine hb.setCell hc (show { c with refs := c.refs - 1 }.key = c.key from rfl)
      (Nat.sub_eq_of_eq_add hrefs) (hb.pins_eq a c hc) (fun b hba => ?_) fun b _ => rfl
    rw [List.count_cons_of_ne hba.symm]
  have hlive : ∀ b, (h.setCell a { c with refs := c.refs - 1 }).Live b ↔ h.Live b := fun b => by
    rw [Heap.live_setCell]
    exact or_iff_right_of_imp fun hba => hba ▸ Heap.live_of_eq hc
  by_cases hlast : a ∈ held
  · have hpos := List.count_pos_iff.mpr hlast
    refine ⟨_, ?_, hset, fun b => by rw [hlive]; simp [hlast]⟩
    simp only [Heap.put, hc]
    rw [if_neg (by omega), if_neg (by omega)]
  · have hzero := List.count_eq_zero.mpr hlast
    obtain ⟨h', hfree, hb', hlive'⟩ :=
      hset.free ((hlive a).mpr (Heap.live_of_eq hc)) hlast hpinned
    refine ⟨h', ?_, hb', fun b => ?_⟩
    · simp only [Heap.put, hc]
      rw [if_neg (by omega), if_pos (by omega), hfree]
    · rw [hlive', hlive]
      simp [hlast]

theorem Balanced.pin (hb : Balanced h held pinned) (ha : h.Live a) :
    ∃ h', h.pin a = some h' ∧ Balanced h' held (a :: pinned) ∧ ∀ b, h'.Live b ↔ h.Live b := by
  obtain ⟨c, hc⟩ := Option.isSome_iff_exists.mp ha
  refine ⟨_, Heap.pin_eq hc, ?_, fun b => ?_⟩
  · refine hb.setCell hc (show { c with pins := c.pins + 1 }.key = c.key from rfl)
      (hb.refs_eq a c hc) ?_ (fun b _ => rfl) fun b hba => ?_
    · rw [List.count_cons_self, ← hb.pins_eq a c hc]
    · rw [List.count_cons_of_ne hba.symm]
  · rw [Heap.live_setCell]
    exact or_iff_right_of_imp fun hba => hba ▸ ha

theorem Balanced.unpin (hb : Balanced h held (a :: pinned)) :
    ∃ h', h.unpin a = some h' ∧ Balanced h' held pinned ∧ ∀ b, h'.Live b ↔ h.Live b := by
  have ha := hb.pinned_live a List.mem_cons_self
  obtain ⟨c, hc⟩ := Option.isSome_iff_exists.mp ha
  have hpins := hb.pins_eq a c hc
  rw [List.count_cons_self] at hpins
  refine ⟨h.setCell a { c with pins := c.pins - 1 }, ?_, ?_, fun b => ?_⟩
  · simp only [Heap.unpin, hc]
    rw [if_neg (by omega)]
  · refine hb.setCell hc (show { c with pins := c.pins - 1 }.key = c.key from rfl)
      (hb.refs_eq a c hc) (Nat.sub_eq_of_eq_add hpins) (fun b _ => rfl) fun b hba => ?_
    rw [List.count_cons_of_ne hba.symm]
  · rw [Heap.live_setCell]
    exact or_iff_right_of_imp fun hba => hba ▸ ha

/-- With no pins out, sweeping a list of live cells frees those nobody holds. -/
theorem Balanced.foldlM_sweepCell (hb : Balanced h held []) {l : List ℕ} (hl : l.Nodup)
    (hlive : ∀ b ∈ l, h.Live b) : ∃ h', l.foldlM Heap.sweepCell h = some h' ∧
      Balanced h' held [] ∧ ∀ b, h'.Live b ↔ h.Live b ∧ (b ∉ l ∨ b ∈ held) := by
  induction l generalizing h with
  | nil => exact ⟨h, rfl, hb, by simp⟩
  | cons a l ih =>
    obtain ⟨hal, hl⟩ := List.nodup_cons.mp hl
    have ha := hlive a List.mem_cons_self
    obtain ⟨c, hc⟩ := Option.isSome_iff_exists.mp ha
    have hrefs := hb.refs_eq a c hc
    by_cases hheld : a ∈ held
    · have hpos := List.count_pos_iff.mpr hheld
      have hstep : h.sweepCell a = some h := by
        simp only [Heap.sweepCell, hc]
        rw [if_pos (by omega)]
      obtain ⟨h', hfold, hb', hlive'⟩ := ih hb hl fun b hmem => hlive b (List.mem_cons_of_mem _ hmem)
      refine ⟨h', by rw [List.foldlM_cons, hstep]; exact hfold, hb', fun b => ?_⟩
      rw [hlive', List.mem_cons]
      refine and_congr_right fun _ => ⟨?_, ?_⟩
      · rintro (hb | hb)
        · by_cases hba : b = a
          · exact Or.inr (hba ▸ hheld)
          · exact Or.inl (by tauto)
        · exact Or.inr hb
      · tauto
    · have hzero := List.count_eq_zero.mpr hheld
      obtain ⟨h₁, hfree, hb₁, hlive₁⟩ := hb.free ha hheld List.not_mem_nil
      have hstep : h.sweepCell a = some h₁ := by
        simp only [Heap.sweepCell, hc]
        rw [if_neg (by omega), if_neg (by rw [hb.pins_eq a c hc]; simp), hfree]
      have hlive₁' : ∀ b ∈ l, h₁.Live b := fun b hmem =>
        (hlive₁ b).mpr ⟨hlive b (List.mem_cons_of_mem _ hmem), fun h => hal (h ▸ hmem)⟩
      obtain ⟨h', hfold, hb', hlive'⟩ := ih hb₁ hl hlive₁'
      refine ⟨h', by rw [List.foldlM_cons, hstep]; exact hfold, hb', fun b => ?_⟩
      rw [hlive', hlive₁, List.mem_cons]
      constructor
      · rintro ⟨⟨hlb, hba⟩, h⟩
        exact ⟨hlb, by tauto⟩
      · rintro ⟨hlb, h⟩
        refine ⟨⟨hlb, ?_⟩, by tauto⟩
        rintro rfl
        rcases h with h | h
        · exact h (Or.inl rfl)
        · exact hheld h

/-- The sweep leaves exactly the cells somebody holds. -/
theorem Balanced.sweep (hb : Balanced h held []) : ∃ h', h.sweep = some h' ∧
    Balanced h' held [] ∧ ∀ b, h'.Live b ↔ b ∈ held := by
  obtain ⟨h', hfold, hb', hlive⟩ :=
    hb.foldlM_sweepCell hb.registry_nodup fun b hmem => (hb.mem_registry b).mp hmem
  refine ⟨h', hfold, hb', fun b => ?_⟩
  rw [hlive, hb.mem_registry]
  constructor
  · rintro ⟨hlb, h | h⟩
    · exact absurd hlb h
    · exact h
  · exact fun hmem => ⟨hb.held_live b hmem, Or.inr hmem⟩

variable [DecidableEq κ] {k : κ}

theorem Balanced.live_of_find (hb : Balanced h held pinned) (hfind : h.find k = some a) :
    h.Live a := (hb.mem_registry a).mp (List.mem_of_find?_eq_some hfind)

theorem Balanced.find_key (hb : Balanced h held pinned) {c : Cell κ} (ha : h.cells a = some c) :
    h.find c.key = some a := by
  have hmem := (hb.mem_registry a).mpr (Heap.live_of_eq ha)
  cases hfind : h.find c.key with
  | none =>
    have := List.find?_eq_none.mp hfind a hmem
    simp [ha] at this
  | some b =>
    obtain ⟨d, hd⟩ := Option.isSome_iff_exists.mp (hb.live_of_find hfind)
    have hkey := List.find?_some hfind
    simp only [hd, Option.any_some, decide_eq_true_eq] at hkey
    rw [hb.keys_inj b a d c hd ha hkey]

/-- A key that is not found can be allocated. -/
theorem Balanced.alloc (hb : Balanced h held pinned) (hfind : h.find k = none) :
    ∃ h', h.alloc k = some h' ∧ Balanced h' held pinned ∧
      ∀ b, h'.Live b ↔ h.Live b ∨ b = h.next := by
  have hdead : ¬ h.Live h.next := fun hlive => absurd (hb.fresh _ hlive) (lt_irrefl _)
  have hnokey : ∀ b d, h.cells b = some d → d.key ≠ k := by
    intro b d hd hkey
    have hmem := (hb.mem_registry b).mpr (Heap.live_of_eq hd)
    have := List.find?_eq_none.mp hfind b hmem
    simp [hd, hkey] at this
  have hlive : ∀ b, ((Function.update h.cells h.next (some ⟨k, 0, 0⟩)) b).isSome = true ↔
      h.Live b ∨ b = h.next := by
    intro b
    by_cases hba : b = h.next
    · simp [hba]
    · simp [Heap.Live, hba]
  have hcell : ∀ b d, (Function.update h.cells h.next (some ⟨k, 0, 0⟩)) b = some d →
      b = h.next ∧ d = ⟨k, 0, 0⟩ ∨ h.cells b = some d := by
    intro b d hd
    by_cases hba : b = h.next
    · exact Or.inl ⟨hba, by simpa [hba, eq_comm] using hd⟩
    · exact Or.inr (by simpa [hba] using hd)
  refine ⟨{ h with
    cells := Function.update h.cells h.next (some ⟨k, 0, 0⟩)
    registry := h.next :: h.registry
    next := h.next + 1 }, by simp [Heap.alloc, hfind], ?_, hlive⟩
  constructor
  case registry_nodup =>
    exact List.nodup_cons.mpr ⟨fun hmem => hdead ((hb.mem_registry _).mp hmem), hb.registry_nodup⟩
  case mem_registry =>
    intro b
    rw [List.mem_cons, hb.mem_registry, or_comm]
    exact (hlive b).symm
  case keys_inj =>
    intro b b' d d' hd hd' heq
    rcases hcell b d hd with ⟨rfl, rfl⟩ | hd <;> rcases hcell b' d' hd' with ⟨rfl, rfl⟩ | hd'
    · rfl
    · exact absurd heq.symm (hnokey b' d' hd')
    · exact absurd heq (hnokey b d hd)
    · exact hb.keys_inj b b' d d' hd hd' heq
  case refs_eq =>
    intro b d hd
    rcases hcell b d hd with ⟨rfl, rfl⟩ | hd
    · exact (List.count_eq_zero.mpr fun hmem => hdead (hb.held_live _ hmem)).symm
    · exact hb.refs_eq b d hd
  case pins_eq =>
    intro b d hd
    rcases hcell b d hd with ⟨rfl, rfl⟩ | hd
    · exact (List.count_eq_zero.mpr fun hmem => hdead (hb.pinned_live _ hmem)).symm
    · exact hb.pins_eq b d hd
  case held_live => exact fun b hmem => (hlive b).mpr (Or.inl (hb.held_live b hmem))
  case pinned_live => exact fun b hmem => (hlive b).mpr (Or.inl (hb.pinned_live b hmem))
  case fresh =>
    intro b hlb
    rcases (hlive b).mp hlb with hlb | rfl
    · exact Nat.lt_succ_of_lt (hb.fresh b hlb)
    · exact Nat.lt_succ_self _
  case freed_lt => exact fun b hmem => Nat.lt_succ_of_lt (hb.freed_lt b hmem)
  case freed_dead =>
    intro b hmem hlb
    rcases (hlive b).mp hlb with hlb | rfl
    · exact hb.freed_dead b hmem hlb
    · exact absurd (hb.freed_lt _ hmem) (lt_irrefl _)
  case freed_nodup => exact hb.freed_nodup

end Spec

end RefHeap
