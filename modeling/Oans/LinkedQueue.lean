import Mathlib.Tactic

/-!
# Queues of linked nodes

A singly linked queue: the nodes from a head pointer on, each pointing to the next, and a pointer to
the last of them. Appending writes the last node's pointer, so it changes nothing for a queue that
shares no node with this one.
-/

namespace LinkedQueue

variable {α : Type*}

/-- The nodes reached from `head` are those of the list, in order, and no more. -/
def Linked (next : α → Option α) : Option α → List α → Prop
  | head, [] => head = none
  | head, a :: l => head = some a ∧ Linked next (next a) l

theorem Linked.congr {next next' : α → Option α} {head : Option α} {l : List α}
    (h : Linked next head l) (heq : ∀ a ∈ l, next' a = next a) : Linked next' head l := by
  induction l generalizing head with
  | nil => exact h
  | cons a l ih =>
    obtain ⟨ha, hl⟩ := List.forall_mem_cons.mp heq
    refine ⟨h.1, ?_⟩
    rw [ha]
    exact ih h.2 hl

structure IsQueue (next : α → Option α) (head tail : Option α) (l : List α) : Prop where
  linked : Linked next head l
  last : tail = l.getLast?

namespace IsQueue

variable {next next' : α → Option α} {head tail : Option α} {l : List α}

theorem empty (next : α → Option α) : IsQueue next none none [] := ⟨rfl, rfl⟩

theorem congr (h : IsQueue next head tail l) (heq : ∀ a ∈ l, next' a = next a) :
    IsQueue next' head tail l := ⟨h.linked.congr heq, h.last⟩

theorem head_eq (h : IsQueue next head tail l) : head = l.head? := by
  obtain ⟨hlinked, -⟩ := h
  cases l with
  | nil => exact hlinked
  | cons a l => exact hlinked.1

theorem head_isSome_iff (h : IsQueue next head tail l) : head.isSome = true ↔ l ≠ [] := by
  rw [h.head_eq, List.isSome_head?]

/-- A node that points nowhere is the queue of itself. -/
theorem singleton {f : α} (hf : next f = none) : IsQueue next (some f) (some f) [f] :=
  ⟨⟨rfl, hf⟩, rfl⟩

variable [DecidableEq α]

theorem linked_append {f t : α} (h : Linked next head l) (ht : l.getLast? = some t)
    (hnodup : l.Nodup) (hf : f ∉ l) (hnone : next f = none) :
    Linked (Function.update next t (some f)) head (l ++ [f]) := by
  induction l generalizing head with
  | nil => simp at ht
  | cons a l ih =>
    obtain ⟨ha, hrest⟩ := h
    refine ⟨ha, ?_⟩
    cases l with
    | nil =>
      obtain rfl : a = t := by simpa using ht
      rw [Function.update_self]
      have hne : f ≠ a := fun heq => hf (heq ▸ List.mem_cons_self)
      exact ⟨rfl, by rwa [Function.update_of_ne hne]⟩
    | cons b l =>
      have ht' : (b :: l).getLast? = some t := by simpa using ht
      have hne : a ≠ t := by
        rintro rfl
        exact (List.nodup_cons.mp hnodup).1 (List.mem_of_getLast? ht')
      rw [Function.update_of_ne hne]
      exact ih hrest ht' (List.nodup_cons.mp hnodup).2 fun hmem => hf (List.mem_cons_of_mem _ hmem)

theorem append {f t : α} (h : IsQueue next head (some t) l) (hnodup : l.Nodup) (hf : f ∉ l)
    (hnone : next f = none) :
    IsQueue (Function.update next t (some f)) head (some f) (l ++ [f]) where
  linked := linked_append h.linked h.last.symm hnodup hf hnone
  last := by simp

omit [DecidableEq α] in
theorem pop {f : α} (h : IsQueue next (some f) tail l) :
    ∃ rest, l = f :: rest ∧ IsQueue next (next f) (if next f = none then none else tail) rest := by
  obtain ⟨hlinked, hlast⟩ := h
  cases l with
  | nil => cases hlinked
  | cons a rest =>
    obtain ⟨ha, hrest⟩ := hlinked
    obtain rfl : f = a := Option.some.inj ha
    refine ⟨rest, rfl, hrest, ?_⟩
    cases rest with
    | nil => exact if_pos hrest
    | cons b rest =>
      have hnext : next f = some b := hrest.1
      rw [if_neg (by rw [hnext]; exact Option.some_ne_none b), hlast, List.getLast?_cons_cons]

end IsQueue

end LinkedQueue
