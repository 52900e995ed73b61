import Mathlib.Tactic

/-!
# Gathering the members of a list in one place

Every usable member of a list moves to where the first usable one is. Lists gathered one after the
other interfere only through the members they share.
-/

namespace Gather

variable {α σ : Type*} [DecidableEq α]

/-- Everything usable in `l` goes to the place of the first usable member. -/
def gather (usable : α → Bool) (l : List α) (place : α → σ) : α → σ :=
  match l.find? usable with
  | none => place
  | some u => fun x => if x ∈ l ∧ usable x = true then place u else place x

variable {usable : α → Bool} {l : List α} {place : α → σ} {x u : α}

theorem gather_of_not_mem (h : ¬(x ∈ l ∧ usable x = true)) : gather usable l place x = place x := by
  unfold gather
  cases l.find? usable with
  | none => rfl
  | some u => exact if_neg h

theorem gather_of_find (hu : l.find? usable = some u) (hx : x ∈ l) (hux : usable x = true) :
    gather usable l place x = place u := by
  simp [gather, hu, hx, hux]

/-- The first usable member stays where it is. -/
theorem gather_find (hu : l.find? usable = some u) : gather usable l place u = place u :=
  gather_of_find hu (List.mem_of_find?_eq_some hu) (List.find?_some hu)

theorem gather_eq_of_mem {y : α} (hx : x ∈ l) (hux : usable x = true) (hy : y ∈ l)
    (huy : usable y = true) : gather usable l place x = gather usable l place y := by
  cases hu : l.find? usable with
  | none => exact absurd hux (List.find?_eq_none.mp hu x hx)
  | some u => rw [gather_of_find hu hx hux, gather_of_find hu hy huy]

omit [DecidableEq α] in
theorem find?_of_head? (hhead : l.head? = some u) (hu : usable u = true) :
    l.find? usable = some u := by
  cases l with
  | nil => simp at hhead
  | cons y ys =>
    obtain rfl : y = u := by simpa using hhead
    exact List.find?_cons_of_pos hu

def gatherAll (usable : α → Bool) (ls : List (List α)) (place : α → σ) : α → σ :=
  ls.foldl (fun p l => gather usable l p) place

variable {ls : List (List α)}

@[simp] theorem gatherAll_nil : gatherAll usable [] place = place := rfl

@[simp] theorem gatherAll_cons :
    gatherAll usable (l :: ls) place = gatherAll usable ls (gather usable l place) := rfl

theorem gatherAll_append (ls ls' : List (List α)) :
    gatherAll usable (ls ++ ls') place = gatherAll usable ls' (gatherAll usable ls place) := by
  simp [gatherAll, List.foldl_append]

/-- Where `u` is the first usable member of every list that holds any of `xs`, they all end up
with it, as do those that were with it from the start. -/
theorem gatherAll_eq_first (xs : α → Prop)
    (hfirst : ∀ l ∈ ls, ∀ y ∈ l, xs y → l.find? usable = some u) (hux : xs u) (hx : xs x)
    (husable : usable x = true) (h : place x = place u ∨ ∃ l ∈ ls, x ∈ l) :
    gatherAll usable ls place x = place u := by
  induction ls generalizing place with
  | nil =>
    rcases h with h | ⟨l, hl, -⟩
    · exact h
    · simp at hl
  | cons l ls ih =>
    have hstay : gather usable l place u = place u := by
      by_cases hmem : u ∈ l
      · exact gather_find (hfirst l List.mem_cons_self u hmem hux)
      · exact gather_of_not_mem fun hx => hmem hx.1
    rw [gatherAll_cons, ← hstay]
    refine ih (fun l' hl' => hfirst l' (List.mem_cons_of_mem _ hl')) ?_
    by_cases hmem : x ∈ l
    · left
      rw [hstay]
      exact gather_of_find (hfirst l List.mem_cons_self x hmem hx) hmem husable
    · rcases h with h | ⟨l', hl', hin⟩
      · left
        rw [hstay, gather_of_not_mem fun hx => hmem hx.1]
        exact h
      · rcases List.mem_cons.mp hl' with rfl | hl'
        · exact absurd hin hmem
        · exact Or.inr ⟨l', hl', hin⟩

end Gather
