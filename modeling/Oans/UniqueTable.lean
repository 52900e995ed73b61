import Mathlib.Data.List.Pairwise
import Mathlib.Tactic

/-!
# Tables with uniqueness constraints

Rows of a table no two of which may clash, and the two statements that make room for a row by
deleting whatever it clashes with.
-/

namespace UniqueTable

variable {α : Type*} (clash : α → α → Bool)

def Consistent (rows : List α) : Prop := rows.Pairwise fun a b => clash a b = false

def insertOrReplace (rows : List α) (r : α) : List α := rows.filter (fun a => !clash a r) ++ [r]

/-- `UPDATE OR REPLACE` of the row `sel` picks out. -/
def updateOrReplace (sel : α → Bool) (f : α → α) (rows : List α) : List α :=
  match rows.find? sel with
  | none => rows
  | some r => (rows.filter fun a => sel a || !clash a (f r)).map fun a => if sel a then f a else a

section Spec

variable {clash} {rows : List α} {r : α}

theorem mem_insertOrReplace {a : α} :
    a ∈ insertOrReplace clash rows r ↔ a ∈ rows ∧ clash a r = false ∨ a = r := by
  simp [insertOrReplace]

theorem Consistent.insertOrReplace (h : Consistent clash rows) :
    Consistent clash (insertOrReplace clash rows r) := by
  refine List.pairwise_append.mpr ⟨h.filter _, List.pairwise_singleton _ _, fun a ha b hb => ?_⟩
  rw [List.mem_singleton.mp hb]
  simpa using (List.mem_filter.mp ha).2

theorem Consistent.filter (h : Consistent clash rows) (p : α → Bool) :
    Consistent clash (rows.filter p) := List.Pairwise.filter p h

/-- A change that keeps what clashes do not look at keeps consistency. -/
theorem Consistent.map (h : Consistent clash rows) {f : α → α}
    (hf : ∀ a b, clash (f a) (f b) = clash a b) : Consistent clash (rows.map f) :=
  List.pairwise_map.mpr (h.imp fun hab => (hf _ _).trans hab)

theorem Consistent.eq_of_clash (h : Consistent clash rows) (hsymm : ∀ a b, clash a b = clash b a)
    {a b : α} (ha : a ∈ rows) (hb : b ∈ rows) (hab : clash a b = true) : a = b := by
  by_contra hne
  have hsym : Std.Symm fun a b => clash a b = false := ⟨fun a b hab => (hsymm b a).trans hab⟩
  have := List.Pairwise.forall h ha hb hne
  simp [hab] at this

theorem Consistent.updateOrReplace (h : Consistent clash rows) (hsymm : ∀ a b, clash a b = clash b a)
    {sel : α → Bool} {f : α → α} (hsel : ∀ a b, sel a = true → sel b = true → clash a b = true) :
    Consistent clash (updateOrReplace clash sel f rows) := by
  unfold UniqueTable.updateOrReplace
  cases hfind : rows.find? sel with
  | none => exact h
  | some r =>
    have hr := List.mem_of_find?_eq_some hfind
    have hselr := List.find?_some hfind
    have hone : ∀ a ∈ rows, sel a = true → a = r := fun a ha hs =>
      h.eq_of_clash hsymm ha hr (hsel a r hs hselr)
    refine List.pairwise_map.mpr (List.Pairwise.imp_of_mem ?_ (h.filter _))
    intro a b ha hb hab
    obtain ⟨ha, hka⟩ := List.mem_filter.mp ha
    obtain ⟨hb, hkb⟩ := List.mem_filter.mp hb
    by_cases hsa : sel a = true <;> by_cases hsb : sel b = true
    · simp [hsel a b hsa hsb] at hab
    · obtain rfl := hone a ha hsa
      rw [if_pos hsa, if_neg hsb, hsymm]
      simpa [hsb] using hkb
    · obtain rfl := hone b hb hsb
      rw [if_neg hsa, if_pos hsb]
      simpa [hsa] using hka
    · rwa [if_neg hsa, if_neg hsb]

theorem Consistent.filter_eq_singleton (h : Consistent clash rows) (hrefl : ∀ a, clash a a = true)
    (hsymm : ∀ a b, clash a b = clash b a) {p : α → Bool} (hr : r ∈ rows) (hp : p r = true)
    (hclash : ∀ a ∈ rows, p a = true → clash a r = true) : rows.filter p = [r] := by
  have hall : ∀ a ∈ rows.filter p, a = r := by
    intro a ha
    obtain ⟨ha, hpa⟩ := List.mem_filter.mp ha
    exact h.eq_of_clash hsymm ha hr (hclash a ha hpa)
  have hmem : r ∈ rows.filter p := List.mem_filter.mpr ⟨hr, hp⟩
  have hc := h.filter p
  match hl : rows.filter p with
  | [] => simp [hl] at hmem
  | [a] => rw [hall a (by simp [hl])]
  | a :: b :: rest =>
    rw [hl] at hc
    have hab := (List.pairwise_cons.mp hc).1 b List.mem_cons_self
    rw [hall a (by simp [hl]), hall b (by simp [hl]), hrefl] at hab
    cases hab

end Spec

end UniqueTable
