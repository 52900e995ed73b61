import Mathlib.Tactic

/-!
# Cutting a half-open interval into consecutive windows

A cut of `(a, b]` is a list of nonempty windows `(lo, hi]`, each starting where the one before it
ends. Every point of `(a, b]` lies in exactly one of them and a point outside lies in none, so a
quantity attached to points can be counted window by window.
-/

namespace IntervalCut

structure Window (α : Type*) where
  lo : α
  hi : α
  deriving DecidableEq, Repr

variable {α : Type*}

def endOf (a : α) (ws : List (Window α)) : α := (ws.getLast?.map Window.hi).getD a

@[simp] theorem endOf_nil (a : α) : endOf a [] = a := rfl

@[simp] theorem endOf_cons (a : α) (w : Window α) (ws : List (Window α)) :
    endOf a (w :: ws) = endOf w.hi ws := by
  cases ws with
  | nil => rfl
  | cons v vs => simp [endOf, List.getLast?_cons]

variable [LinearOrder α]

def Window.Contains (w : Window α) (x : α) : Prop := w.lo < x ∧ x ≤ w.hi

instance (w : Window α) (x : α) : Decidable (w.Contains x) :=
  inferInstanceAs (Decidable (_ ∧ _))

/-- `ws` cuts `(a, b]` into consecutive nonempty windows. -/
def IsCut : α → List (Window α) → α → Prop
  | a, [], b => b ≤ a
  | a, w :: ws, b => w.lo = a ∧ a < w.hi ∧ w.hi ≤ b ∧ IsCut w.hi ws b

instance instDecidableIsCut : (a : α) → (ws : List (Window α)) → (b : α) → Decidable (IsCut a ws b)
  | a, [], b => inferInstanceAs (Decidable (b ≤ a))
  | a, w :: ws, b =>
    have := instDecidableIsCut w.hi ws b
    inferInstanceAs (Decidable (w.lo = a ∧ a < w.hi ∧ w.hi ≤ b ∧ IsCut w.hi ws b))

theorem IsCut.lo_ge {a b : α} {ws : List (Window α)} (h : IsCut a ws b) :
    ∀ w ∈ ws, a ≤ w.lo := by
  induction ws generalizing a with
  | nil => simp
  | cons v vs ih =>
    obtain ⟨hlo, hlt, -, hrest⟩ := h
    intro w hw
    rcases List.mem_cons.mp hw with rfl | hw
    · exact hlo.ge
    · exact hlt.le.trans (ih hrest w hw)

theorem IsCut.hi_le_lo {a b : α} {ws : List (Window α)} (h : IsCut a ws b) {i j : ℕ}
    {v w : Window α} (hv : ws[i]? = some v) (hw : ws[j]? = some w) (hij : i < j) : v.hi ≤ w.lo := by
  induction ws generalizing a i j with
  | nil => simp at hv
  | cons x xs ih =>
    obtain ⟨-, -, -, hrest⟩ := h
    cases j with
    | zero => exact absurd hij (Nat.not_lt_zero i)
    | succ j =>
      have hw' : xs[j]? = some w := by simpa using hw
      cases i with
      | zero =>
        obtain rfl : x = v := by simpa using hv
        exact hrest.lo_ge w (List.mem_of_getElem? hw')
      | succ i => exact ih hrest (by simpa using hv) hw' (by omega)

theorem IsCut.lo_lt_hi {a b : α} {ws : List (Window α)} (h : IsCut a ws b) :
    ∀ w ∈ ws, w.lo < w.hi := by
  induction ws generalizing a with
  | nil => simp
  | cons v vs ih =>
    obtain ⟨hlo, hlt, -, hrest⟩ := h
    intro w hw
    rcases List.mem_cons.mp hw with rfl | hw
    · exact hlo ▸ hlt
    · exact ih hrest w hw

theorem IsCut.eq_of_contains {a b x : α} {ws : List (Window α)} (h : IsCut a ws b)
    {v w : Window α} (hv : v ∈ ws) (hw : w ∈ ws) (hxv : v.Contains x) (hxw : w.Contains x) :
    v = w := by
  obtain ⟨i, hi⟩ := List.mem_iff_getElem?.mp hv
  obtain ⟨j, hj⟩ := List.mem_iff_getElem?.mp hw
  rcases lt_trichotomy i j with hij | rfl | hij
  · exact absurd (hxv.2.trans (h.hi_le_lo hi hj hij)) (not_le.mpr hxw.1)
  · exact Option.some.inj (hi.symm.trans hj)
  · exact absurd (hxw.2.trans (h.hi_le_lo hj hi hij)) (not_le.mpr hxv.1)

theorem IsCut.exists_contains {a b x : α} {ws : List (Window α)} (h : IsCut a ws b) (hax : a < x)
    (hxb : x ≤ b) : ∃ w ∈ ws, w.Contains x := by
  induction ws generalizing a with
  | nil => exact absurd (hxb.trans h) (not_le.mpr hax)
  | cons w ws ih =>
    obtain ⟨hlo, -, -, hrest⟩ := h
    by_cases hx : x ≤ w.hi
    · exact ⟨w, List.mem_cons_self, hlo ▸ hax, hx⟩
    · obtain ⟨v, hv, hxv⟩ := ih hrest (not_le.mp hx)
      exact ⟨v, List.mem_cons_of_mem _ hv, hxv⟩

theorem IsCut.le_endOf {a b : α} {ws : List (Window α)} (h : IsCut a ws b) : a ≤ endOf a ws := by
  induction ws generalizing a with
  | nil => exact le_rfl
  | cons w ws ih =>
    obtain ⟨-, hlt, -, hrest⟩ := h
    rw [endOf_cons]
    exact hlt.le.trans (ih hrest)

theorem IsCut.take {a b : α} {ws : List (Window α)} (h : IsCut a ws b) (n : ℕ) :
    IsCut a (ws.take n) (endOf a (ws.take n)) := by
  induction ws generalizing a n with
  | nil => simp [IsCut]
  | cons w ws ih =>
    cases n with
    | zero => simp [IsCut]
    | succ n =>
      obtain ⟨hlo, hlt, -, hrest⟩ := h
      have htake := ih hrest n
      rw [List.take_succ_cons, endOf_cons]
      exact ⟨hlo, hlt, htake.le_endOf, htake⟩

theorem IsCut.le_of_end {a b : α} {ws : List (Window α)} (h : IsCut a ws b) : b ≤ endOf a ws := by
  induction ws generalizing a with
  | nil => exact h
  | cons w ws ih =>
    rw [endOf_cons]
    exact ih h.2.2.2

theorem IsCut.not_contains {a b x : α} {ws : List (Window α)} (h : IsCut a ws b) (hx : x ≤ a) :
    ∀ w ∈ ws, ¬ w.Contains x := fun w hw hc =>
  absurd (hc.1.trans_le hx) (not_lt.mpr (h.lo_ge w hw))

theorem IsCut.countP_contains {a b x : α} {ws : List (Window α)} (h : IsCut a ws b)
    (hax : a < x) (hxb : x ≤ b) : ws.countP (fun w => decide (w.Contains x)) = 1 := by
  induction ws generalizing a with
  | nil => exact absurd (hxb.trans h) (not_le.mpr hax)
  | cons w ws ih =>
    obtain ⟨hlo, hlt, -, hrest⟩ := h
    by_cases hx : x ≤ w.hi
    · have hw : w.Contains x := ⟨hlo ▸ hax, hx⟩
      have hnone : ws.countP (fun v => decide (v.Contains x)) = 0 := by
        rw [List.countP_eq_zero]
        intro v hv
        simpa using hrest.not_contains hx v hv
      rw [List.countP_cons_of_pos (by simpa using hw), hnone]
    · have hw : ¬ w.Contains x := fun hc => hx hc.2
      rw [List.countP_cons_of_neg (by simpa using hw)]
      exact ih hrest (not_le.mp hx)

theorem sum_map_ite_eq_countP {β : Type*} (p : β → Bool) (l : List β) :
    (l.map fun x => if p x = true then 1 else 0).sum = l.countP p := by
  induction l with
  | nil => rfl
  | cons x xs ih => rw [List.map_cons, List.sum_cons, ih, List.countP_cons, Nat.add_comm]

/-- Items due at points of the interval, counted window by window. -/
theorem IsCut.sum_countP {β : Type*} {a b : α} {ws : List (Window α)} (h : IsCut a ws b)
    (l : List β) (due : β → α) (hdue : ∀ x ∈ l, a < due x → due x ≤ b) :
    (ws.map fun w => l.countP fun x => decide (w.Contains (due x))).sum =
      l.countP fun x => decide (a < due x) := by
  induction l with
  | nil => simp
  | cons x xs ih =>
    simp only [List.countP_cons, List.sum_map_add]
    rw [ih fun y hy => hdue y (List.mem_cons_of_mem _ hy), sum_map_ite_eq_countP]
    by_cases hx : a < due x
    · rw [h.countP_contains hx (hdue x List.mem_cons_self hx), if_pos (by simpa using hx)]
    · have hnone : ws.countP (fun w => decide (w.Contains (due x))) = 0 := by
        rw [List.countP_eq_zero]
        intro w hw
        simpa using h.not_contains (not_lt.mp hx) w hw
      rw [hnone, if_neg (by simpa using hx)]

end IntervalCut
