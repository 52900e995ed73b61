import Mathlib.Tactic

/-!
# Slices of a sequence indexed by positions

`slice f a b` lists `f a, …, f (b - 1)`. Consecutive slices concatenate, and a prefix or a suffix
of a slice is a slice, so a list known to be a slice is determined by its two end positions.
-/

namespace Slice

variable {α : Type*}

def slice (f : ℕ → α) (a b : ℕ) : List α := (List.range' a (b - a)).map f

@[simp] theorem length_slice (f : ℕ → α) (a b : ℕ) : (slice f a b).length = b - a := by
  simp [slice]

@[simp] theorem slice_self (f : ℕ → α) (a : ℕ) : slice f a a = [] := by simp [slice]

theorem slice_eq_nil (f : ℕ → α) {a b : ℕ} (h : b ≤ a) : slice f a b = [] := by
  simp [slice, Nat.sub_eq_zero_of_le h]

theorem slice_append (f : ℕ → α) {a m b : ℕ} (h₁ : a ≤ m) (h₂ : m ≤ b) :
    slice f a m ++ slice f m b = slice f a b := by
  have hlen : b - a = (m - a) + (b - m) := by omega
  have hmid : m = a + (m - a) := by omega
  unfold slice
  rw [← List.map_append, hlen]
  conv_lhs => rw [show List.range' m (b - m) = List.range' (a + (m - a)) (b - m) by rw [← hmid]]
  rw [List.range'_append_1]

theorem slice_take (f : ℕ → α) {a b : ℕ} (n : ℕ) (h : a + n ≤ b) :
    (slice f a b).take n = slice f a (a + n) := by
  rw [← slice_append f (show a ≤ a + n by omega) h]
  exact List.take_left' (by simp)

theorem slice_drop (f : ℕ → α) {a b : ℕ} (n : ℕ) (h : a + n ≤ b) :
    (slice f a b).drop n = slice f (a + n) b := by
  rw [← slice_append f (show a ≤ a + n by omega) h]
  exact List.drop_left' (by simp)

theorem mem_slice (f : ℕ → α) {a b : ℕ} {x : α} :
    x ∈ slice f a b ↔ ∃ p, a ≤ p ∧ p < b ∧ f p = x := by
  simp only [slice, List.mem_map, List.mem_range'_1]
  constructor
  · rintro ⟨p, ⟨h₁, h₂⟩, rfl⟩
    exact ⟨p, h₁, by omega, rfl⟩
  · rintro ⟨p, h₁, h₂, rfl⟩
    exact ⟨p, ⟨h₁, by omega⟩, rfl⟩

theorem slice_congr {f g : ℕ → α} {a b : ℕ} (h : ∀ p, a ≤ p → p < b → f p = g p) :
    slice f a b = slice g a b := by
  refine List.map_congr_left fun p hp => ?_
  rw [List.mem_range'_1] at hp
  exact h p hp.1 (by omega)

theorem slice_eq_replicate {f : ℕ → α} {c : α} {a b : ℕ} (h : ∀ p, a ≤ p → p < b → f p = c) :
    slice f a b = List.replicate (b - a) c := by
  refine List.eq_replicate_iff.mpr ⟨by simp, fun x hx => ?_⟩
  obtain ⟨p, h₁, h₂, rfl⟩ := (mem_slice f).mp hx
  exact h p h₁ h₂

end Slice
