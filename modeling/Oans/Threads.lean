import Mathlib.Tactic

/-!
# Threads side by side

The state of every thread is a function of the thread, and a step updates it at one of them. What
is added up over the threads changes by what that one adds.
-/

namespace Threads

variable {ι α M : Type*} [Fintype ι] [DecidableEq ι] [AddCommMonoid M]

theorem sum_update (φ : α → M) (f : ι → α) (i : ι) (a : α) :
    ∑ j, φ (Function.update f i a j) + φ (f i) = ∑ j, φ (f j) + φ a := by
  have hsplit : ∀ g : ι → α, ∑ j, φ (g j) = φ (g i) + ∑ j ∈ Finset.univ.erase i, φ (g j) :=
    fun g => (Finset.add_sum_erase _ _ (Finset.mem_univ i)).symm
  have hrest : ∑ j ∈ Finset.univ.erase i, φ (Function.update f i a j) =
      ∑ j ∈ Finset.univ.erase i, φ (f j) :=
    Finset.sum_congr rfl fun j hj => by rw [Function.update_of_ne (Finset.ne_of_mem_erase hj)]
  rw [hsplit, hsplit f, hrest, Function.update_self]
  abel

end Threads
