import Mathlib.Tactic

/-!
# Deterministic loops that emit

A loop runs while its condition holds of the state. A step says whether it is the last one, where
it leads, and what it emits. `Path` is a run of steps that are not the last, `Evaluates` a run to
the end; the end and what is emitted on the way are determined by the start.
-/

namespace Stepping

variable {σ ρ : Type*}

inductive Path (below : σ → Prop) (step : σ → Bool × σ × ρ) (s : σ) : σ → List ρ → Prop
  | refl : Path below step s s []
  | snoc {t u : σ} {emitted : List ρ} {r : ρ} (head : Path below step s t emitted)
      (hbelow : below t) (hstep : step t = (false, u, r)) : Path below step s u (emitted ++ [r])

inductive Evaluates (below : σ → Prop) (step : σ → Bool × σ × ρ) : σ → σ → List ρ → Prop
  | stop {s : σ} (hbelow : ¬ below s) : Evaluates below step s s []
  | last {s t : σ} {r : ρ} (hbelow : below s) (hstep : step s = (true, t, r)) :
      Evaluates below step s t [r]
  | next {s t u : σ} {r : ρ} {emitted : List ρ} (hbelow : below s)
      (hstep : step s = (false, t, r)) (tail : Evaluates below step t u emitted) :
      Evaluates below step s u (r :: emitted)

variable {below : σ → Prop} {step : σ → Bool × σ × ρ} {s t u : σ} {emitted emitted' : List ρ}

theorem Evaluates.unique {t' : σ} (h : Evaluates below step s t emitted)
    (h' : Evaluates below step s t' emitted') : t = t' ∧ emitted = emitted' := by
  induction h generalizing t' emitted' with
  | stop hbelow =>
    cases h' with
    | stop => exact ⟨rfl, rfl⟩
    | last hbelow' => exact absurd hbelow' hbelow
    | next hbelow' => exact absurd hbelow' hbelow
  | last hbelow hstep =>
    cases h' with
    | stop hbelow' => exact absurd hbelow hbelow'
    | last _ hstep' =>
      obtain ⟨-, hrest⟩ := Prod.ext_iff.mp (hstep.symm.trans hstep')
      obtain ⟨rfl, rfl⟩ := Prod.ext_iff.mp hrest
      exact ⟨rfl, rfl⟩
    | next _ hstep' =>
      obtain ⟨hlast, -⟩ := Prod.ext_iff.mp (hstep.symm.trans hstep')
      cases hlast
  | next hbelow hstep _ ih =>
    cases h' with
    | stop hbelow' => exact absurd hbelow hbelow'
    | last _ hstep' =>
      obtain ⟨hlast, -⟩ := Prod.ext_iff.mp (hstep.symm.trans hstep')
      cases hlast
    | next _ hstep' tail' =>
      obtain ⟨-, hrest⟩ := Prod.ext_iff.mp (hstep.symm.trans hstep')
      obtain ⟨rfl, rfl⟩ := Prod.ext_iff.mp hrest
      obtain ⟨rfl, rfl⟩ := ih tail'
      exact ⟨rfl, rfl⟩

/-- A run to the end from where a path leads is one from its start. -/
theorem Path.evaluates (h : Path below step s t emitted)
    (h' : Evaluates below step t u emitted') : Evaluates below step s u (emitted ++ emitted') := by
  induction h generalizing emitted' with
  | refl => exact h'
  | snoc _ hbelow hstep ih =>
    rw [List.append_assoc]
    exact ih (.next hbelow hstep h')

theorem Path.trans (h : Path below step s t emitted) (h' : Path below step t u emitted') :
    Path below step s u (emitted ++ emitted') := by
  induction h' with
  | refl => rwa [List.append_nil]
  | snoc _ hbelow hstep ih =>
    rw [← List.append_assoc]
    exact .snoc ih hbelow hstep

/-! ### One loop follows another -/

section Simulation

variable {σ' ρ' : Type*} {below' : σ' → Prop} {step' : σ' → Bool × σ' × ρ'} {R : σ → σ' → Prop}
  {s' : σ'}

/-- A step that is not the last is followed by one that leads to a related state. -/
theorem Path.simulate (h : Path below step s t emitted) (hstart : R s s')
    (hbelow : ∀ u u', R u u' → below u → below' u')
    (hstep : ∀ u u', R u u' → below u →
      (step u).1 = (step' u').1 ∧ R (step u).2.1 (step' u').2.1) :
    ∃ t' emitted', Path below' step' s' t' emitted' ∧ R t t' := by
  induction h with
  | refl => exact ⟨s', [], .refl, hstart⟩
  | @snoc t u _ r _ hlt hnext ih =>
    obtain ⟨t', emitted', hpath, hrel⟩ := ih
    obtain ⟨hflag, hrel'⟩ := hstep t t' hrel hlt
    rw [hnext] at hflag hrel'
    exact ⟨_, _, hpath.snoc (hbelow t t' hrel hlt) (Prod.ext hflag.symm rfl), hrel'⟩

theorem Evaluates.simulate (h : Evaluates below step s t emitted) (hstart : R s s')
    (hbelow : ∀ u u', R u u' → (below u ↔ below' u'))
    (hstep : ∀ u u', R u u' → below u →
      (step u).1 = (step' u').1 ∧ R (step u).2.1 (step' u').2.1) :
    ∃ t' emitted', Evaluates below' step' s' t' emitted' ∧ R t t' := by
  induction h generalizing s' with
  | stop hge => exact ⟨s', [], .stop (mt (hbelow _ _ hstart).mpr hge), hstart⟩
  | last hlt hlast =>
    obtain ⟨hflag, hrel⟩ := hstep _ _ hstart hlt
    rw [hlast] at hflag hrel
    exact ⟨_, _, .last ((hbelow _ _ hstart).mp hlt) (Prod.ext hflag.symm rfl), hrel⟩
  | next hlt hnext _ ih =>
    obtain ⟨hflag, hrel⟩ := hstep _ _ hstart hlt
    rw [hnext] at hflag hrel
    obtain ⟨t', emitted', heval, hrel'⟩ := ih hrel
    exact ⟨t', _, .next ((hbelow _ _ hstart).mp hlt) (Prod.ext hflag.symm rfl) heval, hrel'⟩

end Simulation

end Stepping
