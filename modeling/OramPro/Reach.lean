import Mathlib

/-!
# Runs of a deterministic machine

A machine is a partial step function. `Reaches step Q s` is total correctness: the run from `s` comes to
a state of `Q`, and does not stop or go on for ever before that.
-/
namespace Reach

inductive Reaches {σ : Type*} (step : σ → Option σ) (Q : σ → Prop) : σ → Prop
  | here {s} (h : Q s) : Reaches step Q s
  | next {s t} (h : step s = some t) (ht : Reaches step Q t) : Reaches step Q s

/-- The state after `n` steps. -/
def iterate {σ : Type*} (step : σ → Option σ) : ℕ → σ → Option σ
  | 0, s => some s
  | n+1, s => (step s).bind (iterate step n)

section rules
variable {σ : Type*} {step : σ → Option σ} {P Q : σ → Prop} {s : σ}

theorem Reaches.mono (h : Reaches step P s) (hPQ : ∀ t, P t → Q t) : Reaches step Q s := by
  induction h with
  | here h => exact .here (hPQ _ h)
  | next h _ ih => exact .next h ih

theorem Reaches.trans (h : Reaches step P s) (hP : ∀ t, P t → Reaches step Q t) : Reaches step Q s := by
  induction h with
  | here h => exact hP _ h
  | next h _ ih => exact .next h ih

/-- The loop rule: each pass ends in `Q` or comes back to the invariant with a smaller variant. -/
theorem Reaches.loop {ι : Type*} {r : ι → ι → Prop} (hr : WellFounded r) {I : ι → σ → Prop}
    (body : ∀ i t, I i t → Reaches step (fun u => Q u ∨ ∃ j, r j i ∧ I j u) t) {i : ι} (h : I i s) :
    Reaches step Q s := by
  induction i using hr.induction generalizing s with
  | _ i ih =>
    refine (body i s h).trans fun u hu => ?_
    obtain hQ | ⟨j, hj, hI⟩ := hu
    · exact .here hQ
    · exact ih j hj hI

/-- A state without a successor is reached at most once. -/
theorem Reaches.unique (h : Reaches step P s) (h' : Reaches step Q s) (hP : ∀ t, P t → step t = none)
    (hQ : ∀ t, Q t → step t = none) : ∃ t, P t ∧ Q t := by
  induction h with
  | here h =>
    cases h' with
    | here h' => exact ⟨_,h,h'⟩
    | next h' _ =>
      rw [hP _ h] at h'
      cases h'
  | next h _ ih =>
    cases h' with
    | here h' =>
      rw [hQ _ h'] at h
      cases h
    | next h' ht' =>
      obtain rfl := Option.some.inj (h.symm.trans h')
      exact ih ht'

end rules

section simulation
variable {σ τ : Type*} {step : σ → Option σ} {step' : τ → Option τ} {R : σ → τ → Prop} {Q : σ → Prop}
  {s : σ} {t : τ}

end simulation

end Reach
