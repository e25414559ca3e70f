import Mathlib

/-!
# Loops that count

A statement about the state of a loop before its turn `n` holds after the last turn if it holds before
the first one and every turn keeps it. A turn may fail, in which case the loop fails.
-/
namespace CountLoop

variable {σ ε : Type*} {P : ℕ → σ → Prop} {N : ℕ} {s : σ}

theorem foldl_range {turn : σ → ℕ → σ} (start : P 0 s)
    (step : ∀ n < N, ∀ t, P n t → P (n+1) (turn t n)) : P N ((List.range N).foldl turn s) := by
  induction N with
  | zero => exact start
  | succ N ih =>
    rw [List.range_succ, List.foldl_concat]
    exact step N (Nat.lt_succ_self N) _ (ih fun n hn => step n (Nat.lt_succ_of_lt hn))

/-- If every turn succeeds where the statement holds, then so does the loop. -/
theorem foldlM_range {turn : σ → ℕ → Except ε σ} (start : P 0 s)
    (step : ∀ n < N, ∀ t, P n t → ∃ t', turn t n = .ok t' ∧ P (n+1) t') :
    ∃ t, (List.range N).foldlM turn s = .ok t ∧ P N t := by
  induction N with
  | zero => exact ⟨s,rfl,start⟩
  | succ N ih =>
    obtain ⟨t, hrun, ht⟩ := ih fun n hn => step n (Nat.lt_succ_of_lt hn)
    obtain ⟨t', hturn, ht'⟩ := step N (Nat.lt_succ_self N) t ht
    refine ⟨t',?_,ht'⟩
    rw [List.range_succ, List.foldlM_append, hrun]
    exact (bind_pure (turn t N)).trans hturn

end CountLoop
