import OramPro.CountLoop

/-!
# Three players

What the developments with players `0`, `1` and `2` share: the instance behind the number of a player
and a loop that adds up.
-/
namespace OramPro

instance instNeZeroThree : NeZero 3 := ⟨by decide⟩

lemma foldl_add_sum {M : Type*} [AddCommMonoid M] (f : ℕ → M) (a : M) (n : ℕ) :
    (List.range n).foldl (fun acc j => acc+f j) a = a+∑ j ∈ Finset.range n, f j := by
  induction n with
  | zero => simp
  | succ n ih =>
    rw [List.range_succ, List.foldl_append, ih, Finset.sum_range_succ, List.foldl_cons, List.foldl_nil,
      add_assoc]

end OramPro
