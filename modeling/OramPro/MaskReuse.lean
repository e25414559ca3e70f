import OramPro.Csot

/-!
# Which masks are fresh

Every masked word comes with its draws, the pairs of a shared key and an input block. `CSOT::online`
packs the session number and a loop index into the block, and so does every loop of
`ConstDtEval::online`.
-/
namespace OramPro.MaskReuse
open Csot

abbrev Party := Csot.Party

/-- No two words of the list have a draw in common. -/
def Fresh (l : List Masked) : Prop := l.Pairwise fun a b => ∀ d ∈ a.draws, d ∉ b.draws

/-! ## `CSOT` -/

section csot
variable (prf : Fin 3 → Block → Block)

/-- The arguments of one `online` or `online_1`, with the masks `rou` of the object. -/
structure CsotCall where
  block : Party → Bool → Word
  m : Party → Bool → Word
  rou : Party → Word
  sid : Word
  mod : Word

def csotMasked (p : Party) (c : CsotCall) : List Masked :=
  (List.finRange 3).map (deltaShare prf (c.m p) (c.rou p) c.sid p)
    ++[false,true].map (blockShare prf (c.block p) c.sid c.mod p)

/-- A difference and a block with the same index are masked by the same two words. -/
lemma same_draws (m block : Bool → Word) (rou sid mod : Word) (p i : Party) (b : Bool)
    (h : i.val = b.toNat) :
    (deltaShare prf m rou sid p i).draws = (blockShare prf block sid mod p b).draws := by
  rw [deltaShare, blockShare, h]

/-- Their sum does not depend on the masks. Player 0 sends both words for index 1 to player 2, and
player 2 both for index 0 to player 1. -/
lemma masks_cancel (m block : Bool → Word) (rou sid : Word) (p i : Party) (b : Bool)
    (h : i.val = b.toNat) (hi : i ≠ p) :
    (deltaShare prf m rou sid p i).word+(blockShare prf block sid 0 p b).word =
      m true-m false+block b := by
  simp only [deltaShare, blockShare, h, if_neg hi, ne_eq, not_true_eq_false, if_false]
  ring

lemma csot_not_fresh (p : Party) (c : CsotCall) (l : List Masked) : ¬Fresh (csotMasked prf p c++l) := by
  intro h
  obtain ⟨hcall, -, -⟩ := List.pairwise_append.mp h
  obtain ⟨-, -, hcross⟩ := List.pairwise_append.mp hcall
  have hdelta : deltaShare prf (c.m p) (c.rou p) c.sid p 0 ∈
      (List.finRange 3).map (deltaShare prf (c.m p) (c.rou p) c.sid p) :=
    List.mem_map_of_mem (List.mem_finRange 0)
  have hblock : blockShare prf (c.block p) c.sid c.mod p false ∈
      [false,true].map (blockShare prf (c.block p) c.sid c.mod p) := .head _
  refine hcross _ hdelta _ hblock (w0 p (input c.sid 0)) (.head _) ?_
  rw [← same_draws prf (c.m p) (c.block p) (c.rou p) c.sid c.mod p 0 false rfl]
  exact .head _

end csot

/-! ## `ConstDtEval` -/

section dt
variable (prf : Fin 3 → Block → Block) (node_lens : ℕ)

/-- What a player of `ConstDtEval::online` has computed before it masks: the shares of the features
from the transfer, the bit shares of the comparisons, and the tree. -/
structure DtCall where
  t : Party → ℕ → Word
  x_ki : Party → ℕ → Word
  bs : Party → ℕ → Word
  vs : Party → ℕ → Word
  sid : Word

/-- The block of a leaf: the session number, four bytes for the index and one for the player. -/
def leafInput (sid : Word) (i : ℕ) (b : Bool) : Block :=
  sid.setWidth 128|||((BitVec.ofNat 32 i).setWidth 128)<<<32|||((BitVec.ofBool b).setWidth 128)<<<64

variable (c : DtCall) (p : Party)

def deltaX (i : ℕ) : Masked :=
  let a := w0 p (input c.sid i)
  let b := w1 p (input c.sid i)
  ⟨[a,b],c.t p i-c.x_ki p i+mask prf a-mask prf b⟩

/-- The multiplier `r` of node `i`, under the key of players 0 and 1. -/
def multiplier (i : ℕ) : Masked :=
  let a := w0 0 (input c.sid i)
  ⟨[a],mask prf a⟩

/-- The shares `c` of the path costs after the loop over the nodes. -/
def costs : ℕ → Word :=
  (List.range node_lens).foldl (fun cost i =>
    let r := (multiplier prf c i).word
    let e_0 := (1-BitVec.ofNat 32 p.val-c.bs p i)*r
    let e_1 := c.bs p i*r
    let cost := Function.update cost (i*2+1) (cost (i*2+1)+(cost i+e_0))
    Function.update cost (i*2+2) (cost (i*2+2)+(cost i+e_1))) fun _ => 0

/-- `delta` is overwritten with 0. -/
def rotation : ℕ := 0

def c_hat (i : ℕ) : Word :=
  costs prf node_lens c p ((i+node_lens+1-rotation)%(node_lens+1)+node_lens)

/-- `v_hat[i]`, masked by `w0s[i]` at player 0 and by `w1s[i]` at player 1. -/
def v_hat (i : ℕ) : Masked :=
  let a := w0 0 (leafInput c.sid i (p ≠ 0))
  ⟨[a],c.vs p ((i+node_lens+1-rotation)%(node_lens+1))-mask prf a⟩

def dtMasked : List Masked :=
  (List.range node_lens).map (deltaX prf c p)++
    if p = 2 then []
    else (List.range node_lens).map (multiplier prf c)++(List.range (node_lens+1)).map (v_hat prf node_lens c p)

variable {node_lens}

lemma dt_not_fresh (h : 0 < node_lens) (l : List Masked) : ¬Fresh (dtMasked prf node_lens c 0++l) := by
  intro hfresh
  obtain ⟨hcall, -, -⟩ := List.pairwise_append.mp hfresh
  obtain ⟨-, -, hcross⟩ := List.pairwise_append.mp hcall
  have hdelta : deltaX prf c 0 0 ∈ (List.range node_lens).map (deltaX prf c 0) :=
    List.mem_map_of_mem (List.mem_range.mpr h)
  have hr : multiplier prf c 0 ∈ (List.range node_lens).map (multiplier prf c) :=
    List.mem_map_of_mem (List.mem_range.mpr h)
  exact hcross _ hdelta _ (List.mem_append_left _ hr) (w0 0 (input c.sid 0)) (.head _) (.head _)

lemma leafInput_sid (sid : Word) (i : ℕ) (b : Bool) : (leafInput sid i b).setWidth 32 = sid := by
  refine BitVec.eq_of_getLsbD_eq fun j hj => ?_
  simp [leafInput, hj]

lemma dtMasked_leaf :
    dtMasked prf 0 c p = if p = 2 then [] else [v_hat prf 0 c p 0] := rfl

lemma dt_fresh_leaf {calls : List DtCall} (h : (calls.map DtCall.sid).Nodup) :
    Fresh (calls.flatMap fun c => dtMasked prf 0 c p) := by
  simp only [dtMasked_leaf]
  by_cases hp : p = 2
  · have hnil : calls.flatMap (fun _ => ([] : List Masked)) = [] := List.flatMap_eq_nil_iff.mpr fun _ _ => rfl
    simp only [if_pos hp, hnil]
    exact .nil
  · simp only [if_neg hp, ← List.map_eq_flatMap, Fresh, List.pairwise_map]
    refine (List.pairwise_map.mp h).imp fun {c c'} hne d hd hd' => hne ?_
    rw [v_hat, List.mem_singleton] at hd hd'
    have hblock := congrArg Prod.snd (hd.symm.trans hd')
    rw [← leafInput_sid c.sid 0 (p ≠ 0), ← leafInput_sid c'.sid 0 (p ≠ 0)]
    exact congrArg (BitVec.setWidth 32) hblock

end dt

/-! ## Runs -/

/-- A run of `CSOT` calls with different session numbers uses fresh masks only if it has no call, and
one of `ConstDtEval` calls only if it has no call or the tree has no inner node. -/
theorem fresh_iff (prf : Fin 3 → Block → Block) (node_lens : ℕ) (calls : List CsotCall)
    (dtCalls : List DtCall) (hdt : (dtCalls.map DtCall.sid).Nodup) :
    ((∀ p, Fresh (calls.flatMap (csotMasked prf p))) ↔ calls = []) ∧
      ((∀ p, Fresh (dtCalls.flatMap fun c => dtMasked prf node_lens c p)) ↔
        dtCalls = [] ∨ node_lens = 0) := by
  refine ⟨⟨fun h => ?_,?_⟩,⟨fun h => ?_,?_⟩⟩
  · cases calls with
    | nil => rfl
    | cons c calls => exact absurd (h 0) (csot_not_fresh prf 0 c _)
  · rintro rfl p
    exact .nil
  · cases dtCalls with
    | nil => exact .inl rfl
    | cons c dtCalls =>
      rcases Nat.eq_zero_or_pos node_lens with hzero | hpos
      · exact .inr hzero
      · exact absurd (h 0) (dt_not_fresh prf c hpos _)
  · rintro (rfl | rfl) p
    · exact .nil
    · exact dt_fresh_leaf prf p hdt

def zeroCsot : CsotCall := ⟨fun _ _ => 0,fun _ _ => 0,fun _ => 0,0,0⟩

def zeroDt (sid : Word) : DtCall := ⟨fun _ _ => 0,fun _ _ => 0,fun _ _ => 0,fun _ _ => 0,sid⟩

theorem fresh_single_leaf :
    ([zeroDt 0,zeroDt 1].map DtCall.sid).Nodup ∧
      ∀ p, Fresh ([zeroDt 0,zeroDt 1].flatMap fun c => dtMasked (fun _ _ => 0) 0 c p) := by
  have hsids : ([zeroDt 0,zeroDt 1].map DtCall.sid).Nodup := by decide
  exact ⟨hsids,(fresh_iff (fun _ _ => 0) 0 [] _ hsids).2.mpr (.inr rfl)⟩

/-- One call of either protocol, the tree with one inner node. -/
theorem one_call_reuses :
    (¬∀ p, Fresh ([zeroCsot].flatMap (csotMasked (fun _ _ => 0) p))) ∧
      ¬∀ p, Fresh ([zeroDt 0].flatMap fun c => dtMasked (fun _ _ => 0) 1 c p) :=
  ⟨fun h => csot_not_fresh (fun _ _ => 0) 0 zeroCsot [] (h 0),
    fun h => dt_not_fresh (fun _ _ => 0) (zeroDt 0) zero_lt_one [] (h 0)⟩

end OramPro.MaskReuse
