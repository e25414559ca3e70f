import OramPro.ThreeParty

/-!
# Masked sharings and dot products

`semi.h` for `T = uint64_t`. Players 1 and 2 hold `r_1 = v + r`, player 0 holds `r`, and the shares
`r_2` of players 1 and 2 add up to it.
-/
namespace OramPro.Semi

abbrev Word := BitVec 64
abbrev Party := Fin 3

structure AShare where
  lens : ℕ
  r_1 : ℕ → Word
  r_2 : ℕ → Word
  r : ℕ → Word

section arrays

/-- `papply`, with what `z` held behind its first `lens` entries. -/
def papply (z x y : ℕ → Word) (lens : ℕ) (op : Word → Word → Word) : ℕ → Word :=
  fun i => if i < lens then op (x i) (y i) else z i

lemma papply_of_lt {z x y : ℕ → Word} {lens i : ℕ} {op : Word → Word → Word} (h : i < lens) :
    papply z x y lens op i = op (x i) (y i) := if_pos h

/-- `random_T`: the encryption of the zero block in whole blocks, then ones from an index that is
counted in bytes. -/
def random_T (aes : Bool → Word) (target : ℕ → Word) (lens : ℕ) : ℕ → Word := fun i =>
  if i < lens*8/16*2 then aes (i%2 == 1)
  else if lens*8/16*16 ≤ i ∧ i < lens then 1 else target i

lemma random_T_one (aes : Bool → Word) (target : ℕ → Word) (i : ℕ) :
    random_T aes target 1 i = if i = 0 then 1 else target i := by
  simp [random_T]

end arrays

/-! ## Opening -/

section protocols
variable (dd : ℕ) (aes : Bool → Word)

/-- `ShareB<T, dd>` of all parties. In packed mode only arrays of the function itself are written and
sent. -/
def ShareB (org : ℕ → Word) (target : Party → ℕ → Word) (lens : ℕ) : Party → ℕ → Word :=
  if dd = 1 then
    let target := fun p => random_T aes (target p) lens
    fun p => if p = 1 then papply (target 1) org (target 0) lens (·-·) else target p
  else target

/-- `RevealB<T, dd>` of players 1 and 2. -/
def RevealB (org : Party → ℕ → Word) (lens : ℕ) : Party → ℕ → Word :=
  if dd = 1 then fun p =>
    if p = 1 then papply (org 1) (org 1) (org 2) lens (·+·)
    else if p = 2 then papply (org 2) (org 2) (org 1) lens (·+·) else org p
  else org

/-! ## `Dot` -/

variable (x y : Party → ℕ → AShare) (lens : ℕ)

def drawn (need_gen : Bool) (output : AShare) (p : Party) : AShare :=
  if need_gen then
    if p = 0 then
      let r_1 := random_T aes output.r_1 output.lens
      let r_2 := random_T aes output.r_2 output.lens
      { output with r_1 := r_1, r_2 := r_2, r := papply output.r r_1 r_2 output.lens (·+·) }
    else { output with r_2 := random_T aes output.r_2 output.lens }
  else output

def gammaSum (i : ℕ) : Word := (List.range lens).foldl (fun g j => g+(x 0 j).r i*(y 0 j).r i) 0

/-- `Dot::set_up`; `temp` is the array that player 0 shares into. -/
def set_up (temp : ℕ → Word) (output : Party → AShare) (need_gen : Bool) : Party → AShare :=
  let output := fun p => drawn aes need_gen (output p) p
  let gammas := fun i => gammaSum x y lens i+(output 0).r i
  let target := ShareB dd aes gammas (fun p => if p = 0 then temp else (output p).r_1) (output 0).lens
  fun p => if p = 0 then output p else { output p with r_1 := target p }

def onlineStep (p : Party) (i : ℕ) (acc : Word) (x y : AShare) : Word :=
  let acc := if p = 1 then acc+x.r_1 i*y.r_1 i else acc
  acc-x.r_1 i*y.r_2 i-x.r_2 i*y.r_1 i

/-- `Dot::online`. -/
def online (output : Party → AShare) : Party → AShare :=
  let r_1 := fun p i =>
    if i < (output p).lens then
      (List.range lens).foldl (fun acc j => onlineStep p i acc (x p j) (y p j)) ((output p).r_1 i)
    else (output p).r_1 i
  let r_1 := RevealB dd r_1 (output 1).lens
  fun p => if p = 0 then output p else { output p with r_1 := r_1 p }

namespace Mult
variable (x y : Party → AShare)

/-- `Mult::set_up`, which shares in plain mode. -/
def set_up (temp : ℕ → Word) (output : Party → AShare) (need_gen : Bool) : Party → AShare :=
  let output := fun p => drawn aes need_gen (output p) p
  let gammas := fun i => (x 0).r i*(y 0).r i+(output 0).r i
  let target := ShareB 1 aes gammas (fun p => if p = 0 then temp else (output p).r_1) (output 0).lens
  fun p => if p = 0 then output p else { output p with r_1 := target p }

/-- `Mult::online`. -/
def online (output : Party → AShare) : Party → AShare :=
  let r_1 := fun p i =>
    if i < (output p).lens then onlineStep p i ((output p).r_1 i) (x p) (y p) else (output p).r_1 i
  let r_1 := RevealB 1 r_1 (output 1).lens
  fun p => if p = 0 then output p else { output p with r_1 := r_1 p }

end Mult

end protocols

/-! ## Masked sharings -/

/-- The first `L` entries are a masked sharing of `v`. -/
def Masks (L : ℕ) (s : Party → AShare) (v : ℕ → Word) : Prop :=
  ∀ c < L, (s 1).r_1 c = v c+(s 0).r c ∧ (s 2).r_1 c = v c+(s 0).r c ∧
    (s 1).r_2 c+(s 2).r_2 c = (s 0).r c

section dot
variable {x y : Party → ℕ → AShare} {lens L : ℕ} {xv yv : ℕ → ℕ → Word}

def product (p : Party) (c : ℕ) (x y : AShare) : Word :=
  (if p = 1 then x.r_1 c*y.r_1 c else 0)-x.r_1 c*y.r_2 c-x.r_2 c*y.r_1 c

def localSum (x y : Party → ℕ → AShare) (lens : ℕ) (p : Party) (c : ℕ) : Word :=
  ∑ j ∈ Finset.range lens, product p c (x p j) (y p j)

lemma onlineStep_eq (p : Party) (c : ℕ) (acc : Word) (x y : AShare) :
    onlineStep p c acc x y = acc+product p c x y := by
  rw [onlineStep, product]
  split <;> ring

lemma online_fold (x y : Party → ℕ → AShare) (lens : ℕ) (p : Party) (c : ℕ) (acc : Word) :
    (List.range lens).foldl (fun acc j => onlineStep p c acc (x p j) (y p j)) acc =
      acc+localSum x y lens p c := by
  simp only [onlineStep_eq]
  exact foldl_add_sum (fun j => product p c (x p j) (y p j)) acc lens

lemma gammaSum_eq (c : ℕ) :
    gammaSum x y lens c = ∑ j ∈ Finset.range lens, (x 0 j).r c*(y 0 j).r c := by
  rw [gammaSum, foldl_add_sum fun j => (x 0 j).r c*(y 0 j).r c, zero_add]

/-- The contributions of players 1 and 2 and the masks make the dot product. -/
lemma dot_value (hx : ∀ j < lens, Masks L (x · j) (xv j)) (hy : ∀ j < lens, Masks L (y · j) (yv j))
    {c : ℕ} (hc : c < L) :
    localSum x y lens 1 c+localSum x y lens 2 c+gammaSum x y lens c =
      ∑ j ∈ Finset.range lens, xv j c*yv j c := by
  rw [localSum, localSum, gammaSum_eq, ← Finset.sum_add_distrib, ← Finset.sum_add_distrib]
  refine Finset.sum_congr rfl fun j hj => ?_
  obtain ⟨hx1, hx2, hxr⟩ := hx j (Finset.mem_range.mp hj) c hc
  obtain ⟨hy1, hy2, hyr⟩ := hy j (Finset.mem_range.mp hj) c hc
  have h21 : (2 : Party) ≠ 1 := by decide
  simp only [product, if_pos, if_neg h21, hx1, hx2, hy1, hy2]
  rw [← hxr, ← hyr]
  ring

/-- The masks that `set_up` draws, or those that are there, satisfy the relation. -/
lemma drawn_masks {aes : Bool → Word} {output : Party → AShare} {need_gen : Bool}
    (hout : ∀ p, (output p).lens = L) (hcov : ∀ c < L, ∀ target, random_T aes target L c = random_T aes 0 L c)
    (hmask : need_gen = true ∨ ∀ c < L, (output 1).r_2 c+(output 2).r_2 c = (output 0).r c) {c : ℕ}
    (hc : c < L) :
    (drawn aes need_gen (output 1) 1).r_2 c+(drawn aes need_gen (output 2) 2).r_2 c =
      (drawn aes need_gen (output 0) 0).r c := by
  have h10 : (1 : Party) ≠ 0 := by decide
  have h20 : (2 : Party) ≠ 0 := by decide
  cases need_gen with
  | true =>
    simp only [drawn, if_true, if_neg h10, if_neg h20, hout, papply_of_lt hc, hcov c hc]
  | false =>
    exact (hmask.resolve_left (by decide)) c hc

/-- In plain mode the dot product of arrays that the random bytes fill is a masked sharing. -/
lemma dot_masks {aes : Bool → Word} (temp : ℕ → Word) {output : Party → AShare} {need_gen : Bool}
    (hout : ∀ p, (output p).lens = L) (hcov : ∀ c < L, ∀ target, random_T aes target L c = random_T aes 0 L c)
    (hmask : need_gen = true ∨ ∀ c < L, (output 1).r_2 c+(output 2).r_2 c = (output 0).r c)
    (hx : ∀ j < lens, Masks L (x · j) (xv j)) (hy : ∀ j < lens, Masks L (y · j) (yv j)) :
    Masks L (online 1 x y lens (set_up 1 aes x y lens temp output need_gen))
      (fun c => ∑ j ∈ Finset.range lens, xv j c*yv j c) := by
  intro c hc
  have hdot := dot_value hx hy hc
  have hdrawn := drawn_masks hout hcov hmask hc
  have hlens : ∀ p, (drawn aes need_gen (output p) p).lens = L := by
    intro p
    rw [drawn, ← hout p]
    split_ifs <;> rfl
  have h10 : (1 : Party) ≠ 0 := by decide
  have h20 : (2 : Party) ≠ 0 := by decide
  have h21 : (2 : Party) ≠ 1 := by decide
  simp only [online, set_up, RevealB, ShareB, if_pos, if_neg h10, if_neg h20, if_neg h21, hlens,
    papply_of_lt hc, online_fold, if_pos hc, hcov c hc]
  rw [← hdot]
  refine ⟨?_,?_,hdrawn⟩
  · ring
  · ring

end dot

/-! ## Whole blocks -/

section blocks
variable {aes : Bool → Word} {L : ℕ}

/-- Arrays of whole blocks are filled by the encryption alone. -/
lemma random_T_blocks (h : 16 ∣ 8*L) {c : ℕ} (hc : c < L) (target : ℕ → Word) :
    random_T aes target L c = aes (c%2 == 1) := by
  rw [random_T, if_pos (by omega)]

/-- A product is a dot product of one pair. -/
lemma mult_eq_dot (x y : Party → AShare) (temp : ℕ → Word) (output : Party → AShare) (need_gen : Bool) :
    Mult.online x y (Mult.set_up aes x y temp output need_gen) =
      online 1 (fun p _ => x p) (fun p _ => y p) 1
        (set_up 1 aes (fun p _ => x p) (fun p _ => y p) 1 temp output need_gen) := by
  have hset : Mult.set_up aes x y temp output need_gen =
      set_up 1 aes (fun p _ => x p) (fun p _ => y p) 1 temp output need_gen := by
    have hgamma : ∀ i, gammaSum (fun p _ => x p) (fun p _ => y p) 1 i = (x 0).r i*(y 0).r i :=
      fun i => zero_add _
    simp only [Mult.set_up, set_up, hgamma]
  rw [hset]
  rfl

/-- Output arrays of whole blocks, with masks of their own unless they are generated. -/
structure Outputs (L : ℕ) (need_gen : Bool) where
  output : Party → AShare
  lens : ∀ p, (output p).lens = L
  masks : need_gen = true ∨ ∀ c < L, (output 1).r_2 c+(output 2).r_2 c = (output 0).r c

/-- `Mult` and `Dot` turn masked sharings into a masked sharing of the product and of the dot
product. -/
theorem masked_products (aes : Bool → Word) (temp : ℕ → Word) {need_gen : Bool} (h : 16 ∣ 8*L)
    (o : Outputs L need_gen) :
    (∀ (x y : Party → AShare) (xv yv : ℕ → Word), Masks L x xv → Masks L y yv →
      Masks L (Mult.online x y (Mult.set_up aes x y temp o.output need_gen)) fun c => xv c*yv c) ∧
    ∀ (x y : Party → ℕ → AShare) (lens : ℕ) (xv yv : ℕ → ℕ → Word),
      (∀ j < lens, Masks L (x · j) (xv j)) → (∀ j < lens, Masks L (y · j) (yv j)) →
      Masks L (online 1 x y lens (set_up 1 aes x y lens temp o.output need_gen))
        fun c => ∑ j ∈ Finset.range lens, xv j c*yv j c := by
  have hcov : ∀ c < L, ∀ target, random_T aes target L c = random_T aes 0 L c := by
    intro c hc target
    rw [random_T_blocks h hc, random_T_blocks h hc]
  refine ⟨fun x y xv yv hx hy => ?_,fun x y lens xv yv hx hy => dot_masks temp o.lens hcov o.masks hx hy⟩
  have hdot : Masks L (online 1 (fun p _ => x p) (fun p _ => y p) 1
      (set_up 1 aes (fun p _ => x p) (fun p _ => y p) 1 temp o.output need_gen))
      fun c => ∑ j ∈ Finset.range 1, xv c*yv c :=
    dot_masks temp o.lens hcov o.masks (fun _ _ => hx) fun _ _ => hy
  rw [mult_eq_dot]
  simpa only [Finset.sum_range_one] using hdot

end blocks

/-! ### Two entries -/

/-- A sharing of `v` in both entries with the mask 0. -/
def unmasked (v : Word) (_ : Party) : AShare := ⟨2,fun _ => v,fun _ => 0,fun _ => 0⟩

lemma unmasked_masks (v : Word) : Masks 2 (unmasked v) fun _ => v :=
  fun _ _ => ⟨(add_zero v).symm,(add_zero v).symm,rfl⟩

def twoOutputs : Outputs 2 true := ⟨unmasked 0,fun _ => rfl,.inl rfl⟩

/-- With random masks of 7 and 8 the product of 3 and 5 is a sharing of 15. -/
theorem masked_products_two :
    Masks 2 (Mult.online (unmasked 3) (unmasked 5) (Mult.set_up (fun b => if b then 8 else 7) (unmasked 3)
      (unmasked 5) 0 twoOutputs.output true)) (fun _ => 3*5) :=
  (masked_products _ 0 (by decide) twoOutputs).1 _ _ _ _ (unmasked_masks 3) (unmasked_masks 5)

end OramPro.Semi
