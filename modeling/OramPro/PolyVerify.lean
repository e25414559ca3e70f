import OramPro.Semi

/-!
# Halving an inner product

`PolyVerify::verify`: a quadratic polynomial through two dot products and the difference of the first
one to `z` is read off at `delta`. The dot products run in packed mode.
-/
namespace OramPro.PolyVerify
open Semi

abbrev Word := Semi.Word
abbrev Party := Semi.Party

def delta : Word := 1024
def d0 : Word := (delta-1)*(delta-2)/2
def d1 : Word := delta*(2-delta)
def d2 : Word := (delta-1)*delta/2

def inter (d0 d1 d2 : Word) (x_0 x_1 x_2 result : AShare) : AShare :=
  { result with
    r := fun i => if i < result.lens then x_0.r i*d0+x_1.r i*d1+x_2.r i*d2 else result.r i
    r_1 := fun i => if i < result.lens then x_0.r_1 i*d0+x_1.r_1 i*d1+x_2.r_1 i*d2 else result.r_1 i
    r_2 := fun i => if i < result.lens then x_0.r_2 i*d0+x_1.r_2 i*d1+x_2.r_2 i*d2 else result.r_2 i }

def inter2 (d0 d1 : Word) (x_0 x_1 result : AShare) : AShare :=
  { result with
    r := fun i => if i < result.lens then x_0.r i*d0+x_1.r i*d1 else result.r i
    r_1 := fun i => if i < result.lens then x_0.r_1 i*d0+x_1.r_1 i*d1 else result.r_1 i
    r_2 := fun i => if i < result.lens then x_0.r_2 i*d0+x_1.r_2 i*d1 else result.r_2 i }

def papplyAll (z x y : AShare) (LENS : ℕ) (op : Word → Word → Word) : AShare :=
  { z with
    r := papply z.r x.r y.r LENS op
    r_1 := papply z.r_1 x.r_1 y.r_1 LENS op
    r_2 := papply z.r_2 x.r_2 y.r_2 LENS op }

/-- A sharing whose constructor has run: `lens` is 1, the arrays are uninitialised. -/
def created (s : AShare) : AShare := { s with lens := 1 }

/-- The uninitialised memory of `verify`. -/
structure Memory where
  h0 : Party → AShare
  h1 : Party → AShare
  h2 : Party → AShare
  ff2 : Party → ℕ → AShare
  gg2 : Party → ℕ → AShare
  temp0 : ℕ → Word
  temp2 : ℕ → Word

structure Output where
  x_p : Party → ℕ → AShare
  y_p : Party → ℕ → AShare
  z_p : Party → AShare

section verify
variable (aes : Bool → Word) (LENS N : ℕ) (x y : Party → ℕ → AShare) (z : Party → AShare)

/-- The third point of a line. -/
def third (ff2 x : Party → ℕ → AShare) (p : Party) (i : ℕ) : AShare :=
  papplyAll (created (ff2 p i)) (x p (2*i+1)) (x p (2*i)) LENS fun a b => 2*a-b

def dot (f g : Party → ℕ → AShare) (temp : ℕ → Word) (h : Party → AShare) : Party → AShare :=
  online 32 f g (N/2) (set_up 32 aes f g (N/2) temp (fun p => created (h p)) true)

/-- The pairs `i < N/2` of the outputs are written. -/
def verify (mem : Memory) (out : Output) : Output :=
  let ff0 := fun p i => x p (2*i)
  let gg0 := fun p i => y p (2*i)
  let h0 := dot aes N ff0 gg0 mem.temp0 mem.h0
  let h1 := fun p => papplyAll (created (mem.h1 p)) (z p) (h0 p) LENS fun a b => a-b
  let h2 := dot aes N (third LENS mem.ff2 x) (third LENS mem.gg2 y) mem.temp2 mem.h2
  { x_p := fun p i =>
      if i < N/2 then inter2 (1-delta) delta (x p (2*i)) (x p (2*i+1)) (out.x_p p i) else out.x_p p i
    y_p := fun p i =>
      if i < N/2 then inter2 (1-delta) delta (y p (2*i)) (y p (2*i+1)) (out.y_p p i) else out.y_p p i
    z_p := fun p => inter d0 d1 d2 (h0 p) (h1 p) (h2 p) (out.z_p p) }

/-- The lines through the entries `2*i` and `2*i+1` at `delta`, for `i < N/2`. -/
def halve (x out : Party → ℕ → AShare) : Party → ℕ → AShare := fun p i =>
  if i < N/2 then inter2 (1-delta) delta (x p (2*i)) (x p (2*i+1)) (out p i) else out p i

/-- `verify` with what its two dot products return. -/
def verifyWith (h0 h1 h2 : Party → AShare) (out : Output) : Output :=
  let h1 := fun p => papplyAll (created (h1 p)) (z p) (h0 p) LENS fun a b => a-b
  { x_p := halve N x out.x_p
    y_p := halve N y out.y_p
    z_p := fun p => inter d0 d1 d2 (h0 p) (h1 p) (h2 p) (out.z_p p) }

lemma verify_eq (mem : Memory) (out : Output) :
    verify aes LENS N x y z mem out = verifyWith LENS N x y z
      (dot aes N (fun p i => x p (2*i)) (fun p i => y p (2*i)) mem.temp0 mem.h0) mem.h1
      (dot aes N (third LENS mem.ff2 x) (third LENS mem.gg2 y) mem.temp2 mem.h2) out := rfl

lemma verifyWith_x_p (h0 h1 h2 : Party → AShare) (out : Output) :
    (verifyWith LENS N x y z h0 h1 h2 out).x_p = halve N x out.x_p := rfl

lemma verifyWith_y_p (h0 h1 h2 : Party → AShare) (out : Output) :
    (verifyWith LENS N x y z h0 h1 h2 out).y_p = halve N y out.y_p := rfl

end verify

/-! ## What the packed dot products leave out -/

/-- The value that players 0 and 1 hold together. -/
def opened (s : Party → AShare) (c : ℕ) : Word := (s 1).r_1 c-(s 0).r c

/-- How far the memory of player `p` is from what the packed mode neither shares nor opens: the sum
of the masks, the contribution of the other player and the mask of the output. Only entry 0 is
computed. -/
def valueGap (f g : Party → ℕ → AShare) (n : ℕ) (h : Party → AShare) (p q : Party) (c : ℕ) : Word :=
  if c = 0 then (h p).r_1 c-(gammaSum f g n c+localSum f g n q c+2)
  else (h p).r_1 c-(gammaSum f g n c+localSum f g n p c+localSum f g n q c+(h 0).r c)

def maskGap (h : Party → AShare) (c : ℕ) : Word :=
  if c = 0 then 0 else (h 1).r_2 c+(h 2).r_2 c-(h 0).r c

section dot
variable {aes : Bool → Word} {N L : ℕ} {f g : Party → ℕ → AShare} {temp : ℕ → Word} {h : Party → AShare}
  {fv gv : ℕ → ℕ → Word}

lemma dot_r (c : ℕ) : (dot aes N f g temp h 0).r c = if c = 0 then 2 else (h 0).r c := by
  simp only [dot, online, set_up, drawn, created, if_true, papply, random_T_one, Nat.lt_one_iff]
  split
  · rfl
  · rfl

lemma dot_r_2 {p : Party} (hp : p ≠ 0) (c : ℕ) :
    (dot aes N f g temp h p).r_2 c = if c = 0 then 1 else (h p).r_2 c := by
  simp only [dot, online, set_up, drawn, created, if_true, if_neg hp, random_T_one]

lemma dot_r_1 {p : Party} (hp : p ≠ 0) (c : ℕ) :
    (dot aes N f g temp h p).r_1 c =
      if c = 0 then (h p).r_1 c+localSum f g (N/2) p c else (h p).r_1 c := by
  have hpacked : (32 : ℕ) ≠ 1 := by norm_num
  simp only [dot, online, set_up, drawn, created, RevealB, ShareB, if_true, if_neg hp, if_neg hpacked,
    online_fold, Nat.lt_one_iff]

lemma dot_maskGap (aes : Bool → Word) (N : ℕ) (f g : Party → ℕ → AShare) (temp : ℕ → Word)
    (h : Party → AShare) (c : ℕ) :
    (dot aes N f g temp h 1).r_2 c+(dot aes N f g temp h 2).r_2 c-(dot aes N f g temp h 0).r c =
      maskGap h c := by
  rw [dot_r_2 (by decide), dot_r_2 (by decide), dot_r, maskGap]
  split
  · rfl
  · rfl

lemma dot_valueGap (aes : Bool → Word) (temp : ℕ → Word) (h : Party → AShare)
    (hf : ∀ j < N/2, Masks L (f · j) (fv j)) (hg : ∀ j < N/2, Masks L (g · j) (gv j)) {c : ℕ} (hc : c < L)
    {p q : Party} (hpq : p = 1 ∧ q = 2 ∨ p = 2 ∧ q = 1) :
    (dot aes N f g temp h p).r_1 c-(∑ j ∈ Finset.range (N/2), fv j c*gv j c)-(dot aes N f g temp h 0).r c =
      valueGap f g (N/2) h p q c := by
  have hp : p ≠ 0 := by rcases hpq with ⟨rfl, -⟩ | ⟨rfl, -⟩ <;> decide
  have hsum : ∑ j ∈ Finset.range (N/2), fv j c*gv j c =
      localSum f g (N/2) p c+localSum f g (N/2) q c+gammaSum f g (N/2) c := by
    rw [← dot_value hf hg hc]
    rcases hpq with ⟨rfl, rfl⟩ | ⟨rfl, rfl⟩
    · rfl
    · rw [add_comm (localSum f g (N/2) 1 c)]
  rw [hsum, dot_r, dot_r_1 hp, valueGap]
  split
  · ring
  · ring

end dot

/-! ## Interpolation -/

section interpolation
variable {N L LENS : ℕ} {x y : Party → ℕ → AShare} {xv yv : ℕ → ℕ → Word}

lemma d0_eq : d0 = 522753 := by decide
lemma d1_eq : d1 = -1046528 := by decide
lemma d2_eq : d2 = 523776 := by decide
lemma line_eq : (1 : Word)-delta = -1023 := by decide

/-- The product of two lines at `delta`, from its values at three points. -/
lemma line_product (a b a' b' : Word) :
    (a*(1-delta)+b*delta)*(a'*(1-delta)+b'*delta) =
      a*a'*d0+b*b'*d1+(2*b-a)*(2*b'-a')*d2 := by
  rw [d0_eq, d1_eq, d2_eq, line_eq, delta]
  ring

lemma sum_pairs (F : ℕ → Word) (n : ℕ) :
    ∑ j ∈ Finset.range (2*n), F j =
      ∑ i ∈ Finset.range n, F (2*i)+∑ i ∈ Finset.range n, F (2*i+1) := by
  induction n with
  | zero => simp
  | succ n ih =>
    rw [show 2*(n+1) = 2*n+1+1 by ring, Finset.sum_range_succ, Finset.sum_range_succ, ih,
      Finset.sum_range_succ, Finset.sum_range_succ]
    ring

lemma masks_third (mem : Party → ℕ → AShare) (hL : L ≤ LENS) (hx : ∀ j < N, Masks L (x · j) (xv j))
    {i : ℕ} (hi : i < N/2) :
    Masks L (third LENS mem x · i) (fun c => 2*xv (2*i+1) c-xv (2*i) c) := by
  intro c hc
  obtain ⟨h1, h2, hr⟩ := hx (2*i) (by omega) c hc
  obtain ⟨h1', h2', hr'⟩ := hx (2*i+1) (by omega) c hc
  have hlt : c < LENS := by omega
  simp only [third, papplyAll, created, papply_of_lt hlt, h1, h2, h1', h2']
  refine ⟨by ring,by ring,?_⟩
  rw [← hr, ← hr']
  ring

lemma masks_line (hx : ∀ j < N, Masks L (x · j) (xv j)) {i : ℕ} (hi : i < N/2) {out : Party → AShare}
    (hout : ∀ p, (out p).lens = L) :
    Masks L (fun p => inter2 (1-delta) delta (x p (2*i)) (x p (2*i+1)) (out p))
      (fun c => xv (2*i) c*(1-delta)+xv (2*i+1) c*delta) := by
  intro c hc
  obtain ⟨h1, h2, hr⟩ := hx (2*i) (by omega) c hc
  obtain ⟨h1', h2', hr'⟩ := hx (2*i+1) (by omega) c hc
  simp only [inter2, hout, if_pos hc, h1, h2, h1', h2']
  refine ⟨by ring,by ring,?_⟩
  rw [← hr, ← hr']
  ring

lemma opened_eq {s : Party → AShare} {v : ℕ → Word} (h : Masks L s v) {c : ℕ} (hc : c < L) :
    opened s c = v c := by
  rw [opened, (h c hc).1]
  ring

end interpolation

/-! ## The condition -/

/-- A call of `verify` on valid sharings with a right inner product. The sharings have `L` entries. -/
structure Call (L LENS N : ℕ) (x y : Party → ℕ → AShare) (z : Party → AShare) (out : Output) : Prop where
  even : N%2 = 0
  le : L ≤ LENS
  z_p : ∀ p, (out.z_p p).lens = L
  x_p : ∀ p, ∀ i < N/2, (out.x_p p i).lens = L
  y_p : ∀ p, ∀ i < N/2, (out.y_p p i).lens = L
  valid : ∃ xv yv : ℕ → ℕ → Word, (∀ j < N, Masks L (x · j) (xv j)) ∧ (∀ j < N, Masks L (y · j) (yv j)) ∧
    Masks L z fun c => ∑ j ∈ Finset.range N, xv j c*yv j c

/-- The output `z_p` is a masked sharing of the inner product of `x_p` and `y_p`. -/
def Preserved (L N : ℕ) (o : Output) : Prop :=
  Masks L o.z_p fun c => ∑ i ∈ Finset.range (N/2), opened (o.x_p · i) c*opened (o.y_p · i) c

/-- In every entry the gaps of the two dot products cancel. -/
def GapsCancel (L LENS N : ℕ) (x y : Party → ℕ → AShare) (mem : Memory) : Prop :=
  ∀ c < L,
    (∀ p q : Party, p = 1 ∧ q = 2 ∨ p = 2 ∧ q = 1 →
      1569281*valueGap (fun p i => x p (2*i)) (fun p i => y p (2*i)) (N/2) mem.h0 p q c
        +523776*valueGap (third LENS mem.ff2 x) (third LENS mem.gg2 y) (N/2) mem.h2 p q c = 0) ∧
    1569281*maskGap mem.h0 c+523776*maskGap mem.h2 c = 0

/-- The interpolated sharing is right when both dot products are off by cancelling amounts. -/
lemma interpolate_iff (a b r0 r2 S0 S1 S2 zr : Word) :
    a*d0+(S0+S1+zr-a)*d1+b*d2 = S0*d0+S1*d1+S2*d2+(r0*d0+(zr-r0)*d1+r2*d2) ↔
      1569281*(a-S0-r0)+523776*(b-S2-r2) = 0 := by
  rw [d0_eq, d1_eq, d2_eq]
  constructor
  · intro h
    linear_combination h
  · intro h
    linear_combination h

lemma mask_iff (a a' b b' r0 r2 z z' zr : Word) (hz : z+z' = zr) :
    a*d0+(z-a)*d1+b*d2+(a'*d0+(z'-a')*d1+b'*d2) = r0*d0+(zr-r0)*d1+r2*d2 ↔
      1569281*(a+a'-r0)+523776*(b+b'-r2) = 0 := by
  rw [d0_eq, d1_eq, d2_eq, ← hz]
  constructor
  · intro h
    linear_combination h
  · intro h
    linear_combination h

section preserved
variable {aes : Bool → Word} {L LENS N : ℕ} {x y : Party → ℕ → AShare} {z : Party → AShare}
  {mem : Memory} {out : Output} {xv yv : ℕ → ℕ → Word} {c : ℕ}

lemma halve_sum {xo yo : Party → ℕ → AShare} (hxo : ∀ p, ∀ i < N/2, (xo p i).lens = L)
    (hyo : ∀ p, ∀ i < N/2, (yo p i).lens = L) (hx : ∀ j < N, Masks L (x · j) (xv j))
    (hy : ∀ j < N, Masks L (y · j) (yv j)) (hc : c < L) :
    ∑ i ∈ Finset.range (N/2), opened (halve N x xo · i) c*opened (halve N y yo · i) c =
      (∑ i ∈ Finset.range (N/2), xv (2*i) c*yv (2*i) c)*d0
        +(∑ i ∈ Finset.range (N/2), xv (2*i+1) c*yv (2*i+1) c)*d1
        +(∑ i ∈ Finset.range (N/2), (2*xv (2*i+1) c-xv (2*i) c)*(2*yv (2*i+1) c-yv (2*i) c))*d2 := by
  rw [Finset.sum_mul, Finset.sum_mul, Finset.sum_mul, ← Finset.sum_add_distrib, ← Finset.sum_add_distrib]
  refine Finset.sum_congr rfl fun i hi => ?_
  have hi' := Finset.mem_range.mp hi
  have hxi := opened_eq (masks_line hx hi' (hxo · i hi')) hc
  have hyi := opened_eq (masks_line hy hi' (hyo · i hi')) hc
  have hhalve : ∀ f o p, halve N f o p i = inter2 (1-delta) delta (f p (2*i)) (f p (2*i+1)) (o p i) :=
    fun f o p => if_pos hi'
  simp only [hhalve, hxi, hyi]
  exact line_product ..

lemma verifyWith_z_p (hz : ∀ p, (out.z_p p).lens = L) (hL : L ≤ LENS) (N : ℕ) (x y : Party → ℕ → AShare)
    (z h0 h1 h2 : Party → AShare) (hc : c < L) (p : Party) :
    let s := (verifyWith LENS N x y z h0 h1 h2 out).z_p p
    s.r_1 c = (h0 p).r_1 c*d0+((z p).r_1 c-(h0 p).r_1 c)*d1+(h2 p).r_1 c*d2 ∧
      s.r_2 c = (h0 p).r_2 c*d0+((z p).r_2 c-(h0 p).r_2 c)*d1+(h2 p).r_2 c*d2 ∧
      s.r c = (h0 p).r c*d0+((z p).r c-(h0 p).r c)*d1+(h2 p).r c*d2 := by
  intro s
  have hlt : c < LENS := lt_of_lt_of_le hc hL
  simp only [s, verifyWith, inter, hz, if_pos hc, papplyAll, papply_of_lt hlt, and_self]

/-- The inner product of the even and of the odd pairs. -/
lemma sum_halves (hN : N%2 = 0) (c : ℕ) : ∑ j ∈ Finset.range N, xv j c*yv j c =
    ∑ i ∈ Finset.range (N/2), xv (2*i) c*yv (2*i) c
      +∑ i ∈ Finset.range (N/2), xv (2*i+1) c*yv (2*i+1) c := by
  have hdouble : N = 2*(N/2) := by omega
  conv_lhs => rw [hdouble]
  exact sum_pairs (fun j => xv j c*yv j c) (N/2)

end preserved

/-- `verify` preserves a right inner product exactly when the uninitialised words of `h[0]` and `h[2]`
make up for what the packed mode leaves out. -/
theorem preserved_iff (aes : Bool → Word) {L LENS N : ℕ} {x y : Party → ℕ → AShare} {z : Party → AShare}
    (mem : Memory) {out : Output} (h : Call L LENS N x y z out) :
    Preserved L N (verify aes LENS N x y z mem out) ↔ GapsCancel L LENS N x y mem := by
  obtain ⟨xv, yv, hx, hy, hz⟩ := h.valid
  rw [verify_eq]
  refine forall_congr' fun c => forall_congr' fun hc => ?_
  have hentry := verifyWith_z_p h.z_p h.le N x y z
    (dot aes N (fun p i => x p (2*i)) (fun p i => y p (2*i)) mem.temp0 mem.h0) mem.h1
    (dot aes N (third LENS mem.ff2 x) (third LENS mem.gg2 y) mem.temp2 mem.h2) hc
  have heven : ∀ j < N/2, Masks L (x · (2*j)) (xv (2*j)) := fun j hj => hx (2*j) (by omega)
  have heven' : ∀ j < N/2, Masks L (y · (2*j)) (yv (2*j)) := fun j hj => hy (2*j) (by omega)
  have hthird : ∀ j < N/2, Masks L (third LENS mem.ff2 x · j) _ :=
    fun j hj => masks_third mem.ff2 h.le hx hj
  have hthird' : ∀ j < N/2, Masks L (third LENS mem.gg2 y · j) _ :=
    fun j hj => masks_third mem.gg2 h.le hy hj
  have hgap0 := @dot_valueGap N L (fun p i => x p (2*i)) (fun p i => y p (2*i)) _ _ aes mem.temp0 mem.h0
    heven heven' c hc
  have hgap2 := @dot_valueGap N L (third LENS mem.ff2 x) (third LENS mem.gg2 y) _ _ aes mem.temp2 mem.h2
    hthird hthird' c hc
  have hmask0 := dot_maskGap aes N (fun p i => x p (2*i)) (fun p i => y p (2*i)) mem.temp0 mem.h0 c
  have hmask2 := dot_maskGap aes N (third LENS mem.ff2 x) (third LENS mem.gg2 y) mem.temp2 mem.h2 c
  obtain ⟨hz1, hz2, hzr⟩ := hz c hc
  beta_reduce at hz1 hz2 ⊢
  rw [sum_halves h.even c] at hz1 hz2
  rw [verifyWith_x_p, verifyWith_y_p, halve_sum h.x_p h.y_p hx hy hc, (hentry 0).2.2, (hentry 1).1,
    (hentry 2).1, (hentry 1).2.1, (hentry 2).2.1, hz1, hz2, interpolate_iff, interpolate_iff,
    mask_iff _ _ _ _ _ _ _ _ _ hzr, hmask0, hmask2,
    hgap0 (.inl ⟨rfl,rfl⟩), hgap0 (.inr ⟨rfl,rfl⟩), hgap2 (.inl ⟨rfl,rfl⟩), hgap2 (.inr ⟨rfl,rfl⟩)]
  constructor
  · rintro ⟨h1, h2, hm⟩
    refine ⟨?_,hm⟩
    rintro p q (⟨rfl, rfl⟩ | ⟨rfl, rfl⟩)
    · exact h1
    · exact h2
  · rintro ⟨hpq, hm⟩
    exact ⟨hpq 1 2 (.inl ⟨rfl,rfl⟩),hpq 2 1 (.inr ⟨rfl,rfl⟩),hm⟩

/-! ### One pair of ones -/

/-- A sharing of `v` with masks 0. -/
def unmasked (v : Word) (p : Party) : AShare :=
  ⟨1,fun _ => if p = 0 then 0 else v,fun _ => 0,fun _ => 0⟩

lemma masks_unmasked (v : Word) : Masks 1 (unmasked v) (fun _ => v) := by
  intro c hc
  exact ⟨(add_zero v).symm,(add_zero v).symm,rfl⟩

/-- Memory with `a` and `b` in the words `r_1` of players 1 and 2. -/
def words (a b : Word) : Memory where
  h0 p := ⟨0,fun _ => if p = 1 then a else b,fun _ => 0,fun _ => 0⟩
  h1 _ := ⟨0,fun _ => 0,fun _ => 0,fun _ => 0⟩
  h2 p := ⟨0,fun _ => if p = 1 then a else b,fun _ => 0,fun _ => 0⟩
  ff2 _ _ := ⟨0,fun _ => 0,fun _ => 0,fun _ => 0⟩
  gg2 _ _ := ⟨0,fun _ => 0,fun _ => 0,fun _ => 0⟩
  temp0 _ := 0
  temp2 _ := 0

def emptyOut : Output := ⟨fun p _ => unmasked 0 p,fun p _ => unmasked 0 p,unmasked 0⟩

lemma call_ones : Call 1 1 2 (fun p _ => unmasked 1 p) (fun p _ => unmasked 1 p) (unmasked 2) emptyOut := by
  refine ⟨rfl,le_rfl,fun _ => rfl,fun _ _ _ => rfl,fun _ _ _ => rfl,fun _ _ => 1,fun _ _ => 1,
    fun _ _ => masks_unmasked 1,fun _ _ => masks_unmasked 1,?_⟩
  exact masks_unmasked 2

theorem preserved_ones :
    Call 1 1 2 (fun p _ => unmasked 1 p) (fun p _ => unmasked 1 p) (unmasked 2) emptyOut ∧
      Preserved 1 2 (verify (fun _ => 0) 1 2 (fun p _ => unmasked 1 p) (fun p _ => unmasked 1 p)
        (unmasked 2) (words 2 3) emptyOut) := by
  refine ⟨call_ones,(preserved_iff (fun _ => 0) (words 2 3) call_ones).mpr fun c hc => ?_⟩
  obtain rfl : c = 0 := by omega
  refine ⟨?_,by decide⟩
  rintro p q (⟨rfl, rfl⟩ | ⟨rfl, rfl⟩)
  · decide
  · decide

/-- With zeros in the memory the two players do not even hold the same word. -/
theorem not_preserved_zeros :
    Call 1 1 2 (fun p _ => unmasked 1 p) (fun p _ => unmasked 1 p) (unmasked 2) emptyOut ∧
      ¬Preserved 1 2 (verify (fun _ => 0) 1 2 (fun p _ => unmasked 1 p) (fun p _ => unmasked 1 p)
        (unmasked 2) (words 0 0) emptyOut) := by
  refine ⟨call_ones,fun h => ?_⟩
  obtain ⟨h1, h2, -⟩ := h 0 zero_lt_one
  have hsame := h1.trans h2.symm
  revert hsame
  decide

end OramPro.PolyVerify
