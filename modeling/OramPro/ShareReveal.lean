import OramPro.Processes

/-!
# Sharing and revealing

`add_share` and `add_reveal` are programs of the parties, which exchange arrays. A set of parties is
walked through in the order of the names. Every message is flushed, so a queue holds whole messages.
-/
namespace OramPro.ShareReveal
open Process (Prog Event Trace Config Plan flow)

section program
variable {P : Type*} [LinearOrder P] {T : Type} {lens : ℕ}

def array_op (op_cb : T → T → T) (a b : Fin lens → T) : Fin lens → T := fun i => op_cb (a i) (b i)

/-- `*set.begin()` -/
def setBegin (s : Finset P) : Option P := s.sort.head?

/-- `get_seed` at party `me`; the first of the roles draws `rand`. -/
def get_seed (me : P) (roles : Finset P) (rand data : Fin lens → T) :
    Prog P (Fin lens → T) (Fin lens → T) :=
  match setBegin roles with
  | none => pure data
  | some first =>
    if me = first then do
      let _ ← roles.sort.foldlM
        (fun _ rl => if me ≠ rl then Prog.tell rl rand else pure PUnit.unit) PUnit.unit
      pure rand
    else roles.sort.foldlM (fun data rl => if me = rl then Prog.ask first else pure data) data

/-- `seed player` is drawn in the `get_seed` of the owner and `player`, and `mine` by the owner alone.
The arrays `tmp` and `mydata` start with `junk`. -/
structure Draws (P T : Type*) (lens : ℕ) where
  seed : P → Fin lens → T
  mine : Fin lens → T
  junk : Fin lens → T

/-- The variables of the owner's loop. -/
structure Own (T : Type*) (lens : ℕ) where
  data : Fin lens → T
  mydata : Fin lens → T
  incl : Bool

variable (op_cb nop_cb : T → T → T) (x : Draws P T lens) (owner : P) (holders targets : Finset P)

def add_share (me : P) (data : Fin lens → T) : Prog P (Fin lens → T) (Fin lens → T) :=
  if me = owner then do
    let s : Own T lens ← holders.sort.foldlM (fun s player =>
      if me ≠ player then do
        let tmp ← get_seed me {owner,player} (x.seed player) x.junk
        pure { s with data := array_op op_cb s.data tmp }
      else pure ⟨array_op op_cb s.data x.mine,x.mine,true⟩) ⟨data,x.junk,false⟩
    if s.incl then pure (array_op nop_cb s.data s.mydata)
    else match setBegin holders with
      | none => pure s.data
      | some first => do
        let _ ← Prog.tell first s.data
        pure s.data
  else do
    let s : (Fin lens → T) × Bool ← holders.sort.foldlM (fun s player => do
      let data ← if me = player then get_seed me {owner,player} (x.seed player) s.1 else pure s.1
      pure (data,s.2 || decide (player = owner))) (data,false)
    if s.2 = false ∧ setBegin holders = some me then do
      let tmp ← Prog.ask owner
      pure (array_op nop_cb s.1 tmp)
    else pure s.1

/-- `zero` is what `memset` writes. -/
def add_reveal (zero : T) (me : P) (data : Fin lens → T) : Prog P (Fin lens → T) (Fin lens → T) := do
  let is_holder : Bool ← holders.sort.foldlM (fun is_holder player =>
    if me = player then do
      let _ ← targets.sort.foldlM
        (fun _ tar => if player ≠ tar then Prog.tell tar data else pure PUnit.unit) PUnit.unit
      pure true
    else pure is_holder) false
  targets.sort.foldlM (fun data player =>
    if me = player then
      holders.sort.foldlM (fun data tar =>
        if player ≠ tar then do
          let tmp ← Prog.ask tar
          pure (array_op nop_cb data tmp)
        else pure data) (if is_holder then data else fun _ => zero)
    else pure data) data

/-- A party's program: sharing, then revealing. -/
def program (zero : T) (data : P → Fin lens → T) (me : P) : Prog P (Fin lens → T) (Fin lens → T) := do
  let share ← add_share op_cb nop_cb x owner holders me (data me)
  add_reveal nop_cb holders targets zero me share

end program

/-! ## Loops over a set -/

section loops
variable {K A : Type*} [DecidableEq K]

lemma foldl_once {l : List K} (hl : l.Nodup) (k : K) (g : A → A) (a : A) :
    l.foldl (fun a j => if k = j then g a else a) a = if k ∈ l then g a else a := by
  induction l generalizing a with
  | nil => rfl
  | cons j l ih =>
    obtain ⟨hj, hl⟩ := List.nodup_cons.mp hl
    rw [List.foldl_cons, ih hl]
    by_cases hk : k = j
    · subst hk
      simp [hj]
    · simp [hk]

lemma flatMap_once {l : List K} (hl : l.Nodup) (k : K) (f : K → List A) :
    l.flatMap (fun j => if k = j then f j else []) = if k ∈ l then f k else [] := by
  induction l with
  | nil => rfl
  | cons j l ih =>
    obtain ⟨hj, hl⟩ := List.nodup_cons.mp hl
    rw [List.flatMap_cons, ih hl]
    by_cases hk : k = j
    · subst hk
      simp [hj]
    · simp [hk]

end loops

/-! ## What the parties hold -/

section values
variable {P : Type*} [LinearOrder P] {V : Type*} [AddCommGroup V]

/-- What the owner's data becomes when the seeds of all other holders are taken off. -/
def residual (seed : P → V) (owner : P) (holders : Finset P) (data : P → V) : V :=
  data owner-∑ h ∈ holders.erase owner, seed h

def share (seed : P → V) (owner : P) (holders : Finset P) (data : P → V) (first p : P) : V :=
  if p = owner then residual seed owner holders data
  else if p ∈ holders then
    if owner ∉ holders ∧ p = first then seed p+residual seed owner holders data else seed p
  else data p

def revealed (holders targets : Finset P) (share : P → V) (p : P) : V :=
  if p ∈ targets then (if p ∈ holders then share p else 0)+∑ h ∈ holders.erase p, share h
  else share p

lemma sum_share {seed : P → V} {owner first : P} {holders : Finset P} {data : P → V}
    (hfirst : first ∈ holders) :
    ∑ h ∈ holders, share seed owner holders data first h = data owner := by
  by_cases ho : owner ∈ holders
  · have hseed : ∑ h ∈ holders.erase owner, share seed owner holders data first h =
        ∑ h ∈ holders.erase owner, seed h := by
      refine Finset.sum_congr rfl fun h hh => ?_
      obtain ⟨hne, hmem⟩ := Finset.mem_erase.mp hh
      simp [share, hne, hmem, ho]
    rw [← Finset.add_sum_erase _ _ ho, hseed, share, if_pos rfl, residual, sub_add_cancel]
  · have hne {h : P} (hh : h ∈ holders) : h ≠ owner := fun he => ho (he ▸ hh)
    have hseed : ∑ h ∈ holders.erase first, share seed owner holders data first h =
        ∑ h ∈ holders.erase first, seed h := by
      refine Finset.sum_congr rfl fun h hh => ?_
      obtain ⟨hne', hmem⟩ := Finset.mem_erase.mp hh
      simp [share, hne hmem, hmem, hne']
    have hshare : share seed owner holders data first first =
        seed first+residual seed owner holders data := by
      simp [share, hne hfirst, hfirst, ho]
    rw [← Finset.add_sum_erase _ _ hfirst, hseed, hshare, residual, Finset.erase_eq_of_notMem ho,
      ← Finset.add_sum_erase _ seed hfirst]
    abel

/-- A target adds the shares of all holders. -/
lemma revealed_eq {holders targets : Finset P} (share : P → V) {p : P} (hp : p ∈ targets) :
    revealed holders targets share p = ∑ h ∈ holders, share h := by
  rw [revealed, if_pos hp]
  by_cases hh : p ∈ holders
  · rw [if_pos hh, Finset.add_sum_erase _ _ hh]
  · rw [if_neg hh, zero_add, Finset.erase_eq_of_notMem hh]

/-- The sum over a set with another value at `k`. -/
lemma sum_map_sort (s : Finset P) (k : P) (f : P → V) (v : V) :
    (s.sort.map fun j => if k ≠ j then f j else v).sum =
      (if k ∈ s then v else 0)+∑ j ∈ s.erase k, f j := by
  rw [← List.sum_toFinset _ (Finset.sort_nodup _ _), Finset.sort_toFinset]
  have herase : ∑ j ∈ s.erase k, (if k ≠ j then f j else v) = ∑ j ∈ s.erase k, f j :=
    Finset.sum_congr rfl fun j hj => if_pos (Finset.ne_of_mem_erase hj).symm
  by_cases hk : k ∈ s
  · rw [← Finset.add_sum_erase _ _ hk, herase, if_neg (not_not.mpr rfl), if_pos hk]
  · rw [if_neg hk, zero_add, ← herase, Finset.erase_eq_of_notMem hk]

end values

/-! ## What the parties do -/

section traces
variable {P : Type*} [LinearOrder P] {T : Type} {lens : ℕ}

lemma sort_pair {a b : P} (h : a < b) : ({a,b} : Finset P).sort = [a,b] := by
  have hle : ∀ c ∈ ({b} : Finset P), a ≤ c := fun c hc => (Finset.mem_singleton.mp hc).symm ▸ h.le
  rw [Finset.sort_insert (· ≤ ·) hle (Finset.notMem_singleton.mpr h.ne), Finset.sort_singleton]

/-- One message passes between the two roles, from the smaller to the larger. -/
lemma get_seed_trace {me other : P} (h : me ≠ other) (rand data : Fin lens → T) (phase : ℕ) :
    Trace (get_seed me {me,other} rand data) [⟨decide (me < other),other,rand,phase⟩] rand := by
  rcases lt_or_gt_of_ne h with hlt | hlt
  · have hloop (s : PUnit) (rl : P) : Trace
        (if me ≠ rl then Prog.tell rl rand else pure PUnit.unit)
        (if me ≠ rl then [⟨true,rl,rand,phase⟩] else []) PUnit.unit := by
      split_ifs
      · exact .tell rl rand phase
      · exact .pure _
    have htrace := Trace.foldlM (fun s rl (_ : rl ∈ [me,other]) => hloop s rl) PUnit.unit
    simp only [get_seed, setBegin, sort_pair hlt, List.head?_cons, if_true, hlt, decide_true]
    simpa [h] using htrace.bind (f := fun _ => pure rand) (.pure rand)
  · have hloop (s : Fin lens → T) (rl : P) : Trace
        (if me = rl then Prog.ask other else pure s)
        (if me = rl then [⟨false,other,rand,phase⟩] else []) (if me = rl then rand else s) := by
      split_ifs
      · exact .ask other rand phase
      · exact .pure _
    have htrace := Trace.foldlM (fun s rl (_ : rl ∈ [other,me]) => hloop s rl) data
    simp only [get_seed, setBegin, Finset.pair_comm me other, sort_pair hlt, List.head?_cons, h, if_false,
      hlt.not_gt, decide_false]
    simpa [h] using htrace

lemma mem_of_setBegin {s : Finset P} {first : P} (h : setBegin s = some first) : first ∈ s :=
  (Finset.mem_sort _).mp (List.mem_of_head? h)

lemma exists_setBegin {s : Finset P} (h : s.Nonempty) : ∃ first, setBegin s = some first := by
  obtain ⟨p, hp⟩ := h
  have hlen := List.length_pos_of_mem ((Finset.mem_sort (· ≤ ·)).mpr hp)
  exact ⟨_,List.head?_eq_some_head (List.length_pos_iff.mp hlen)⟩

/-- A message of phase `phase` to or from each other party of a set. -/
def each (sent : P → Bool) (message : P → Fin lens → T) (phase : ℕ) (me : P) (s : Finset P) :
    List (Event P (Fin lens → T)) :=
  s.sort.flatMap fun q => if me ≠ q then [⟨sent q,q,message q,phase⟩] else []

lemma send_trace (me : P) (targets : Finset P) (v : Fin lens → T) :
    Trace (targets.sort.foldlM
        (fun _ tar => if me ≠ tar then Prog.tell tar v else pure PUnit.unit) PUnit.unit)
      (each (fun _ => true) (fun _ => v) 3 me targets) PUnit.unit := by
  have hturn (s : PUnit) (tar : P) : Trace
      (if me ≠ tar then Prog.tell tar v else pure PUnit.unit)
      (if me ≠ tar then [⟨true,tar,v,3⟩] else []) PUnit.unit := by
    split_ifs
    · exact .tell tar v 3
    · exact .pure _
  exact Trace.foldlM (fun s tar _ => hturn s tar) PUnit.unit

/-- The first loop of `add_reveal`, which finds out whether the party is a holder. -/
lemma holders_trace (holders targets : Finset P) (me : P) (v : Fin lens → T) :
    Trace (holders.sort.foldlM (fun is_holder player =>
        if me = player then do
          let _ ← targets.sort.foldlM
            (fun _ tar => if player ≠ tar then Prog.tell tar v else pure PUnit.unit) PUnit.unit
          pure true
        else pure is_holder) false)
      (if me ∈ holders then each (fun _ => true) (fun _ => v) 3 me targets else [])
      (decide (me ∈ holders)) := by
  have hturn (b : Bool) (player : P) : Trace
      (if me = player then do
        let _ ← targets.sort.foldlM
          (fun _ tar => if player ≠ tar then Prog.tell tar v else pure PUnit.unit) PUnit.unit
        pure true
      else pure b)
      (if me = player then each (fun _ => true) (fun _ => v) 3 me targets else [])
      (if me = player then true else b) := by
    by_cases hp : me = player
    · subst hp
      simp only [if_true]
      have h := (send_trace me targets v).bind (f := fun _ => pure true) (.pure true)
      rwa [List.append_nil] at h
    · simp only [hp, if_false]
      exact .pure _
  have hloop := Trace.foldlM (fun b player (_ : player ∈ holders.sort) => hturn b player) false
  rw [foldl_once (Finset.sort_nodup _ _) me (fun _ => true), flatMap_once (Finset.sort_nodup _ _)] at hloop
  simpa only [Finset.mem_sort, Bool.if_true_left, Bool.or_false] using hloop

lemma other_turn_trace (x : Draws P T lens) {owner me : P} (hme : me ≠ owner) (player : P)
    (s : (Fin lens → T) × Bool) : Trace
      (do
        let data ← if me = player then get_seed me {owner,player} (x.seed player) s.1 else pure s.1
        pure (data,s.2 || decide (player = owner)))
      (if me = player then
        [⟨decide (me < owner),owner,x.seed me,if me < owner then 0 else 2⟩] else [])
      (if me = player then x.seed me else s.1,s.2 || decide (player = owner)) := by
  by_cases hp : me = player
  · subst hp
    have h := get_seed_trace hme (x.seed me) s.1 (if me < owner then 0 else 2)
    rw [Finset.pair_comm] at h
    simp only [if_true]
    exact h.bind (f := fun data => pure (data,s.2 || decide (me = owner))) (.pure _)
  · simp only [hp, if_false]
    exact .pure _

/-- The loop of a party that is not the owner. -/
lemma foldl_holder (owner me : P) (v : Fin lens → T) (l : List P) (s : (Fin lens → T) × Bool) :
    l.foldl (fun s player => (if me = player then v else s.1,s.2 || decide (player = owner))) s =
      (if me ∈ l then v else s.1,s.2 || decide (owner ∈ l)) := by
  induction l generalizing s with
  | nil => simp
  | cons j l ih =>
    rw [List.foldl_cons, ih]
    by_cases hj : me = j
    · simp [hj, Bool.or_assoc, eq_comm]
    · simp [hj, Bool.or_assoc, eq_comm]

def revealEvents (holders targets : Finset P) (share : P → Fin lens → T) (me : P) :
    List (Event P (Fin lens → T)) :=
  (if me ∈ holders then each (fun _ => true) (fun _ => share me) 3 me targets else [])++
    if me ∈ targets then each (fun _ => false) share 4 me holders else []

variable [AddCommGroup T] (x : Draws P T lens) (owner first : P) (holders : Finset P)
  (data : P → Fin lens → T)

/-- The phases are: 0 the seeds to the owner, 1 the owner, 2 the holders, 3 and 4 the reveal. -/
def shareEvents (me : P) : List (Event P (Fin lens → T)) :=
  if me = owner then
    each (fun q => decide (me < q)) x.seed 1 me holders++
      if owner ∉ holders then [⟨true,first,residual x.seed owner holders data,1⟩] else []
  else
    (if me ∈ holders then [⟨decide (me < owner),owner,x.seed me,if me < owner then 0 else 2⟩] else [])++
      if owner ∉ holders ∧ me = first then [⟨false,owner,residual x.seed owner holders data,2⟩] else []

/-- One turn of the owner's loop. -/
def ownTurn (me : P) (s : Own T lens) (player : P) : Own T lens :=
  if me ≠ player then { s with data := s.data-x.seed player } else ⟨s.data-x.mine,x.mine,true⟩

variable {x owner first holders data}

lemma foldl_ownTurn (me : P) (l : List P) (s : Own T lens) :
    l.foldl (ownTurn x me) s =
      ⟨s.data-(l.map fun j => if me ≠ j then x.seed j else x.mine).sum,
        if me ∈ l then x.mine else s.mydata,s.incl || decide (me ∈ l)⟩ := by
  induction l generalizing s with
  | nil => simp
  | cons j l ih =>
    rw [List.foldl_cons, ih]
    by_cases hj : me = j
    · simp [ownTurn, hj, sub_sub]
    · simp [ownTurn, hj, sub_sub]

variable (x) in
lemma own_turn_trace (owner player : P) (s : Own T lens) : Trace
    (if owner ≠ player then do
      let tmp ← get_seed owner {owner,player} (x.seed player) x.junk
      pure { s with data := array_op (· - ·) s.data tmp }
    else pure ⟨array_op (· - ·) s.data x.mine,x.mine,true⟩)
    (if owner ≠ player then [⟨decide (owner < player),player,x.seed player,1⟩] else [])
    (ownTurn x owner s player) := by
  by_cases hp : owner = player
  · simp only [ownTurn, hp, ne_eq, not_true, if_false]
    exact .pure _
  · simp only [ownTurn, hp, ne_eq, not_false_eq_true, if_true]
    exact (get_seed_trace hp (x.seed player) x.junk 1).bind
      (f := fun tmp => pure { s with data := array_op (· - ·) s.data tmp }) (.pure _)

lemma add_share_owner (hfirst : setBegin holders = some first) :
    Trace (add_share (· - ·) (· + ·) x owner holders owner (data owner))
      (shareEvents x owner first holders data owner)
      (share x.seed owner holders data first owner) := by
  have hloop := Trace.foldlM (fun s player (_ : player ∈ holders.sort) => own_turn_trace x owner player s)
    ⟨data owner,x.junk,false⟩
  rw [foldl_ownTurn, sum_map_sort] at hloop
  rw [add_share, if_pos rfl, shareEvents, if_pos rfl, share, if_pos rfl]
  refine hloop.bind ?_
  by_cases ho : owner ∈ holders
  · have hdata : array_op (· + ·) (data owner-(x.mine+∑ j ∈ holders.erase owner, x.seed j)) x.mine =
        residual x.seed owner holders data := by
      rw [residual, add_comm x.mine, ← sub_sub]
      exact sub_add_cancel _ _
    simp only [Finset.mem_sort, ho, if_true, Bool.false_or, decide_true, hdata]
    exact .pure _
  · simp only [Finset.mem_sort, ho, if_false, Bool.false_or, decide_false, Bool.false_eq_true, hfirst,
      zero_add]
    exact (Trace.tell first _ 1).bind (.pure _)

lemma add_share_other (hfirst : setBegin holders = some first) {me : P} (hme : me ≠ owner) :
    Trace (add_share (· - ·) (· + ·) x owner holders me (data me))
      (shareEvents x owner first holders data me)
      (share x.seed owner holders data first me) := by
  have hloop := Trace.foldlM (fun s player (_ : player ∈ holders.sort) => other_turn_trace x hme player s)
    (data me,false)
  rw [foldl_holder, flatMap_once (Finset.sort_nodup _ _)] at hloop
  simp only [Finset.mem_sort] at hloop
  rw [add_share, if_neg hme, shareEvents, if_neg hme, share, if_neg hme]
  refine hloop.bind ?_
  by_cases hjoin : owner ∉ holders ∧ me = first
  · obtain ⟨ho, rfl⟩ := hjoin
    have hmem := mem_of_setBegin hfirst
    simp only [hmem, ho, hfirst, if_true, not_false_eq_true, and_self, decide_false, Bool.or_self]
    exact (Trace.ask owner _ 2).bind
      (f := fun tmp => pure (array_op (· + ·) (x.seed me) tmp)) (.pure _)
  · have hskip : ¬((false || decide (owner ∈ holders)) = false ∧ setBegin holders = some me) := by
      rintro ⟨ho, hb⟩
      exact hjoin ⟨by simpa using ho,(Option.some.inj (hfirst.symm.trans hb)).symm⟩
    simp only [hjoin, hskip, if_false]
    exact .pure _

lemma foldl_add (k : P) (f : P → Fin lens → T) (l : List P) (v : Fin lens → T) :
    l.foldl (fun v j => if k ≠ j then v+f j else v) v =
      v+(l.map fun j => if k ≠ j then f j else 0).sum := by
  induction l generalizing v with
  | nil => simp
  | cons j l ih =>
    rw [List.foldl_cons, ih, List.map_cons, List.sum_cons]
    by_cases hj : k ≠ j
    · rw [if_pos hj, if_pos hj, add_assoc]
    · rw [if_neg hj, if_neg hj, zero_add]

lemma recv_trace (me : P) (holders : Finset P) (share : P → Fin lens → T) (v : Fin lens → T) :
    Trace (holders.sort.foldlM (fun data tar =>
        if me ≠ tar then do
          let tmp ← Prog.ask tar
          pure (array_op (· + ·) data tmp)
        else pure data) v)
      (each (fun _ => false) share 4 me holders) (v+∑ h ∈ holders.erase me, share h) := by
  have hturn (v : Fin lens → T) (tar : P) : Trace
      (if me ≠ tar then do
        let tmp ← Prog.ask tar
        pure (array_op (· + ·) v tmp)
      else pure v)
      (if me ≠ tar then [⟨false,tar,share tar,4⟩] else []) (if me ≠ tar then v+share tar else v) := by
    split_ifs
    · exact (Trace.ask tar (share tar) 4).bind
        (f := fun tmp => pure (array_op (· + ·) v tmp)) (.pure _)
    · exact .pure _
  have hloop := Trace.foldlM (fun v tar (_ : tar ∈ holders.sort) => hturn v tar) v
  rwa [foldl_add, sum_map_sort, ite_self, zero_add] at hloop

/-- The second loop of `add_reveal`. -/
lemma targets_trace (holders targets : Finset P) (share : P → Fin lens → T) (me : P) (is_holder : Bool) :
    Trace (targets.sort.foldlM (fun data player =>
        if me = player then
          holders.sort.foldlM (fun data tar =>
            if player ≠ tar then do
              let tmp ← Prog.ask tar
              pure (array_op (· + ·) data tmp)
            else pure data) (if is_holder then data else fun _ => 0)
        else pure data) (share me))
      (if me ∈ targets then each (fun _ => false) share 4 me holders else [])
      (if me ∈ targets then (if is_holder then share me else 0)+∑ h ∈ holders.erase me, share h
        else share me) := by
  have hturn (v : Fin lens → T) (player : P) : Trace
      (if me = player then
        holders.sort.foldlM (fun data tar =>
          if player ≠ tar then do
            let tmp ← Prog.ask tar
            pure (array_op (· + ·) data tmp)
          else pure data) (if is_holder then v else fun _ => 0)
      else pure v)
      (if me = player then each (fun _ => false) share 4 me holders else [])
      (if me = player then (if is_holder then v else 0)+∑ h ∈ holders.erase me, share h else v) := by
    by_cases hp : me = player
    · subst hp
      simp only [if_true]
      exact recv_trace me holders share _
    · simp only [hp, if_false]
      exact .pure _
  have hloop := Trace.foldlM (fun v player (_ : player ∈ targets.sort) => hturn v player) (share me)
  rw [foldl_once (Finset.sort_nodup _ _) me
      (fun v => (if is_holder then v else 0)+∑ h ∈ holders.erase me, share h),
    flatMap_once (Finset.sort_nodup _ _)] at hloop
  simpa only [Finset.mem_sort] using hloop

lemma add_reveal_trace (holders targets : Finset P) (share : P → Fin lens → T) (me : P) :
    Trace (add_reveal (· + ·) holders targets 0 me (share me))
      (revealEvents holders targets share me) (revealed holders targets share me) := by
  have hresult : revealed holders targets share me = if me ∈ targets then
      (if decide (me ∈ holders) then share me else 0)+∑ h ∈ holders.erase me, share h else share me := by
    simp only [revealed, decide_eq_true_eq]
  rw [hresult]
  exact (holders_trace holders targets me (share me)).bind (targets_trace holders targets share me _)

end traces

/-! ## The plan -/

section plan
variable {P : Type*} [LinearOrder P] {T : Type} {lens : ℕ}

lemma flow_each (sent : P → Bool) (message : P → Fin lens → T) (phase : ℕ) (me : P) (s : Finset P)
    (b : Bool) (q : P) :
    flow b q (each sent message phase me s) =
      if q ∈ s ∧ me ≠ q ∧ sent q = b then [(phase,message q)] else [] := by
  have hturn (j : P) : flow b q (if me ≠ j then [⟨sent j,j,message j,phase⟩] else []) =
      if q = j then (if me ≠ j ∧ sent j = b then [(phase,message j)] else []) else [] := by
    by_cases hq : q = j
    · subst hq
      by_cases hj : me ≠ q <;> simp [hj]
    · by_cases hj : me ≠ j <;> simp [hj, hq, Ne.symm hq]
  rw [each, Process.flow_flatMap]
  simp only [hturn, flatMap_once (Finset.sort_nodup s _) q fun j =>
    if me ≠ j ∧ sent j = b then [(phase,message j)] else [], Finset.mem_sort]
  rw [← ite_and]

lemma mem_each {sent : P → Bool} {message : P → Fin lens → T} {phase : ℕ} {me : P} {s : Finset P}
    {e : Event P (Fin lens → T)} (he : e ∈ each sent message phase me s) : e.phase = phase := by
  obtain ⟨q, -, hq⟩ := List.mem_flatMap.mp he
  split_ifs at hq with hne
  · exact congrArg Event.phase (List.mem_singleton.mp hq)
  · exact absurd hq List.not_mem_nil

section reveal
variable {holders targets : Finset P}

lemma phase_send {share : P → Fin lens → T} {me : P} {e : Event P (Fin lens → T)}
    (he : e ∈ if me ∈ holders then each (fun _ => true) (fun _ => share me) 3 me targets else []) :
    e.phase = 3 := by
  split_ifs at he
  · exact mem_each he
  · exact absurd he List.not_mem_nil

lemma phase_recv {share : P → Fin lens → T} {me : P} {e : Event P (Fin lens → T)}
    (he : e ∈ if me ∈ targets then each (fun _ => false) share 4 me holders else []) :
    e.phase = 4 := by
  split_ifs at he
  · exact mem_each he
  · exact absurd he List.not_mem_nil

lemma ordered_reveal (share : P → Fin lens → T) (me : P) :
    (revealEvents holders targets share me).Pairwise fun e f => e.phase ≤ f.phase := by
  refine List.pairwise_append.mpr
    ⟨Process.pairwise_phase fun e he => phase_send he,Process.pairwise_phase fun e he => phase_recv he,
      fun e he f hf => ?_⟩
  rw [phase_send he, phase_recv hf]
  decide

lemma agree_reveal (share : P → Fin lens → T) (p q : P) :
    List.Forall₂ Process.Delivered (flow true q (revealEvents holders targets share p))
      (flow false p (revealEvents holders targets share q)) := by
  have hsent : flow true q (revealEvents holders targets share p) =
      if (p ∈ holders ∧ q ∈ targets) ∧ p ≠ q then [(3,share p)] else [] := by
    by_cases hh : p ∈ holders <;> by_cases ht : p ∈ targets <;>
      simp [revealEvents, hh, ht, flow_each]
  have hgot : flow false p (revealEvents holders targets share q) =
      if (p ∈ holders ∧ q ∈ targets) ∧ p ≠ q then [(4,share p)] else [] := by
    by_cases hh : q ∈ holders <;> by_cases ht : q ∈ targets <;>
      simp [revealEvents, hh, ht, flow_each, eq_comm]
  rw [hsent, hgot]
  exact Process.Delivered.forall₂_ite Iff.rfl fun _ => ⟨Nat.lt_succ_self 3,rfl⟩

end reveal

variable [AddCommGroup T] {x : Draws P T lens} {owner first : P} {holders : Finset P}
  {data : P → Fin lens → T}

lemma phase_owner {e : Event P (Fin lens → T)}
    (he : e ∈ shareEvents x owner first holders data owner) : e.phase = 1 := by
  rw [shareEvents, if_pos rfl] at he
  rcases List.mem_append.mp he with he | he
  · exact mem_each he
  · split_ifs at he with ho
    · exact absurd he List.not_mem_nil
    · exact congrArg Event.phase (List.mem_singleton.mp he)

lemma phase_shareEvents {me : P} {e : Event P (Fin lens → T)}
    (he : e ∈ shareEvents x owner first holders data me) : e.phase ≤ 2 := by
  by_cases hme : me = owner
  · subst hme
    exact (phase_owner he).trans_le (by decide)
  · rw [shareEvents, if_neg hme] at he
    rcases List.mem_append.mp he with he | he
    · by_cases hm : me ∈ holders
      · rw [if_pos hm] at he
        rw [List.mem_singleton.mp he]
        dsimp only
        split_ifs <;> decide
      · exact absurd (if_neg hm ▸ he) List.not_mem_nil
    · split_ifs at he with hc
      · exact (congrArg Event.phase (List.mem_singleton.mp he)).le
      · exact absurd he List.not_mem_nil

lemma ordered_share (me : P) : (shareEvents x owner first holders data me).Pairwise
    fun e f => e.phase ≤ f.phase := by
  by_cases hme : me = owner
  · subst hme
    exact Process.pairwise_phase fun e he => phase_owner he
  · have hjoined := fun e => @phase_shareEvents _ _ _ _ _ x owner first holders data me e
    rw [shareEvents, if_neg hme] at hjoined ⊢
    refine List.pairwise_append.mpr ⟨?_,?_,fun e he f hf => ?_⟩
    · split_ifs <;> simp
    · split_ifs <;> simp
    · refine (hjoined e (List.mem_append_left _ he)).trans ?_
      split_ifs at hf with hc
      · exact (congrArg Event.phase (List.mem_singleton.mp hf)).ge
      · exact absurd hf List.not_mem_nil

lemma agree_share (hfirst : setBegin holders = some first) (p q : P) :
    List.Forall₂ Process.Delivered (flow true q (shareEvents x owner first holders data p))
      (flow false p (shareEvents x owner first holders data q)) := by
  have hmem := mem_of_setBegin hfirst
  have hlt {a b : P} (h : a ≠ b) : decide (a < b) = true ↔ decide (b < a) = false := by
    rw [decide_eq_true_eq, decide_eq_false_iff_not, not_lt]
    exact ⟨le_of_lt,fun hle => lt_of_le_of_ne hle h⟩
  by_cases hp : p = owner <;> by_cases hq : q = owner
  · subst hp hq
    have hne (ho : q ∉ holders) : first ≠ q := fun he => ho (he ▸ hmem)
    simp only [shareEvents, if_true, Process.flow_append, flow_each, Process.flow_ite]
    exact List.rel_append (Process.Delivered.forall₂_ite (by simp) fun h => absurd rfl h.2.1)
      (Process.Delivered.forall₂_ite (by simpa using hne) fun h => absurd h.2.2 (hne h.1))
  · subst hp
    simp only [shareEvents, if_true, if_neg hq, Process.flow_append, flow_each, Process.flow_ite]
    refine List.rel_append (Process.Delivered.forall₂_ite ?_ fun h => ?_)
      (Process.Delivered.forall₂_ite (by simp [eq_comm]) fun _ => ⟨Nat.lt_succ_self 1,rfl⟩)
    · rw [hlt (Ne.symm hq)]
      simp [Ne.symm hq]
    · rw [if_neg (not_lt_of_gt (of_decide_eq_true h.2.2))]
      exact ⟨Nat.lt_succ_self 1,rfl⟩
  · subst hq
    simp only [shareEvents, if_true, if_neg hp, Process.flow_append, flow_each, Process.flow_ite]
    refine List.rel_append (Process.Delivered.forall₂_ite ?_ fun h => ?_)
      (Process.Delivered.forall₂_ite (by simp) fun h => absurd h.2.1 Bool.false_ne_true)
    · rw [hlt hp]
      simp [Ne.symm hp]
    · rw [if_pos (of_decide_eq_true h.2.1)]
      exact ⟨Nat.lt_succ_self 0,rfl⟩
  · simp [shareEvents, hp, hq, Process.flow_ite, Ne.symm hp, Ne.symm hq]

lemma program_trace (hfirst : setBegin holders = some first) (targets : Finset P) (me : P) :
    Trace (program (· - ·) (· + ·) x owner holders targets 0 data me)
      (shareEvents x owner first holders data me++
        revealEvents holders targets (share x.seed owner holders data first) me)
      (revealed holders targets (share x.seed owner holders data first) me) := by
  by_cases hme : me = owner
  · subst hme
    exact (add_share_owner hfirst).bind (add_reveal_trace holders targets _ me)
  · exact (add_share_other hfirst hme).bind (add_reveal_trace holders targets _ me)

lemma ordered (targets : Finset P) (sh : P → Fin lens → T) (me : P) :
    (shareEvents x owner first holders data me++revealEvents holders targets sh me).Pairwise
      fun e f => e.phase ≤ f.phase := by
  refine List.pairwise_append.mpr ⟨ordered_share me,ordered_reveal sh me,fun e he f hf => ?_⟩
  have hle := phase_shareEvents he
  rcases List.mem_append.mp hf with hf | hf
  · rw [phase_send hf]
    exact hle.trans (Nat.le_succ 2)
  · rw [phase_recv hf]
    omega

lemma agree (hfirst : setBegin holders = some first) (targets : Finset P) (sh : P → Fin lens → T)
    (p q : P) : List.Forall₂ Process.Delivered
      (flow true q (shareEvents x owner first holders data p++revealEvents holders targets sh p))
      (flow false p (shareEvents x owner first holders data q++revealEvents holders targets sh q)) := by
  rw [Process.flow_append, Process.flow_append]
  exact List.rel_append (agree_share hfirst p q) (agree_reveal sh p q)

variable (x owner data) in
def plan (hfirst : setBegin holders = some first) (targets : Finset P) :
    Plan (program (· - ·) (· + ·) x owner holders targets 0 data) where
  events me := shareEvents x owner first holders data me++
    revealEvents holders targets (share x.seed owner holders data first) me
  result := revealed holders targets (share x.seed owner holders data first)
  trace := program_trace hfirst targets
  ordered := ordered targets _
  agree := agree hfirst targets _

end plan

/-! ## The callbacks -/

/-- A pair of callbacks: the addition of a group, whose zero is what `memset` writes, and its
subtraction. -/
structure Callbacks (w : ℕ) where
  op_cb : BitVec w → BitVec w → BitVec w
  nop_cb : BitVec w → BitVec w → BitVec w
  comm (a b : BitVec w) : nop_cb a b = nop_cb b a
  assoc (a b c : BitVec w) : nop_cb (nop_cb a b) c = nop_cb a (nop_cb b c)
  zero_nop (a : BitVec w) : nop_cb 0 a = a
  nop_op (a b : BitVec w) : nop_cb (op_cb a b) b = a

namespace Callbacks
variable {w : ℕ}

/-- The default callbacks. -/
def arith (w : ℕ) : Callbacks w where
  op_cb a b := a-b
  nop_cb a b := a+b
  comm := BitVec.add_comm
  assoc := BitVec.add_assoc
  zero_nop := BitVec.zero_add
  nop_op := BitVec.sub_add_cancel

def xor (w : ℕ) : Callbacks w where
  op_cb a b := a ^^^ b
  nop_cb a b := a ^^^ b
  comm := BitVec.xor_comm
  assoc := BitVec.xor_assoc
  zero_nop a := BitVec.zero_xor
  nop_op a b := by rw [BitVec.xor_assoc, BitVec.xor_self, BitVec.xor_zero]

/-- The words with the group of the callbacks. -/
def Word (_ : Callbacks w) : Type := BitVec w

variable (f : Callbacks w)

lemma nop_zero (a : BitVec w) : f.nop_cb a 0 = a := by rw [f.comm, f.zero_nop]

lemma op_eq (a b : BitVec w) : f.op_cb a b = f.nop_cb a (f.op_cb 0 b) := by
  have hzero : f.nop_cb b (f.op_cb 0 b) = 0 := by rw [f.comm, f.nop_op]
  calc f.op_cb a b = f.nop_cb (f.nop_cb (f.op_cb a b) b) (f.op_cb 0 b) := by
        rw [f.assoc, hzero, f.nop_zero]
    _ = f.nop_cb a (f.op_cb 0 b) := by rw [f.nop_op]

instance wordAdd : Add f.Word := ⟨f.nop_cb⟩
instance wordZero : Zero f.Word := ⟨(0 : BitVec w)⟩
instance wordNeg : Neg f.Word := ⟨f.op_cb (0 : BitVec w)⟩
instance wordSub : Sub f.Word := ⟨f.op_cb⟩

instance wordGroup : AddCommGroup f.Word where
  add_assoc := f.assoc
  zero_add := f.zero_nop
  add_zero := f.nop_zero
  neg_add_cancel := f.nop_op 0
  sub_eq_add_neg := f.op_eq
  add_comm := f.comm
  nsmul := nsmulRec
  zsmul := zsmulRec

end Callbacks

/-- Sharing and revealing ends, in every order of steps, and leaves the owner's data at every target. -/
theorem share_reveal {P : Type*} [LinearOrder P] [Fintype P] {w lens : ℕ} (f : Callbacks w)
    (x : Draws P (BitVec w) lens) (owner : P) (holders targets : Finset P)
    (data : P → Fin lens → BitVec w) (hne : holders.Nonempty) :
    ∃ (result : P → Fin lens → BitVec w) (bound : ℕ), (∀ p ∈ targets, result p = data owner) ∧
      ∀ sched c, (Process.start (program f.op_cb f.nop_cb x owner holders targets 0 data)).run sched =
          some c →
        sched.length ≤ bound ∧ (∀ p v, c.prog p = .ret v → v = result p) ∧
        ((∀ p, c.step p = none) → c.Done result) ∧
        ∃ sched' d, c.run sched' = some d ∧ d.Done result := by
  obtain ⟨first, hfirst⟩ := exists_setBegin hne
  let pl : Plan (program f.op_cb f.nop_cb x owner holders targets 0 data) :=
    plan (T := f.Word) x owner data hfirst targets
  have hresult (p : P) (hp : p ∈ targets) : pl.result p = data owner :=
    (revealed_eq (V := Fin lens → f.Word) _ hp).trans (sum_share (mem_of_setBegin hfirst))
  exact ⟨pl.result,∑ p, (pl.events p).length,hresult,fun sched c hrun =>
    ⟨pl.length_le hrun,fun p v hv => pl.result_eq hrun hv,pl.done_of_still hrun,pl.completes hrun⟩⟩

/-- Owner 0 shares an array of three bytes by XOR over parties 1 and 2, and parties 0 and 2 open it. -/
theorem share_reveal_three : ∃ sched d,
    (Process.start (program (Callbacks.xor 8).op_cb (Callbacks.xor 8).nop_cb
      ⟨fun p i => BitVec.ofNat 8 (p.val+i),fun _ => 9,fun _ => 0⟩ (0 : Fin 3) {1,2} {0,2} 0
      fun p _ => if p = 0 then 7 else 5)).run sched = some d ∧
    d.prog 0 = .ret (fun _ : Fin 3 => 7) ∧ d.prog 2 = .ret fun _ => 7 := by
  obtain ⟨result, bound, hresult, hrun⟩ := share_reveal (Callbacks.xor 8)
    (⟨fun p i => BitVec.ofNat 8 (p.val+i),fun _ => 9,fun _ => 0⟩ : Draws (Fin 3) (BitVec 8) 3) 0 {1,2}
    {0,2} (fun p _ => if p = 0 then 7 else 5) ⟨1,by decide⟩
  obtain ⟨-, -, -, sched, d, hd, hdone⟩ := hrun [] _ rfl
  refine ⟨sched,d,hd,?_,?_⟩
  · rw [hdone.1, hresult 0 (by decide)]
    rfl
  · rw [hdone.1, hresult 2 (by decide)]
    rfl

end OramPro.ShareReveal
