import OramPro.BmrBatchRun
import OramPro.Rounds

/-!
# The garbled evaluation as processes

Every player runs `offline()` and `online(holder, data)` on its own: it broadcasts its masks, its tables, the
masked inputs that it holds and its labels, and waits for those of the others. The functions for all players at
once are the lockstep that every schedule agrees with. The queues between the players are unbounded; the code
flushes into blocking sockets, where a player also waits while a buffer is full.
-/
namespace OramPro.BMR

open Netlist Process

/-! ## Messages -/

inductive Msg
  | masks (m : Buf Byte)
  | tables (l : List GcTable)
  | bits (l : List Byte)
  | labels (l : List Block)

def Msg.getMasks : Msg → Buf Byte
  | masks m => m
  | _ => ⟨0,fun _ => 0⟩

def Msg.getTables : Msg → List GcTable
  | tables l => l
  | _ => []

def Msg.getBits : Msg → List Byte
  | bits l => l
  | _ => []

def Msg.getLabels : Msg → List Block
  | labels l => l
  | _ => []

section programs
variable (c : Config)

abbrev Player := Fin c.players_num

/-- The other players, in the order of `subio`. -/
def Config.peers (p : Player c) : List (Player c) :=
  (c.others p).filterMap fun q => if h : q < c.players_num then some ⟨q,h⟩ else none

/-- What a player has of each player after `recv_all`. -/
def received {T : Type} (p : Player c) (own : T) (rets : List T) (q : ℕ) : T :=
  if q = p then own else rets.getD ((c.others p).idxOf q) own

variable {c}

/-- An exception ends the program. -/
def attempt {A B : Type} (x : Except Fault A) (f : A → Prog (Player c) Msg (Except Fault B)) :
    Prog (Player c) Msg (Except Fault B) :=
  match x with
  | .ok a => f a
  | .error e => .ret (.error e)

@[simp] lemma attempt_ok {A B : Type} (a : A) (f : A → Prog (Player c) Msg (Except Fault B)) :
    attempt (.ok a) f = f a := rfl

/-! ## Programs -/

variable (c) (hash : Hash) (d : Draw) (cf : Circuit) (holder : List Holder) (data : ℕ → List Byte) (p : Player c)

/-- The tables and labels of a player. -/
def garble (opened : Buf Byte) : Except Fault Garbled := do
  let Ks ← (List.range cf.in_size).foldlM (inputLabel d p 0 0 0) ⟨cf.num_wire*2,fun _ => 0⟩
  cf.gates.zipIdx.foldlM (garbleGate c hash d p 0 0 opened) ⟨Ks,[]⟩

def offlineProg {A : Type} (next : Offline → Prog (Player c) Msg (Except Fault A)) :
    Prog (Player c) Msg (Except Fault A) :=
  attempt (cf.gates.foldlM (maskGate p 0) ⟨cf.num_wire,fun w => d.maskbits p w%2⟩) fun maskbits => do
    let rets ← Prog.exchange (c.peers p) (.masks maskbits)
    let opened := openBits c p (received c p maskbits (rets.map Msg.getMasks))
    attempt (garble c hash d cf p opened) fun g => do
      let rets ← Prog.exchange (c.peers p) (.tables g.tabs)
      next ⟨opened,g.Ks,openTabs c p (received c p g.tabs (rets.map Msg.getTables))⟩

/-- An entry of `holder`: its player sends the masked inputs, the others put them in their places. -/
def inputTurn {A : Type} (off : Offline) (L : Buf Byte) (h : Holder)
    (next : Buf Byte → Prog (Player c) Msg (Except Fault A)) : Prog (Player c) Msg (Except Fault A) :=
  if ho : h.player < c.players_num then
    if p = ⟨h.player,ho⟩ then
      attempt (holderBits off.opened_bits (data p) h) fun bits => do
        let _ ← Prog.tellAll (.bits (bits.map Prod.fst)) (c.peers p)
        attempt (setBits L bits) next
    else do
      let m ← Prog.ask ⟨h.player,ho⟩
      attempt (setBits L (m.getBits.zipIdx h.first)) next
  else .ret (.error .thrown)

def inputTurns {A : Type} (off : Offline) (L : Buf Byte)
    (next : Buf Byte → Prog (Player c) Msg (Except Fault A)) :
    List Holder → Prog (Player c) Msg (Except Fault A)
  | [] => next L
  | h :: holder => inputTurn c data p off L h fun L => inputTurns off L next holder

/-- The evaluation, and the outputs that are printed at its end. -/
def finish (off : Offline) (s : Eval) : Except Fault (List Byte) := do
  let s ← cf.gates.zipIdx.foldlM (evalGate c hash (d.R p) p off.Ks off.tabs 0) s
  (outWires cf).mapM fun i => do return (← s.Lambda_bits.get i) ^^^ (← off.opened_bits.get i)

def onlineProg (off : Offline) : Prog (Player c) Msg (Except Fault (List Byte)) :=
  inputTurns c data p off ⟨cf.num_wire,fun _ => 0⟩ (fun Lambda =>
    attempt (pickLabels cf.in_size off.Ks Lambda) fun own => do
      let rets ← Prog.exchange (c.peers p) (.labels own)
      return finish c hash d cf p off
        ⟨Lambda,gather c p cf.num_wire (received c p own (rets.map Msg.getLabels)),0⟩) holder

def player : Prog (Player c) Msg (Except Fault (List Byte)) :=
  offlineProg c hash d cf p (onlineProg c hash d cf holder data p)

end programs

/-! ## The lockstep -/

section lockstep
variable {c : Config}

lemma peers_val (p : Player c) : (c.peers p).map Fin.val = c.others p := by
  have hlt : ∀ q ∈ c.others p, q < c.players_num := fun q hq =>
    List.mem_range.mp (c.perm.mem_iff.mp (List.mem_of_mem_filter hq))
  rw [Config.peers, List.map_filterMap]
  refine (List.filterMap_congr fun q hq => ?_).trans List.filterMap_some
  rw [dif_pos (hlt q hq)]
  rfl

lemma peers_map {T : Type} (p : Player c) (f : ℕ → T) : (c.peers p).map (fun q => f q.val) = (c.others p).map f := by
  rw [← peers_val, List.map_map]
  rfl

lemma mem_others {p q : ℕ} : q ∈ c.others p ↔ q < c.players_num ∧ q ≠ p := by
  simp [Config.others, c.perm.mem_iff]

lemma peers_ok : Peers c.peers where
  nodup p := by
    have hnd : (c.others p).Nodup := (c.perm.nodup_iff.mpr List.nodup_range).filter _
    rw [← peers_val] at hnd
    exact hnd.of_map _
  mem p q := by
    have hmem : q ∈ c.peers p ↔ q.val ∈ c.others p := by
      rw [← peers_val]
      exact (List.mem_map_of_injective Fin.val_injective).symm
    rw [hmem, mem_others, ne_eq, ne_eq, Fin.ext_iff]
    exact and_iff_right q.isLt

/-- After a round a player has what every player sent. -/
lemma received_round {T : Type} (p : Player c) (m : ℕ → T) {q : ℕ} (hq : q = p ∨ q ∈ c.others p) :
    received c p (m p) ((c.others p).map m) q = m q := by
  rw [received]
  split
  · next h => rw [h]
  · next h =>
    have hmem := hq.resolve_left h
    have hlt := List.idxOf_lt_length_of_mem hmem
    rw [List.getD_eq_getElem _ _ (by rwa [List.length_map]), List.getElem_map, List.getElem_idxOf]

lemma openBits_round (p : Player c) (m : ℕ → Buf Byte) :
    openBits c p (received c p (m p) ((c.others p).map m)) = openBits c p m := by
  have hown := received_round p m (.inl rfl)
  simp only [openBits, hown]
  congr
  funext i
  exact List.foldl_ext _ _ _ fun v q hq => by rw [received_round p m (.inr hq)]

lemma openTabs_round (p : Player c) (m : ℕ → List GcTable) :
    openTabs c p (received c p (m p) ((c.others p).map m)) = openTabs c p m := by
  rw [openTabs, openTabs, received_round p m (.inl rfl)]
  exact List.foldl_ext _ _ _ fun v q hq => by rw [received_round p m (.inr hq)]

lemma gather_round (p : Player c) (size : ℕ) (m : ℕ → List Block) :
    gather c p size (received c p (m p) ((c.others p).map m)) = gather c p size m := by
  rw [gather, gather]
  refine List.foldl_ext _ _ _ fun K q hq => ?_
  rw [received_round p m (List.mem_cons.mp hq)]

/-! ## Plans -/

variable {hash : Hash} {d : Draw} {cf : Circuit} {holder : List Holder} {data : ℕ → List Byte}
  {off : ℕ → Offline}

/-- The two rounds of `offline()` come before what follows. -/
lemma offline_planned {A : Type} {next : ∀ _ : Player c, Offline → Prog (Player c) Msg (Except Fault A)}
    {result : Player c → Except Fault A} (hoff : offline c hash d cf = .ok off)
    (h : Planned (fun p => next p (off p)) result) :
    Planned (fun p => offlineProg c hash d cf p (next p)) result := by
  obtain ⟨masks, hmasks, hoff⟩ := ok_of_bind hoff
  obtain ⟨garbled, hgarbled, hoff⟩ := ok_of_bind hoff
  obtain rfl := Except.ok.inj hoff
  have hprog : (fun p => offlineProg c hash d cf p (next p)) = fun p : Player c =>
      Prog.exchange (c.peers p) (.masks (masks p)) >>= fun rets =>
        let opened := openBits c p (received c p (masks p) (rets.map Msg.getMasks))
        attempt (garble c hash d cf p opened) fun g =>
          Prog.exchange (c.peers p) (.tables g.tabs) >>= fun rets =>
            next p ⟨opened,g.Ks,openTabs c p (received c p g.tabs (rets.map Msg.getTables))⟩ := by
    funext p
    rw [offlineProg, collect_inv hmasks p p.isLt]
    rfl
  rw [hprog]
  refine Planned.exchange peers_ok (m := fun p : Player c => Msg.masks (masks p)) ?_
  have hopened : ∀ p : Player c, openBits c p (received c p (masks p)
      (((c.peers p).map fun q : Player c => Msg.masks (masks q.val)).map Msg.getMasks)) = openBits c p masks := by
    intro p
    rw [List.map_map, ← openBits_round p masks, ← peers_map]
    rfl
  have hgarble : ∀ p : Player c, garble c hash d cf p (openBits c p masks) = .ok (garbled p) := fun p =>
    collect_inv hgarbled p p.isLt
  simp only [hopened, hgarble, attempt_ok]
  refine Planned.exchange peers_ok (m := fun p : Player c => Msg.tables (garbled p).tabs) ?_
  have htabs : ∀ p : Player c, openTabs c p (received c p (garbled p).tabs
      (((c.peers p).map fun q : Player c => Msg.tables (garbled q.val).tabs).map Msg.getTables)) =
      openTabs c p fun q => (garbled q).tabs := by
    intro p
    rw [List.map_map, ← openTabs_round p fun q => (garbled q).tabs, ← peers_map]
    rfl
  simp only [htabs]
  exact h

/-- The bytes of a holder and their places. -/
lemma holderBits_zip {opened : Buf Byte} {l : List Byte} {h : Holder} {bits : List (Byte × ℕ)}
    (hbits : holderBits opened l h = .ok bits) : (bits.map Prod.fst).zipIdx h.first = bits := by
  rw [holderBits] at hbits
  split at hbits
  · next hlen =>
    clear hlen
    generalize h.first = k at hbits ⊢
    induction l generalizing k bits with
    | nil =>
      obtain rfl := Except.ok.inj hbits
      rfl
    | cons x l ih =>
      rw [List.zipIdx_cons, List.mapM_cons] at hbits
      obtain ⟨y, hone, hbits⟩ := ok_of_bind hbits
      obtain ⟨bits', hrest, hbits⟩ := ok_of_bind hbits
      obtain ⟨o, -, hone⟩ := ok_of_bind hone
      obtain rfl := Except.ok.inj hone
      obtain rfl := Except.ok.inj hbits
      rw [List.map_cons, List.zipIdx_cons, ih (k+1) hrest]
  · cases hbits

/-- The turns of the holders come before what follows. -/
lemma inputs_planned {A : Type} {next : ∀ _ : Player c, Buf Byte → Prog (Player c) Msg (Except Fault A)}
    {result : Player c → Except Fault A} (hplayer : ∀ h ∈ holder, h.player < c.players_num) {L L' : Buf Byte}
    (hrun : holder.foldlM (fun L h => do
      setBits L (← holderBits (off h.player).opened_bits (data h.player) h)) L = .ok L')
    (h : Planned (fun p => next p L') result) :
    Planned (fun p => inputTurns c data p (off p) L (next p) holder) result := by
  induction holder generalizing L with
  | nil =>
    obtain rfl := Except.ok.inj hrun
    exact h
  | cons o holder ih =>
    rw [List.foldlM_cons] at hrun
    obtain ⟨L1, hone, hrun⟩ := ok_of_bind hrun
    obtain ⟨bits, hbits, hset⟩ := ok_of_bind hone
    have ho := hplayer o List.mem_cons_self
    have hrest := ih (fun h hh => hplayer h (List.mem_cons_of_mem _ hh)) hrun
    have hprog : (fun p => inputTurns c data p (off p) L (next p) (o :: holder)) = fun p : Player c =>
        if p = ⟨o.player,ho⟩ then
          Prog.tellAll (.bits (bits.map Prod.fst)) (c.peers ⟨o.player,ho⟩) >>= fun _ =>
            inputTurns c data ⟨o.player,ho⟩ (off o.player) L1 (next ⟨o.player,ho⟩) holder
        else Prog.ask ⟨o.player,ho⟩ >>= fun m => attempt (setBits L (m.getBits.zipIdx o.first)) fun L =>
          inputTurns c data p (off p) L (next p) holder := by
      funext p
      rw [inputTurns, inputTurn, dif_pos ho]
      by_cases hp : p = ⟨o.player,ho⟩
      · subst hp
        rw [if_pos rfl, if_pos rfl, hbits]
        simp only [attempt_ok, hset]
      · rw [if_neg hp, if_neg hp]
    rw [hprog]
    refine Planned.announce peers_ok ?_
    have hreceived : ∀ p : Player c, attempt (setBits L ((Msg.getBits (.bits (bits.map Prod.fst))).zipIdx o.first))
        (fun L => inputTurns c data p (off p) L (next p) holder) =
        inputTurns c data p (off p) L1 (next p) holder := by
      intro p
      rw [Msg.getBits, holderBits_zip hbits, hset, attempt_ok]
    have hsame : (fun p : Player c => if p = ⟨o.player,ho⟩ then
        inputTurns c data ⟨o.player,ho⟩ (off o.player) L1 (next ⟨o.player,ho⟩) holder
        else inputTurns c data p (off p) L1 (next p) holder) =
        fun p => inputTurns c data p (off p) L1 (next p) holder := by
      funext p
      split
      · next hp => rw [hp]
      · rfl
    simp only [hreceived]
    rw [hsame]
    exact hrest

/-- Where the lockstep succeeds, every player has a plan that ends with its part of it. -/
lemma player_planned (hplayer : ∀ h ∈ holder, h.player < c.players_num) {ev : ℕ → Eval}
    (hoff : offline c hash d cf = .ok off) (hon : online c hash d cf off holder data = .ok ev) :
    Planned (player c hash d cf holder data) fun p => (outWires cf).mapM fun i => do
      return (← (ev p).Lambda_bits.get i) ^^^ (← (off p).opened_bits.get i) := by
  obtain ⟨Lambda, hLambda, hon⟩ := ok_of_bind hon
  obtain ⟨sent, hsent, hev⟩ := ok_of_bind hon
  refine offline_planned hoff ?_
  have hinputs := fun p : Player c => collect_inv hLambda p p.isLt
  refine inputs_planned hplayer (hinputs ⟨0,c.pos⟩) ?_
  have hsame : ∀ p : Player c, Lambda p = Lambda 0 := fun p =>
    Except.ok.inj ((hinputs p).symm.trans (hinputs ⟨0,c.pos⟩))
  have hpick : ∀ p : Player c, pickLabels cf.in_size (off p).Ks (Lambda 0) = .ok (sent p) := fun p => by
    rw [← hsame p]
    exact collect_inv hsent p p.isLt
  simp only [hpick, attempt_ok]
  refine Planned.exchange peers_ok (m := fun p : Player c => Msg.labels (sent p)) ?_
  have hfinish : ∀ p : Player c, finish c hash d cf p (off p) ⟨Lambda 0,gather c p cf.num_wire
      (received c p (sent p) (((c.peers p).map fun q : Player c => Msg.labels (sent q.val)).map Msg.getLabels)),0⟩ =
      (outWires cf).mapM fun i => do
        return (← (ev p).Lambda_bits.get i) ^^^ (← (off p).opened_bits.get i) := by
    intro p
    have hgather := gather_round p cf.num_wire sent
    rw [← peers_map] at hgather
    rw [finish, List.map_map, ← hsame p]
    refine Eq.trans ?_ (congrArg (fun x => x >>= fun s => (outWires cf).mapM fun i => do
      return (← s.Lambda_bits.get i) ^^^ (← (off p).opened_bits.get i)) (collect_inv hev p p.isLt))
    rw [← hgather]
    rfl
  simp only [hfinish]
  exact .ret _

variable {x : ℕ → Bool}

/-- Under every schedule of at most ten players each one prints the outputs of the circuit in the clear. -/
theorem players_agree (h10 : c.players_num ≤ 10) (hash : Hash) (hcf : cf.Topological)
    (hR : ∀ p < c.players_num, d.R p ≠ 0) (hx : Assigns c cf holder data x) :
    Agrees (player c hash d cf holder data) fun _ => .ok (cf.plainOutputs x) := by
  obtain ⟨off, ob, hoff, hs⟩ := offline_ok c hash d hcf
  obtain ⟨ev, hev, hwire⟩ := online_ok hcf hs h10 hR hx
  have hout : (fun p : Player c => (outWires cf).mapM fun i => do
      return (← (ev p).Lambda_bits.get i) ^^^ (← (off p).opened_bits.get i)) =
      fun _ => .ok (cf.plainOutputs x) := by
    funext p
    refine mapM_ok fun i hi => ?_
    have hlt := outWires_lt hcf i hi
    obtain ⟨hsize, hwires⟩ := hwire p p.isLt
    rw [Buf.get_ok (hsize.bits.symm ▸ hlt), ok_bind, Buf.get_ok ((hs.size p p.isLt).symm ▸ hlt), ok_bind,
      (hwires i hlt).bit, hs.opened p p.isLt i hlt, bit_xor, masked, Bool.xor_assoc, Bool.xor_self,
      Bool.xor_false]
    rfl
  rw [← hout]
  exact (player_planned hx.player hoff hev).agrees

/-- One `AND` gate of two players. -/
theorem players_agree_two : Agrees (player twoPlayers (fun k l i j => k ^^^ l ^^^ i ^^^ j) plainDraw andCircuit
    andHolder fun _ => [1]) fun _ => .ok [1] :=
  players_agree (by decide) _ andCircuit_topological (by decide) (and_assigns (by decide))

end lockstep

end OramPro.BMR
