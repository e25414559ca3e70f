import OramPro.FssCommon
import OramPro.Netlist

/-!
# Garbled circuits among any number of parties

`BMR` for one instance. The loops over gates take the place `o` of the instance in the flat
vectors, which is zero here. A run is written phase by phase; in a phase every party computes
from its own state and from what the others broadcast at the end of the phase before.
-/
namespace OramPro.BMR

open Netlist

inductive Gate
  | AND (in0 in1 out : ℕ)
  | XOR (in0 in1 out : ℕ)
  | NOT (in0 out : ℕ)

def Gate.ins : Gate → List ℕ
  | .AND a b _ | .XOR a b _ => [a,b]
  | .NOT a _ => [a]

def Gate.out : Gate → ℕ
  | .AND _ _ w | .XOR _ _ w | .NOT _ w => w

/-- What `BristolFormat` reads from a circuit file. -/
structure Circuit where
  num_wire : ℕ
  n1 : ℕ
  n2 : ℕ
  n3 : ℕ
  gates : List Gate

def Circuit.in_size (cf : Circuit) : ℕ := cf.n1+cf.n2

/-- The gates are in topological order and every wire is an input or the output of one gate. -/
structure Circuit.Topological (cf : Circuit) : Prop where
  inputs : cf.in_size ≤ cf.num_wire
  outputs : cf.n3 ≤ cf.num_wire
  order : Ordered Gate.ins Gate.out cf.num_wire (Finset.range cf.in_size) cf.gates

def Gate.value (v : ℕ → Bool) : Gate → Bool
  | .AND a b _ => v a && v b
  | .XOR a b _ => v a ^^ v b
  | .NOT a _ => !v a

def Circuit.plain (cf : Circuit) (x : ℕ → Bool) : ℕ → Bool :=
  cf.gates.foldl (fun v g => Function.update v g.out (g.value v)) x

/-! ## Players -/

/-- The players are named `player0`, `player1` and so on; `Pmap` holds them in the order of the
names. -/
structure Config where
  players_num : ℕ
  Pmap : List ℕ
  pos : 0 < players_num
  perm : Pmap.Perm (List.range players_num)

def Config.others (c : Config) (p : ℕ) : List ℕ := c.Pmap.filter (· ≠ p)

/-- The last character of the player's name, as a digit. -/
def getIdex (p : ℕ) : ℕ := p%10

/-- What `RAND_bytes` gives each party: mask bytes, the offset and the labels. -/
structure Draw where
  maskbits : ℕ → ℕ → Byte
  R : ℕ → Block
  label : ℕ → ℕ → ℕ → Block

structure GcTable where
  t : ℕ → Block

abbrev Hash := Block → Block → ℕ → ℕ → Block

/-! ## Offline -/

section offline
variable (c : Config) (hash : Hash) (d : Draw) (p : ℕ)

/-- One draw of an input label at `lo`, and the label of the other value at `pair`. -/
def inputLabel (lo pair k : ℕ) (Ks : Buf Block) (i : ℕ) : Except Fault (Buf Block) := do
  let Ks ← Ks.set (lo+i*2) (d.label p k i)
  Ks.set (pair+i*2+1) (d.R p ^^^ (← Ks.get (pair+i*2)))

/-- The masks of `XOR` and `NOT` gates; only `player0` flips. -/
def maskGate (o : ℕ) (m : Buf Byte) : Gate → Except Fault (Buf Byte)
  | .AND _ _ _ => return m
  | .XOR a b w => do m.set (o+w) ((← m.get (o+a)) ^^^ (← m.get (o+b)))
  | .NOT a w => do
    let x ← m.get (o+a)
    m.set (o+w) (if p = 0 then x ^^^ 1 else x)

/-- The opened masks: a party's own and what it received, joined by XOR. -/
def openBits (masks : ℕ → Buf Byte) : Buf Byte where
  size := (masks p).size
  val i := (c.others p).foldl (fun v q => v ^^^ (masks q).val i) ((masks p).val i)

def readPair (Ks : Buf Block) (x : ℕ) : Except Fault (ℕ → Block) := do
  let k0 ← Ks.get x
  let k1 ← Ks.get (x+1)
  return fun b => if b = 0 then k0 else k1

/-- The tables that a party makes for gate `i`: one for each receiver `j`. -/
def gateTables (i : ℕ) (ou ov ow : Byte) (u v : ℕ → Block) (w0 : Block) : List GcTable :=
  (List.range c.players_num).map fun j => ⟨fun k =>
    let sbit := ((ou ^^^ BitVec.ofNat 8 (k%2)) &&& (ov ^^^ BitVec.ofNat 8 (k/2))) ^^^ ow
    let t := hash (u (k%2)) (v (k/2)) i j
    if getIdex p = j then if sbit ≠ 0 then t ^^^ w0 ^^^ d.R p else t ^^^ w0
    else t⟩

structure Garbled where
  Ks : Buf Block
  tabs : List GcTable
  deriving Inhabited

def garbleGate (o inst : ℕ) (opened : Buf Byte) (s : Garbled) : Gate × ℕ → Except Fault Garbled
  | (.AND a b w,i) => do
    let Ks ← s.Ks.set ((o+w)*2) (d.label p inst w)
    let Ks ← Ks.set ((o+w)*2+1) ((← Ks.get ((o+w)*2)) ^^^ d.R p)
    let u ← readPair Ks ((o+a)*2)
    let v ← readPair Ks ((o+b)*2)
    let tabs := gateTables c hash d p i (← opened.get (o+a)) (← opened.get (o+b))
      (← opened.get (o+w)) u v (← Ks.get ((o+w)*2))
    return ⟨Ks,s.tabs++tabs⟩
  | (.XOR a b w,_) => do
    let Ks ← s.Ks.set ((o+w)*2) ((← s.Ks.get ((o+a)*2)) ^^^ (← s.Ks.get ((o+b)*2)))
    let Ks ← Ks.set ((o+w)*2+1) ((← Ks.get ((o+w)*2)) ^^^ d.R p)
    return ⟨Ks,s.tabs⟩
  | (.NOT a w,_) => do
    let Ks ← s.Ks.set ((o+w)*2) (← s.Ks.get ((o+a)*2))
    let Ks ← Ks.set ((o+w)*2+1) (← Ks.get ((o+a)*2+1))
    return ⟨Ks,s.tabs⟩

/-- The tables of all parties joined. -/
def openTabs (tabs : ℕ → List GcTable) : List GcTable :=
  (c.others p).foldl (fun t q => List.zipWith (fun x y => ⟨fun k => x.t k ^^^ y.t k⟩) t (tabs q))
    (tabs p)

structure Offline where
  opened_bits : Buf Byte
  Ks : Buf Block
  tabs : List GcTable

variable (cf : Circuit)

/-- The constructor and `offline()` of all parties. -/
def offline : Except Fault (ℕ → Offline) := do
  let masks ← collect c.players_num fun p =>
    cf.gates.foldlM (maskGate p 0) ⟨cf.num_wire,fun w => d.maskbits p w%2⟩
  let garbled ← collect c.players_num fun p => do
    let Ks ← (List.range cf.in_size).foldlM (inputLabel d p 0 0 0) ⟨cf.num_wire*2,fun _ => 0⟩
    cf.gates.zipIdx.foldlM (garbleGate c hash d p 0 0 (openBits c p masks)) ⟨Ks,[]⟩
  return fun p => ⟨openBits c p masks,(garbled p).Ks,openTabs c p fun q => (garbled q).tabs⟩

end offline

/-! ## Online -/

/-- An entry of `holder`: a player and its range of input wires. -/
structure Holder where
  player : ℕ
  first : ℕ
  last : ℕ

section online
variable (c : Config) (hash : Hash) (R : Block) (p : ℕ)

/-- The masked inputs that a holder computes and sends, with their wires. -/
def holderBits (opened : Buf Byte) (data : List Byte) (h : Holder) :
    Except Fault (List (Byte × ℕ)) :=
  if data.length = h.last-h.first then
    (data.zipIdx h.first).mapM fun x => return (x.1 ^^^ (← opened.get x.2),x.2)
  else .error .thrown

def setBits (Lambda : Buf Byte) (bits : List (Byte × ℕ)) : Except Fault (Buf Byte) :=
  bits.foldlM (fun Lambda x => Lambda.set x.2 x.1) Lambda

/-- The labels that a party sends for the inputs. -/
def pickLabels (in_size : ℕ) (Ks : Buf Block) (Lambda : Buf Byte) : Except Fault (List Block) :=
  (List.range in_size).mapM fun i => do Ks.get (i*2+(← Lambda.get i).toNat)

/-- `Ks_pickeds` after the broadcast: a party's own labels, then those of the others. -/
def gather (size : ℕ) (sent : ℕ → List Block) : ℕ → Buf Block :=
  (p :: c.others p).foldl
    (fun Ks_pickeds q => Function.update Ks_pickeds (getIdex q) ⟨size,fun i => (sent q).getD i 0⟩)
    fun _ => ⟨0,fun _ => 0⟩

/-- What a party knows of the wires: masked values and labels, and the next table. -/
structure Eval where
  Lambda_bits : Buf Byte
  Ks_pickeds : ℕ → Buf Block
  itr_tab : ℕ
  deriving Inhabited

/-- The label of receiver `j` for an `AND` gate: the row that the masked values select, without
the hashes of all parties. -/
def rowLabel (tabs : List GcTable) (o a b i : ℕ) (s : Eval) (j : ℕ) : Except Fault Block := do
  let temp ← (List.range c.players_num).foldlM (fun temp k => do
    return temp ^^^ hash (← (s.Ks_pickeds k).get (o+a)) (← (s.Ks_pickeds k).get (o+b)) i j) 0
  let tab ← (Buf.ofList tabs ⟨fun _ => 0⟩).get s.itr_tab
  let row := (← s.Lambda_bits.get (o+b)).toNat*2+(← s.Lambda_bits.get (o+a)).toNat
  return (← (Buf.mk 4 tab.t).get row) ^^^ temp

/-- The party's own label decides the masked value. -/
def judge (Ks : Buf Block) (o w : ℕ) (label : Block) (Lambda : Buf Byte) :
    Except Fault (Buf Byte) := do
  let k0 ← Ks.get ((o+w)*2)
  if label = k0 then Lambda.set (o+w) 0
  else if label = k0 ^^^ R then Lambda.set (o+w) 1
  else .error .thrown

def andStep (Ks : Buf Block) (tabs : List GcTable) (o a b w i : ℕ) (s : Eval) (j : ℕ) :
    Except Fault Eval := do
  let label ← rowLabel c hash tabs o a b i s j
  let picked ← (s.Ks_pickeds j).set (o+w) label
  let Lambda ← if getIdex p = j then judge R Ks o w label s.Lambda_bits else pure s.Lambda_bits
  return ⟨Lambda,Function.update s.Ks_pickeds j picked,s.itr_tab+1⟩

/-- The labels of all receivers for a gate that needs no table. -/
def freeLabels (o w : ℕ) (label : Buf Block → Except Fault Block) (Ks_pickeds : ℕ → Buf Block) :
    Except Fault (ℕ → Buf Block) :=
  (List.range c.players_num).foldlM (fun K j => do
    let picked ← (K j).set (o+w) (← label (K j))
    return Function.update K j picked) Ks_pickeds

def evalGate (Ks : Buf Block) (tabs : List GcTable) (o : ℕ) (s : Eval) :
    Gate × ℕ → Except Fault Eval
  | (.AND a b w,i) =>
    (List.range c.players_num).foldlM (andStep c hash R p Ks tabs o a b w i) s
  | (.XOR a b w,_) => do
    let Lambda ← s.Lambda_bits.set (o+w)
      ((← s.Lambda_bits.get (o+a)) ^^^ (← s.Lambda_bits.get (o+b)))
    let K ← freeLabels c o w (fun k => return (← k.get (o+a)) ^^^ (← k.get (o+b))) s.Ks_pickeds
    return ⟨Lambda,K,s.itr_tab⟩
  | (.NOT a w,_) => do
    let Lambda ← s.Lambda_bits.set (o+w) (← s.Lambda_bits.get (o+a))
    let K ← freeLabels c o w (fun k => k.get (o+a)) s.Ks_pickeds
    return ⟨Lambda,K,s.itr_tab⟩

variable (d : Draw) (cf : Circuit)

/-- `online(holder, data)` of all parties. -/
def online (off : ℕ → Offline) (holder : List Holder) (data : ℕ → List Byte) :
    Except Fault (ℕ → Eval) := do
  let Lambda ← collect c.players_num fun _ =>
    holder.foldlM (fun L h => do setBits L (← holderBits (off h.player).opened_bits (data h.player) h))
      ⟨cf.num_wire,fun _ => 0⟩
  let sent ← collect c.players_num fun q => pickLabels cf.in_size (off q).Ks (Lambda q)
  collect c.players_num fun p =>
    cf.gates.zipIdx.foldlM (evalGate c hash (d.R p) p (off p).Ks (off p).tabs 0)
      ⟨Lambda p,gather c p cf.num_wire sent,0⟩

end online

end OramPro.BMR
