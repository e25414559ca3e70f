import OramPro.Risc

/-!
# The assembler

`to_ins.py`. A first pass over the lines of a file numbers the labels, a second one emits the
instructions; the machine reads the last operand of an instruction through `dupliM`.
-/
namespace OramPro.Assembler

abbrev Text := List Char

section program

/-! ## Lines and words -/

/-- `f.readlines()`; no line is empty. The text is what Python makes of the file: it translates line ends to
`\n` on reading, so no carriage return is left. -/
def readlines : Text → List Text
  | [] => []
  | c :: cs =>
    if c = '\n' then ['\n'] :: readlines cs
    else match readlines cs with
      | [] => [[c]]
      | line :: lines => (c :: line) :: lines

/-- The characters at which `split` breaks a line. -/
def isSpace (c : Char) : Bool :=
  let n := c.toNat
  (9 ≤ n ∧ n ≤ 13) ∨ (28 ≤ n ∧ n ≤ 32) ∨ n = 0x85 ∨ n = 0xa0 ∨ n = 0x1680 ∨ (0x2000 ≤ n ∧ n ≤ 0x200a) ∨
    n = 0x2028 ∨ n = 0x2029 ∨ n = 0x202f ∨ n = 0x205f ∨ n = 0x3000

/-- `line.split()` -/
def split (line : Text) : List Text := (line.splitOnP isSpace).filter fun w => !w.isEmpty

def digit? (c : Char) : Option ℕ := if 48 ≤ c.toNat ∧ c.toNat ≤ 57 then some (c.toNat-48) else none

/-- Digits behind a digit, with single underscores between them. -/
def digits? : ℕ → Text → Option ℕ
  | n, [] => some n
  | n, '_' :: c :: cs => (digit? c).bind fun d => digits? (n*10+d) cs
  | n, c :: cs => (digit? c).bind fun d => digits? (n*10+d) cs

def unsigned? : Text → Option ℕ
  | [] => none
  | c :: cs => (digit? c).bind fun d => digits? d cs

/-- `int(s)` -/
def int? : Text → Option ℤ
  | '+' :: cs => (unsigned? cs).map fun n => (n : ℤ)
  | '-' :: cs => (unsigned? cs).map fun n => -(n : ℤ)
  | cs => (unsigned? cs).map fun n => (n : ℤ)

/-! ## Labels -/

def mem : Text := "MEM".toList

/-- `arg_map` -/
abbrev ArgMap := Text → Option ℕ

def argMap : ArgMap := fun w => if w = mem then some 512 else none

def deal_token (arr : List Text) (s : ArgMap × ℕ) : ArgMap × ℕ :=
  match arr with
  | [w] => (Function.update s.1 w.dropLast (some s.2),s.2)
  | _ => (s.1,s.2+1)

def scanLine (s : ArgMap × ℕ) (line : Text) : ArgMap × ℕ :=
  if line.head? = some '#' then s
  else
    let words := split line
    if 1 ≤ words.length then deal_token words s else s

def scan_list (lines : List Text) : ArgMap × ℕ := lines.foldl scanLine (argMap,0)

/-! ## Instructions -/

/-- A word, or the number that `replace` puts in its place. -/
inductive Token
  | str (s : Text)
  | int (n : ℕ)
  deriving DecidableEq

def token (amap : ArgMap) (w : Text) : Token :=
  match amap w with
  | some n => .int n
  | none => .str w

def replace (amap : ArgMap) (arr : List Text) : List Token := arr.map (token amap)

def retLine (amap : ArgMap) (line : Text) : Option (List Token) :=
  if line.head? = some '#' then none
  else
    let words := split line
    if 1 < words.length then some (replace amap words) else none

def mmmp : List (Text × ℕ) := [
  ("ANSWER".toList,0),("AND".toList,1),("OR".toList,2),("EXOR".toList,3),("NOT".toList,4),("SHL".toList,5),
  ("SHR".toList,6),("ADD".toList,7),("SUB".toList,8),("MULL".toList,9),("MULLH".toList,10),
  ("COMPE".toList,11),("COMPA".toList,12),("COMPAE".toList,13),("MOV".toList,14),("CMOV".toList,15),
  ("JMP".toList,16),("CJMP".toList,17),("CNJMP".toList,18),("STORE".toList,19),("LOAD".toList,20),
  ("READ".toList,21)]

def threeOperands : List Token := [
  .str "AND".toList,.str "OR".toList,.str "EXOR".toList,.str "NOT".toList,.str "SHL".toList,
  .str "SHR".toList,.str "ADD".toList,.str "SUB".toList,.str "MULL".toList,.str "MULLH".toList]

def twoOperands : List Token := [
  .str "COMPE".toList,.str "COMPA".toList,.str "COMPAE".toList,.str "MOV".toList,.str "CMOV".toList,
  .str "LOAD".toList,.str "READ".toList]

def store : Token := .str "STORE".toList

/-- `int(t[1:])` -/
def register : Token → Option ℤ
  | .str s => int? (s.drop 1)
  | .int _ => none

/-- The immediate and the indicator of a last operand. -/
def source : Token → Option (ℤ × ℤ)
  | .str s =>
    if s.head? = some '%' then (int? (s.drop 1)).map fun A => (A,32+A) else (int? s).map fun A => (A,0)
  | .int n => some (n,0)

/-- `mmmp[t]` -/
def opcode : Token → Option ℕ
  | .str s => mmmp.lookup s
  | .int _ => none

/-- A list `tmp` without its constant. -/
structure Row where
  op : ℕ
  idtr : ℤ
  ri : ℤ
  rj : ℤ
  A : ℤ
  deriving DecidableEq

/-- One turn of the last loop; an exception ends the program. -/
def encode (ele : List Token) : Option Row := do
  let op ← ele[0]?
  if op ∈ threeOperands then
    let ri ← ele[1]?.bind register
    let rj ← ele[2]?.bind register
    let (A,idtr) ← ele[3]?.bind source
    return ⟨← opcode op,idtr,ri,rj,A⟩
  else if op ∈ twoOperands then
    let ri ← ele[1]?.bind register
    let (A,idtr) ← ele[2]?.bind source
    return ⟨← opcode op,idtr,ri,0,A⟩
  else if op = store then
    let ri ← ele[1]?.bind register
    let (A,idtr) ← ele[2]?.bind source
    return ⟨← opcode op,idtr,ri,0,A⟩
  else
    let (A,idtr) ← ele[1]?.bind source
    return ⟨← opcode op,idtr,0,0,A⟩

/-- The list that is written to the output. -/
def assemble (text : Text) : Option (List Row) :=
  let lines := readlines text
  let amap := (scan_list lines).1
  (lines.filterMap (retLine amap)).mapM encode

/-- The instruction that a row becomes when the machine is loaded. -/
def Row.load (r : Row) : Ins where
  optr := BitVec.ofNat 8 r.op
  idic := BitVec.ofInt 8 r.idtr
  i := BitVec.ofInt 8 r.ri
  j := BitVec.ofInt 8 r.rj
  pad := 0
  imme := BitVec.ofInt 32 r.A

end program

/-! ## Source programs -/

/-- A register operand `%k`. -/
structure Register where
  text : Text
  number : ℕ
  lt : number < mLen.len
  reads : ∃ ds, text = '%' :: ds ∧ int? ds = some (number : ℤ)

/-- A literal. -/
structure Literal where
  text : Text
  value : ℕ
  lt : value < 2^32
  reads : int? text = some (value : ℤ)

inductive Operand
  | reg (r : Register)
  | num (n : Literal)
  | mem
  | label (name : Text)

def Operand.text : Operand → Text
  | reg r => r.text
  | num n => n.text
  | mem => Assembler.mem
  | label name => name

open Opt in
def word : Opt → Text
  | ANSWER => "ANSWER".toList | AND => "AND".toList | OR => "OR".toList | EXOR => "EXOR".toList
  | NOT => "NOT".toList | SHL => "SHL".toList | SHR => "SHR".toList | ADD => "ADD".toList
  | SUB => "SUB".toList | MULL => "MULL".toList | MULLH => "MULLH".toList | COMPE => "COMPE".toList
  | COMPA => "COMPA".toList | COMPAE => "COMPAE".toList | MOV => "MOV".toList | CMOV => "CMOV".toList
  | JMP => "JMP".toList | CJMP => "CJMP".toList | CNJMP => "CNJMP".toList | STORE => "STORE".toList
  | LOAD => "LOAD".toList | READ => "READ".toList

open Opt in
/-- How many registers stand before the last operand. -/
def registers : Opt → ℕ
  | AND | OR | EXOR | NOT | SHL | SHR | ADD | SUB | MULL | MULLH => 2
  | COMPE | COMPA | COMPAE | MOV | CMOV | STORE | LOAD | READ => 1
  | ANSWER | JMP | CJMP | CNJMP => 0

/-- An instruction with the operands that its opcode takes. -/
structure Instr where
  op : Opt
  regs : List Register
  last : Operand
  count : regs.length = registers op

def Instr.words (x : Instr) : List Text := word x.op :: x.regs.map Register.text ++ [x.last.text]

inductive Line
  | blank
  | comment
  | label (name : Text)
  | ins (x : Instr)

/-- The line that a text is. -/
def Reads (text : Text) : Line → Prop
  | .comment => text.head? = some '#'
  | .blank => text.head? ≠ some '#' ∧ split text = []
  | .label name => text.head? ≠ some '#' ∧ split text = [name ++ [':']]
  | .ins x => text.head? ≠ some '#' ∧ split text = x.words

def labels (lines : List Line) : List Text :=
  lines.filterMap fun l => match l with
    | .label name => some name
    | _ => none

def instrs (lines : List Line) : List Instr :=
  lines.filterMap fun l => match l with
    | .ins x => some x
    | _ => none

/-- No operand but a reference is written like the label. -/
structure Instr.Avoids (x : Instr) (name : Text) : Prop where
  regs : ∀ r ∈ x.regs, r.text ≠ name
  reg : ∀ r, x.last = .reg r → r.text ≠ name
  num : ∀ n, x.last = .num n → n.text ≠ name

/-- A file in the language of the assembler. -/
structure Source where
  text : Text
  lines : List Line
  reads : List.Forall₂ Reads (readlines text) lines
  distinct : (labels lines).Nodup
  mem : Assembler.mem ∉ labels lines
  opcodes : ∀ o, word o ∉ labels lines
  operands : ∀ x ∈ instrs lines, ∀ name ∈ labels lines, x.Avoids name
  defined : ∀ x ∈ instrs lines, ∀ name, x.last = .label name → name ∈ labels lines

/-- The immediate and the indicator that stand for an operand. A label stands for the number of
instructions before it. -/
inductive Operand.Encoded (lines : List Line) : Operand → ℤ → ℤ → Prop
  | reg (r : Register) : Encoded lines (reg r) r.number (32+r.number)
  | num (n : Literal) : Encoded lines (num n) n.value 0
  | mem : Encoded lines mem 512 0
  | label (name : Text) (pre post : List Line) (h : lines = pre ++ .label name :: post) :
    Encoded lines (label name) (instrs pre).length 0

/-- What an operand stands for when the registers hold `m`. -/
inductive Operand.Means (lines : List Line) (m : ℕ → Word) : Operand → Word → Prop
  | reg (r : Register) : Means lines m (reg r) (m r.number)
  | num (n : Literal) : Means lines m (num n) (BitVec.ofNat 32 n.value)
  | mem : Means lines m mem 512
  | label (name : Text) (pre post : List Line) (h : lines = pre ++ .label name :: post) :
    Means lines m (label name) (BitVec.ofNat 32 (instrs pre).length)

/-- The row of an instruction. Its indicator and immediate select the last operand. -/
structure Emits (lines : List Line) (x : Instr) (row : Row) : Prop where
  op : row.op = x.op.code
  ri : row.ri = (x.regs.map Register.number).getD 0 0
  rj : row.rj = (x.regs.map Register.number).getD 1 0
  encoded : x.last.Encoded lines row.A row.idtr
  selects : ∀ m, x.last.Means lines m (dupliM (BitVec.ofInt 32 row.A) m row.idtr.toNat)

/-! ## The first pass -/

section labels
variable {lines : List Line} {s : ArgMap × ℕ}

/-- What a line does to the labels. -/
def Line.scan (s : ArgMap × ℕ) : Line → ArgMap × ℕ
  | .blank | .comment => s
  | .label name => (Function.update s.1 name (some s.2),s.2)
  | .ins _ => (s.1,s.2+1)

@[simp] lemma instrs_ins (x : Instr) (lines : List Line) : instrs (.ins x :: lines) = x :: instrs lines := rfl

lemma Instr.words_length (x : Instr) : 2 ≤ x.words.length := by
  simp [Instr.words]

lemma deal_token_of_two {arr : List Text} (h : 2 ≤ arr.length) : deal_token arr s = (s.1,s.2+1) := by
  match arr with
  | _ :: _ :: _ => rfl

lemma scanLine_eq {text : Text} {l : Line} (h : Reads text l) : scanLine s text = l.scan s := by
  cases l with
  | blank => simp [scanLine, h.1, h.2, Line.scan]
  | comment => exact if_pos h
  | label name => simp [scanLine, h.1, h.2, deal_token, Line.scan]
  | ins x =>
    have hlen := x.words_length
    rw [scanLine, if_neg h.1, h.2]
    simp only [if_pos (by omega : 1 ≤ x.words.length), deal_token_of_two hlen, Line.scan]

lemma scan_lines {texts : List Text} (h : List.Forall₂ Reads texts lines) (s : ArgMap × ℕ) :
    texts.foldl scanLine s = lines.foldl Line.scan s := by
  induction h generalizing s with
  | nil => rfl
  | cons hl _ ih => rw [List.foldl_cons, List.foldl_cons, scanLine_eq hl, ih]

/-- The index counts the lines that the second pass emits. -/
lemma scan_index (lines : List Line) (s : ArgMap × ℕ) :
    (lines.foldl Line.scan s).2 = s.2+(instrs lines).length := by
  induction lines generalizing s with
  | nil => rfl
  | cons l lines ih =>
    rw [List.foldl_cons, ih]
    cases l with
    | ins x =>
      rw [Line.scan, instrs_ins, List.length_cons]
      omega
    | blank => rfl
    | comment => rfl
    | label name => rfl

lemma scan_other {name : Text} (h : name ∉ labels lines) (s : ArgMap × ℕ) :
    (lines.foldl Line.scan s).1 name = s.1 name := by
  induction lines generalizing s with
  | nil => rfl
  | cons l lines ih =>
    rw [List.foldl_cons]
    cases l with
    | label n =>
      have hn : name ≠ n ∧ name ∉ labels lines := by simpa [labels] using h
      rw [ih hn.2]
      exact Function.update_of_ne hn.1 _ _
    | blank => exact ih h s
    | comment => exact ih h s
    | ins x => exact ih h _

lemma labels_append (a b : List Line) : labels (a ++ b) = labels a ++ labels b := List.filterMap_append

lemma instrs_append (a b : List Line) : instrs (a ++ b) = instrs a ++ instrs b := List.filterMap_append

/-- A label gets the number of instructions before it, also when it is referred to earlier. -/
lemma scan_label {pre post : List Line} {name : Text} (h : name ∉ labels post) (s : ArgMap × ℕ) :
    ((pre ++ .label name :: post).foldl Line.scan s).1 name = some (s.2+(instrs pre).length) := by
  rw [List.foldl_append, List.foldl_cons, scan_other h]
  simp only [Line.scan, Function.update_self, scan_index]

/-- Words that are no labels, and MEM. -/
lemma Source.argMap_other (src : Source) {w : Text} (h : w ∉ labels src.lines) :
    (scan_list (readlines src.text)).1 w = argMap w := by
  rw [scan_list, scan_lines src.reads, scan_other h]

lemma Source.argMap_label (src : Source) {name : Text} (h : name ∈ labels src.lines) :
    ∃ pre post, src.lines = pre ++ .label name :: post ∧
      (scan_list (readlines src.text)).1 name = some (instrs pre).length := by
  obtain ⟨l, hl, hname⟩ := List.mem_filterMap.mp h
  have hlabel : l = .label name := by
    cases l <;> simp_all
  obtain ⟨pre, post, hsplit⟩ := List.append_of_mem (hlabel ▸ hl)
  have hdistinct := src.distinct
  rw [hsplit, labels_append] at hdistinct
  have hpost : name ∉ labels post :=
    (List.nodup_cons.mp (List.nodup_append.mp hdistinct).2.1).1
  refine ⟨pre,post,hsplit,?_⟩
  rw [scan_list, scan_lines src.reads, hsplit, scan_label hpost, Nat.zero_add]

end labels

/-! ## The second pass -/

section rows

lemma int?_percent (ds : Text) : int? ('%' :: ds) = none := rfl

lemma opcode_word (o : Opt) : opcode (.str (word o)) = some o.code := by
  cases o <;> decide

lemma three_iff (o : Opt) : Token.str (word o) ∈ threeOperands ↔ registers o = 2 := by
  cases o <;> decide

lemma two_or_store_iff (o : Opt) : (Token.str (word o) ∈ twoOperands ∨ Token.str (word o) = store) ↔
    registers o = 1 := by
  cases o <;> decide

lemma registers_le (o : Opt) : registers o ≤ 2 := by
  cases o <;> decide

lemma Register.register (r : Register) : register (.str r.text) = some (r.number : ℤ) := by
  obtain ⟨ds, htext, hint⟩ := r.reads
  rw [Assembler.register, htext]
  exact hint

/-- A word that is neither a label nor MEM stays. -/
lemma token_of_none {amap : ArgMap} {w : Text} (h : amap w = none) : token amap w = .str w := by
  rw [token, h]

variable (src : Source)

lemma Source.token_word (o : Opt) : token (scan_list (readlines src.text)).1 (word o) = .str (word o) := by
  refine token_of_none ?_
  rw [src.argMap_other (src.opcodes o)]
  cases o <;> decide

lemma Register.text_ne_mem (r : Register) : r.text ≠ mem := by
  obtain ⟨ds, htext, -⟩ := r.reads
  rw [htext]
  exact fun h => absurd (List.cons.inj h).1 (by decide)

lemma Literal.text_ne_mem (n : Literal) : n.text ≠ mem := by
  intro h
  have hint := n.reads
  rw [h, (by decide : int? mem = none)] at hint
  cases hint

/-- A text that no label is written like. -/
lemma Source.token_text {w : Text} (hw : w ∉ labels src.lines) (hmem : w ≠ Assembler.mem) :
    token (scan_list (readlines src.text)).1 w = .str w :=
  token_of_none (by rw [src.argMap_other hw, argMap, if_neg hmem])

lemma Source.token_register {x : Instr} (hx : x ∈ instrs src.lines) {r : Register} (hr : r ∈ x.regs) :
    token (scan_list (readlines src.text)).1 r.text = .str r.text :=
  src.token_text (fun h => (src.operands x hx _ h).regs r hr rfl) r.text_ne_mem

/-- The last operand gives its immediate and its indicator. -/
lemma Source.source_last {x : Instr} (hx : x ∈ instrs src.lines) : ∃ A idtr,
    source (token (scan_list (readlines src.text)).1 x.last.text) = some (A,idtr) ∧
      x.last.Encoded src.lines A idtr := by
  cases hlast : x.last with
  | reg r =>
    have hw : r.text ∉ labels src.lines := fun h => (src.operands x hx _ h).reg r hlast rfl
    obtain ⟨ds, htext, hint⟩ := r.reads
    refine ⟨r.number,32+r.number,?_,.reg r⟩
    rw [Operand.text, src.token_text hw r.text_ne_mem, source, htext]
    simp [hint]
  | num n =>
    have hw : n.text ∉ labels src.lines := fun h => (src.operands x hx _ h).num n hlast rfl
    refine ⟨n.value,0,?_,.num n⟩
    have hpercent : n.text.head? ≠ some '%' := by
      intro h
      obtain ⟨ds, htext⟩ := List.head?_eq_some_iff.mp h
      have hint := n.reads
      rw [htext, int?_percent] at hint
      cases hint
    rw [Operand.text, src.token_text hw n.text_ne_mem, source, if_neg hpercent, n.reads]
    rfl
  | mem =>
    refine ⟨512,0,?_,.mem⟩
    rw [Operand.text, token, src.argMap_other src.mem]
    rfl
  | label name =>
    obtain ⟨pre, post, hsplit, hmap⟩ := src.argMap_label (src.defined x hx name hlast)
    refine ⟨(instrs pre).length,0,?_,.label name pre post hsplit⟩
    rw [Operand.text, token, hmap]
    rfl

/-- The indicator is an index of `dupliM`: below 32 the immediate, from 32 on the registers. -/
lemma Operand.Encoded.selects {lines : List Line} {o : Operand} {A idtr : ℤ} (h : o.Encoded lines A idtr)
    (m : ℕ → Word) : o.Means lines m (dupliM (BitVec.ofInt 32 A) m idtr.toNat) := by
  have himm : ∀ A : Word, dupliM A m (0 : ℤ).toNat = A := fun A => if_pos mLen.pos
  cases h with
  | reg r =>
    have hindex : (32+(r.number : ℤ)).toNat = mLen.len+r.number := by
      have : mLen.len = 32 := rfl
      omega
    have hsel : dupliM (BitVec.ofInt 32 r.number) m (32+(r.number : ℤ)).toNat = m r.number := by
      have hlt := r.lt
      rw [hindex, dupliM, if_neg (by omega), if_neg (by omega), Nat.add_sub_cancel_left]
    rw [hsel]
    exact .reg r
  | num n =>
    rw [himm, BitVec.ofInt_natCast]
    exact .num n
  | mem =>
    rw [himm]
    exact .mem
  | label name pre post hsplit =>
    rw [himm, BitVec.ofInt_natCast]
    exact .label name pre post hsplit

lemma Source.replace_words {x : Instr} (hx : x ∈ instrs src.lines) :
    replace (scan_list (readlines src.text)).1 x.words = .str (word x.op) ::
      (x.regs.map fun r => .str r.text) ++ [token (scan_list (readlines src.text)).1 x.last.text] := by
  rw [Instr.words, replace, List.map_append, List.map_cons, src.token_word, List.map_map, List.map_singleton]
  congr 2
  exact List.map_congr_left fun r hr => src.token_register hx hr

lemma Source.encode_words {x : Instr} (hx : x ∈ instrs src.lines) : ∃ row,
    encode (replace (scan_list (readlines src.text)).1 x.words) = some row ∧ Emits src.lines x row := by
  obtain ⟨A, idtr, hsource, hencoded⟩ := src.source_last hx
  have hcount := x.count
  have hthree := three_iff x.op
  have htwo := two_or_store_iff x.op
  rw [src.replace_words hx]
  match hregs : x.regs with
  | [] =>
    rw [hregs] at hcount
    have h3 : Token.str (word x.op) ∉ threeOperands := fun h => by simp_all
    have h2 := not_or.mp (mt htwo.mp (by simp [← hcount]))
    refine ⟨⟨x.op.code,idtr,0,0,A⟩,?_,rfl,by rw [hregs]; rfl,by rw [hregs]; rfl,hencoded,hencoded.selects⟩
    simp [encode, h3, h2.1, h2.2, hsource, opcode_word]
  | [r] =>
    rw [hregs] at hcount
    have h3 : Token.str (word x.op) ∉ threeOperands := fun h => by simp_all
    refine ⟨⟨x.op.code,idtr,r.number,0,A⟩,?_,rfl,by rw [hregs]; rfl,by rw [hregs]; rfl,hencoded,
      hencoded.selects⟩
    rcases htwo.mpr hcount.symm with h2 | h2
    · simp [encode, h3, h2, hsource, opcode_word, r.register]
    · have hstore : Token.str (word x.op) ∉ twoOperands := by
        rw [h2]
        decide
      simp [encode, h3, hstore, eq_true h2, hsource, opcode_word, r.register]
  | [r1,r2] =>
    rw [hregs] at hcount
    have h3 := hthree.mpr hcount.symm
    refine ⟨⟨x.op.code,idtr,r1.number,r2.number,A⟩,?_,rfl,by rw [hregs]; rfl,by rw [hregs]; rfl,hencoded,
      hencoded.selects⟩
    simp [encode, h3, hsource, opcode_word, r1.register, r2.register]
  | _ :: _ :: _ :: _ =>
    have := registers_le x.op
    rw [hregs] at hcount
    simp only [List.length_cons] at hcount
    omega

lemma retLine_eq (amap : ArgMap) {text : Text} {l : Line} (h : Reads text l) :
    retLine amap text = match l with
      | .ins x => some (replace amap x.words)
      | _ => none := by
  cases l with
  | blank => simp [retLine, h.1, h.2]
  | comment => exact if_pos h
  | label name => simp [retLine, h.1, h.2]
  | ins x =>
    rw [retLine, if_neg h.1, h.2]
    exact if_pos x.words_length

lemma filterMap_retLine (amap : ArgMap) {texts : List Text} {lines : List Line}
    (h : List.Forall₂ Reads texts lines) :
    texts.filterMap (retLine amap) = (instrs lines).map fun x => replace amap x.words := by
  induction h with
  | nil => rfl
  | @cons text l texts lines hl _ ih =>
    have hret := retLine_eq amap hl
    cases l with
    | ins x => rw [List.filterMap_cons_some hret, ih, instrs_ins, List.map_cons]
    | blank => rw [List.filterMap_cons_none hret, ih]; rfl
    | comment => rw [List.filterMap_cons_none hret, ih]; rfl
    | label name => rw [List.filterMap_cons_none hret, ih]; rfl

/-- A loop that may fail, where it does not. -/
lemma mapM_forall₂ {α β γ : Type*} {f : β → Option γ} {g : α → β} {R : α → γ → Prop} {xs : List α}
    (h : ∀ x ∈ xs, ∃ y, f (g x) = some y ∧ R x y) :
    ∃ ys, (xs.map g).mapM f = some ys ∧ List.Forall₂ R xs ys := by
  induction xs with
  | nil => exact ⟨[],rfl,.nil⟩
  | cons x xs ih =>
    obtain ⟨y, hy, hR⟩ := h x List.mem_cons_self
    obtain ⟨ys, hys, hall⟩ := ih fun z hz => h z (List.mem_cons_of_mem x hz)
    refine ⟨y :: ys,?_,.cons hR hall⟩
    rw [List.map_cons, List.mapM_cons, hy, hys]
    rfl

end rows

/-! ## In the machine -/

section machine
variable {lines : List Line} {x : Instr} {row : Row}

lemma Operand.Encoded.idtr_lt {o : Operand} {A idtr : ℤ} (h : o.Encoded lines A idtr) :
    ∃ k : ℕ, idtr = k ∧ k < dmLen.len := by
  cases h with
  | reg r =>
    have hlt : r.number < 32 := r.lt
    have hlen : dmLen.len = 64 := rfl
    exact ⟨32+r.number,by push_cast; rfl,by omega⟩
  | num n => exact ⟨0,rfl,dmLen.pos⟩
  | mem => exact ⟨0,rfl,dmLen.pos⟩
  | label name pre post hsplit => exact ⟨0,rfl,dmLen.pos⟩

/-- The operand of the plain machine is the one of the source. -/
lemma Emits.operand (h : Emits lines x row) {t : Plain} (hw : t.word = row.load) :
    x.last.Means lines (fun k => t.m (mLen.cell k)) t.A := by
  have hsel := h.selects fun k => t.m (mLen.cell k)
  have hA : t.A = dupliM (BitVec.ofInt 32 row.A) (fun k => t.m (mLen.cell k)) row.idtr.toNat := by
    obtain ⟨k, hk, hlt⟩ := h.encoded.idtr_lt
    have hlen : dmLen.len = 64 := rfl
    have hm : mLen.len = 32 := rfl
    have hidic : t.word.idic.toNat = k := by
      rw [hw, Row.load, hk, BitVec.ofInt_natCast, BitVec.toNat_ofNat, Nat.mod_eq_of_lt (by omega)]
    rw [Plain.A, hidic, Nat.mod_eq_of_lt hlt, hk, Int.toNat_natCast, dupliM, hw]
    split_ifs with h1 h2
    · rfl
    · omega
    · have hcell : mLen.cell k = mLen.cell (k-mLen.len) := Fin.ext (Nat.mod_eq_sub_mod (by omega))
      rw [hcell]
  rwa [hA]

/-- What `load_ins` reads for an emitted row opens to the operand of the source. -/
theorem Emits.loadIns {f : Access} {d : FetchDraw} {s : Mechine} (h : Emits lines x row) (hs : s.Shared)
    (hd : d.Ok f) (hw : s.opens.word = row.load) :
    x.last.Means lines (fun k => s.opens.m (mLen.cell k)) (open4 (loadIns f d s.toEnv).A) := by
  rw [loadIns_A hs hd]
  exact h.operand hw

end machine

/-- The rows are those of the instructions, in order. Their indicators and immediates select the last
operands, and the rows from the index of a label on are those of the instructions behind it. -/
theorem assemble_correct (src : Source) : ∃ rows, assemble src.text = some rows ∧
    List.Forall₂ (Emits src.lines) (instrs src.lines) rows ∧
    ∀ pre name post, src.lines = pre ++ .label name :: post →
      List.Forall₂ (Emits src.lines) (instrs post) (rows.drop (instrs pre).length) := by
  obtain ⟨rows, hrows, hall⟩ := mapM_forall₂ fun x hx => src.encode_words (x := x) hx
  refine ⟨rows,?_,hall,fun pre name post hsplit => ?_⟩
  · rw [assemble]
    simp only [filterMap_retLine _ src.reads]
    exact hrows
  · have hdrop := List.forall₂_drop (instrs pre).length hall
    have hinstrs : instrs src.lines = instrs pre ++ instrs post := by
      rw [hsplit, instrs_append]
      rfl
    rwa [hinstrs, List.drop_left] at hdrop

def forwardText : Text := "#jump\nJMP end\n\nend:\nANSWER %31".toList

def forwardLines : List Line := [
  .comment,
  .ins ⟨.JMP,[],.label "end".toList,rfl⟩,
  .blank,
  .label "end".toList,
  .ins ⟨.ANSWER,[],.reg ⟨"%31".toList,31,by decide,"31".toList,rfl,by decide⟩,rfl⟩]

lemma forward_reads : List.Forall₂ Reads (readlines forwardText) forwardLines := by
  have hlines : readlines forwardText = [
      "#jump\n".toList,"JMP end\n".toList,"\n".toList,"end:\n".toList,"ANSWER %31".toList] := by decide
  rw [hlines]
  refine .cons rfl (.cons ⟨?_,?_⟩ (.cons ⟨?_,?_⟩ (.cons ⟨?_,?_⟩ (.cons ⟨?_,?_⟩ .nil)))) <;> decide

/-- A jump forward over a blank line. -/
def forward : Source where
  text := forwardText
  lines := forwardLines
  reads := forward_reads
  distinct := by decide
  mem := by decide
  opcodes := by decide
  operands := by
    intro x hx name hname
    have hend : name = "end".toList := List.mem_singleton.mp hname
    subst hend
    rcases List.mem_cons.mp hx with rfl | hx
    · exact ⟨by simp,by simp,by simp⟩
    · obtain rfl := List.mem_singleton.mp hx
      exact ⟨by simp,fun r hr => by cases hr; decide,by simp⟩
  defined := by
    intro x hx name hlast
    rcases List.mem_cons.mp hx with rfl | hx
    · cases hlast
      decide
    · obtain rfl := List.mem_singleton.mp hx
      cases hlast

example : assemble forward.text = some [⟨16,0,0,0,1⟩,⟨0,63,0,0,31⟩] := by decide

end OramPro.Assembler
