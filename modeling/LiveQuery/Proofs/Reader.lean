import LiveQuery.Proofs.Token
import Mathlib.Data.List.Forall2

/-! Predicates read from tokens with the usual precedence. An operator waits with what
stands to its left until one comes that binds no tighter, and a parenthesis sets everything
that waits aside. -/

namespace LiveQuery

inductive Formula
  | name (parts : List Part)
  | numeral (digits : List Char)
  | placeholder
  | binary (op : BinaryOp) (left right : Formula)
  | unary (op : UnaryOp) (operand : Formula)
  | call (name : List Part) (args : List Formula)
  | member (negated : Bool) (operand : Formula) (items : List Formula)

/-- How tightly an operator binds. Membership binds like equality. -/
def BinaryOp.level : BinaryOp → Nat
  | or => 1
  | and => 2
  | eq | ne | like => 4
  | lt | le | gt | ge => 5
  | add | sub => 6
  | mul | div => 7
  | concat => 8

def UnaryOp.level : UnaryOp → Nat
  | not => 3
  | isNull | isNotNull => 4
  | minus => 9

inductive Waiting
  | left (op : BinaryOp) (f : Formula)
  | before (op : UnaryOp)

namespace Waiting

def level : Waiting → Nat
  | left op _ => op.level
  | before op => op.level

def apply (w : Waiting) (g : Formula) : Formula :=
  match w with
  | left op f => .binary op f g
  | before op => .unary op g

end Waiting

/-- Applies the operators that bind at least as tightly as `n`. -/
def collapse (n : Nat) (f : Formula) : List Waiting → Formula × List Waiting
  | [] => (f, [])
  | w :: ws => if n ≤ w.level then collapse n (w.apply f) ws else (f, w :: ws)

theorem collapse_left {n : Nat} {o : BinaryOp} (h : n ≤ o.level) {f g : Formula}
    {ws : List Waiting} : collapse n g (.left o f :: ws) = collapse n (.binary o f g) ws :=
  if_pos h

/-- What an opening parenthesis belongs to. -/
inductive Bracket
  | group
  | call (name : List Part)
  | member (negated : Bool) (operand : Formula)

def Bracket.build : Bracket → List Formula → Option Formula
  | group, [f] => some f
  | call name, fs => some (.call name fs)
  | member negated e, f :: fs => some (.member negated e (f :: fs))
  | _, _ => none

/-- What waits outside an open parenthesis, with the items before the last comma in it. -/
structure Frame where
  bracket : Bracket
  items : List Formula
  waiting : List Waiting

inductive Reading
  | unfiltered
  | filtered (f : Formula)
  | malformed

inductive Reader.Mode
  /-- Before the word that begins the predicate. -/
  | seeking
  | start
  | named (parts : List Part)
  | dotted (parts : List Part)
  | after (f : Formula)
  | is (f : Formula)
  | isNot (f : Formula)
  | not (f : Formula)
  | member (negated : Bool) (f : Formula)
  | done (r : Reading)

def Reader.Mode.operand? : Reader.Mode → Option Formula
  | named parts => some (.name parts)
  | after f => some f
  | _ => none

structure Reader where
  mode : Reader.Mode
  waiting : List Waiting
  frames : List Frame

namespace Reader

def failed : Reader := ⟨.done .malformed, [], []⟩

def leave (items : List Formula) (fr : Frame) (frs : List Frame) : Reader :=
  match fr.bracket.build items with
  | some f => ⟨.after f, fr.waiting, frs⟩
  | none => failed

def operand (ws : List Waiting) (frs : List Frame) : Token → Reader
  | .part p => ⟨.named [p], ws, frs⟩
  | .numeral digits => ⟨.after (.numeral digits), ws, frs⟩
  | .mark => ⟨.after .placeholder, ws, frs⟩
  | .opening => ⟨.start, [], ⟨.group, [], ws⟩ :: frs⟩
  | .op .sub => ⟨.start, .before .minus :: ws, frs⟩
  | .keyword .not => ⟨.start, .before .not :: ws, frs⟩
  | .closing =>
    match ws, frs with
    | [], ⟨bracket, [], ws⟩ :: frs => leave [] ⟨bracket, [], ws⟩ frs
    | _, _ => failed
  | _ => failed

def proceed (f : Formula) (ws : List Waiting) (frs : List Frame) : Token → Reader
  | .op o => ⟨.start, .left o (collapse o.level f ws).1 :: (collapse o.level f ws).2, frs⟩
  | .keyword .is => ⟨.is (collapse 4 f ws).1, (collapse 4 f ws).2, frs⟩
  | .keyword .not => ⟨.not (collapse 4 f ws).1, (collapse 4 f ws).2, frs⟩
  | .keyword .member => ⟨.member false (collapse 4 f ws).1, (collapse 4 f ws).2, frs⟩
  | .comma =>
    match frs with
    | [] => failed
    | fr :: frs =>
      ⟨.start, [], ⟨fr.bracket, fr.items ++ [(collapse 0 f ws).1], fr.waiting⟩ :: frs⟩
  | .closing =>
    match frs with
    | [] => failed
    | fr :: frs => leave (fr.items ++ [(collapse 0 f ws).1]) fr frs
  | .keyword .order | .keyword .limit | .keyword .offset =>
    match frs with
    | [] => ⟨.done (.filtered (collapse 0 f ws).1), [], []⟩
    | _ :: _ => failed
  | _ => failed

def step (r : Reader) (t : Token) : Reader :=
  match r.mode, t with
  | .done _, _ => r
  | .seeking, .keyword .where => ⟨.start, [], []⟩
  | .seeking, .keyword .order | .seeking, .keyword .limit | .seeking, .keyword .offset =>
    ⟨.done .unfiltered, [], []⟩
  | .seeking, _ => r
  | .start, t => operand r.waiting r.frames t
  | .named parts, .dot => ⟨.dotted parts, r.waiting, r.frames⟩
  | .named parts, .opening => ⟨.start, [], ⟨.call parts, [], r.waiting⟩ :: r.frames⟩
  | .named parts, t => proceed (.name parts) r.waiting r.frames t
  | .dotted parts, .part p => ⟨.named (parts ++ [p]), r.waiting, r.frames⟩
  | .after f, t => proceed f r.waiting r.frames t
  | .is f, .keyword .null => ⟨.after (.unary .isNull f), r.waiting, r.frames⟩
  | .is f, .keyword .not => ⟨.isNot f, r.waiting, r.frames⟩
  | .isNot f, .keyword .null => ⟨.after (.unary .isNotNull f), r.waiting, r.frames⟩
  | .not f, .keyword .member => ⟨.member true f, r.waiting, r.frames⟩
  | .member negated f, .opening => ⟨.start, [], ⟨.member negated f, [], r.waiting⟩ :: r.frames⟩
  | _, _ => failed

def run (r : Reader) (ts : List Token) : Reader := ts.foldl step r

def result (r : Reader) : Reading :=
  match r.mode with
  | .done reading => reading
  | .seeking => .unfiltered
  | m =>
    match m.operand?, r.frames with
    | some f, [] => .filtered (collapse 0 f r.waiting).1
    | _, _ => .malformed

@[simp] theorem run_nil (r : Reader) : r.run [] = r := rfl

@[simp] theorem run_cons (r : Reader) (t : Token) (ts : List Token) :
    r.run (t :: ts) = (r.step t).run ts := rfl

@[simp] theorem run_append (r : Reader) (ts us : List Token) :
    r.run (ts ++ us) = (r.run ts).run us := List.foldl_append

variable {m : Mode} {f g : Formula} {ws : List Waiting} {frs : List Frame} {t : Token}

theorem step_operand (h : m.operand? = some f) (hd : t ≠ .dot) (ho : t ≠ .opening) :
    step ⟨m, ws, frs⟩ t = proceed f ws frs t := by
  cases m with
  | named parts =>
    cases h
    cases t <;> first | rfl | contradiction
  | after g =>
    cases h
    rfl
  | _ => cases h

theorem run_done (reading : Reading) (ts : List Token) :
    run ⟨.done reading, ws, frs⟩ ts = ⟨.done reading, ws, frs⟩ := by
  induction ts with
  | nil => rfl
  | cons t ts ih => exact ih

theorem run_seeking {ts : List Token} (h : ∀ t ∈ ts, ∀ k, t ≠ .keyword k) :
    run ⟨.seeking, ws, frs⟩ ts = ⟨.seeking, ws, frs⟩ := by
  induction ts with
  | nil => rfl
  | cons t ts ih =>
    have hstep : step ⟨.seeking, ws, frs⟩ t = ⟨.seeking, ws, frs⟩ := by
      cases t with
      | keyword k => exact absurd rfl (h _ List.mem_cons_self k)
      | _ => rfl
    rw [run_cons, hstep]
    exact ih fun u hu => h u (List.mem_cons_of_mem t hu)

/-- The tokens `ts` are the operand `f` wherever an operand is expected. -/
def Reads (ts : List Token) (f : Formula) : Prop :=
  ∀ ws frs, ∃ m : Mode, m.operand? = some f ∧ run ⟨.start, ws, frs⟩ ts = ⟨m, ws, frs⟩

theorem reads_mark : Reads [.mark] .placeholder := fun _ _ => ⟨_, rfl, rfl⟩

theorem reads_numeral (digits : List Char) : Reads [.numeral digits] (.numeral digits) :=
  fun _ _ => ⟨_, rfl, rfl⟩

theorem run_name {parts : List Part} (h : parts ≠ []) :
    run ⟨.start, ws, frs⟩ (nameTokens parts) = ⟨.named parts, ws, frs⟩ := by
  have hmore : ∀ (ps qs : List Part), qs ≠ [] →
      run ⟨.dotted ps, ws, frs⟩ (nameTokens qs) = ⟨.named (ps ++ qs), ws, frs⟩ := by
    intro ps qs hq
    induction qs generalizing ps with
    | nil => exact absurd rfl hq
    | cons q qs ih =>
      cases qs with
      | nil => rfl
      | cons r qs =>
        have hrest := ih (ps ++ [q]) (List.cons_ne_nil r qs)
        simpa [nameTokens, step] using hrest
  cases parts with
  | nil => exact absurd rfl h
  | cons p parts =>
    cases parts with
    | nil => rfl
    | cons q parts =>
      have hrest := hmore [p] (q :: parts) (List.cons_ne_nil q parts)
      simpa [nameTokens, step, operand] using hrest

theorem reads_name {parts : List Part} (h : parts ≠ []) : Reads (nameTokens parts) (.name parts) :=
  fun _ _ => ⟨_, rfl, run_name h⟩

/-- A state in which what has been read since the last parenthesis amounts to `f`. -/
def Amounts (r : Reader) (f : Formula) (frs : List Frame) : Prop :=
  ∃ (m : Mode) (g : Formula) (ws : List Waiting), m.operand? = some g ∧ r = ⟨m, ws, frs⟩ ∧
    (collapse 0 g ws).1 = f

theorem Reads.amounts {ts : List Token} (h : Reads ts f) (frs : List Frame) :
    Amounts (run ⟨.start, [], frs⟩ ts) f frs := by
  obtain ⟨m, hm, hrun⟩ := h [] frs
  exact ⟨m, f, [], hm, hrun, rfl⟩

/-- What amounts to something is an operand once it is put in parentheses. -/
theorem reads_group {ts : List Token} (h : ∀ frs, Amounts (run ⟨.start, [], frs⟩ ts) f frs) :
    Reads ([.opening] ++ ts ++ [.closing]) f := by
  intro ws frs
  obtain ⟨m, g, ws', hm, hrun, hf⟩ := h (⟨.group, [], ws⟩ :: frs)
  refine ⟨.after f, rfl, ?_⟩
  have hopen : run ⟨.start, ws, frs⟩ [.opening] = ⟨.start, [], ⟨.group, [], ws⟩ :: frs⟩ := rfl
  rw [run_append, run_append, hopen, hrun, run_cons, run_nil,
    step_operand hm (by simp) (by simp), ← hf]
  rfl

theorem Reads.binary {ts us : List Token} (hf : Reads ts f) (hg : Reads us g) (o : BinaryOp) :
    Reads ([.opening] ++ (ts ++ [.op o] ++ us) ++ [.closing]) (.binary o f g) := by
  refine reads_group fun frs => ?_
  obtain ⟨m, hm, hts⟩ := hf [] frs
  obtain ⟨m', hm', hus⟩ := hg [.left o f] frs
  have hop : step ⟨m, [], frs⟩ (.op o) = ⟨.start, [.left o f], frs⟩ :=
    step_operand hm (by simp) (by simp)
  refine ⟨m', g, [.left o f], hm', ?_, rfl⟩
  rw [run_append, run_append, hts, run_cons, run_nil, hop, hus]

theorem Reads.not {ts : List Token} (hf : Reads ts f) :
    Reads ([.opening] ++ (.keyword .not :: ts) ++ [.closing]) (.unary .not f) := by
  refine reads_group fun frs => ?_
  obtain ⟨m, hm, hts⟩ := hf [.before .not] frs
  exact ⟨m, f, [.before .not], hm, hts, rfl⟩

theorem Reads.minus {ts : List Token} (hf : Reads ts f) :
    Reads ([.opening] ++ (.op .sub :: ts) ++ [.closing]) (.unary .minus f) := by
  refine reads_group fun frs => ?_
  obtain ⟨m, hm, hts⟩ := hf [.before .minus] frs
  exact ⟨m, f, [.before .minus], hm, hts, rfl⟩

/-- Operators that bind less tightly than equality. -/
def Loose (ws : List Waiting) : Prop := ∀ w ∈ ws.head?, w.level < 4

theorem loose_nil : Loose [] := by simp [Loose]

theorem Loose.collapse (h : Loose ws) {n : Nat} (hn : 4 ≤ n) (f : Formula) :
    LiveQuery.collapse n f ws = (f, ws) := by
  cases ws with
  | nil => rfl
  | cons w ws =>
    have hw : w.level < 4 := h w (by simp)
    exact if_neg (by omega)

theorem Reads.run_isNull {ts : List Token} (hf : Reads ts f) (hl : Loose ws) (frs : List Frame) :
    run ⟨.start, ws, frs⟩ (ts ++ [.keyword .is, .keyword .null]) =
      ⟨.after (.unary .isNull f), ws, frs⟩ := by
  obtain ⟨m, hm, hts⟩ := hf ws frs
  rw [run_append, hts, run_cons, step_operand hm (by simp) (by simp), proceed,
    hl.collapse (Nat.le_refl 4)]
  rfl

theorem Reads.run_isNotNull {ts : List Token} (hf : Reads ts f) (hl : Loose ws)
    (frs : List Frame) :
    run ⟨.start, ws, frs⟩ (ts ++ [.keyword .is, .keyword .not, .keyword .null]) =
      ⟨.after (.unary .isNotNull f), ws, frs⟩ := by
  obtain ⟨m, hm, hts⟩ := hf ws frs
  rw [run_append, hts, run_cons, step_operand hm (by simp) (by simp), proceed,
    hl.collapse (Nat.le_refl 4)]
  rfl

theorem Reads.isNull {ts : List Token} (hf : Reads ts f) :
    Reads ([.opening] ++ ts ++ [.keyword .is, .keyword .null, .closing]) (.unary .isNull f) := by
  have hgroup : Reads ([.opening] ++ (ts ++ [.keyword .is, .keyword .null]) ++ [.closing])
      (.unary .isNull f) :=
    reads_group fun frs => ⟨_, _, [], rfl, hf.run_isNull loose_nil frs, rfl⟩
  simpa using hgroup

theorem Reads.isNotNull {ts : List Token} (hf : Reads ts f) :
    Reads ([.opening] ++ ts ++ [.keyword .is, .keyword .not, .keyword .null, .closing])
      (.unary .isNotNull f) := by
  have hgroup : Reads ([.opening] ++ (ts ++ [.keyword .is, .keyword .not, .keyword .null]) ++
      [.closing]) (.unary .isNotNull f) :=
    reads_group fun frs => ⟨_, _, [], rfl, hf.run_isNotNull loose_nil frs, rfl⟩
  simpa using hgroup

theorem run_items {bracket : Bracket} {ts : List Token} {tss : List (List Token)}
    {fs : List Formula} (hf : Reads ts f) (hfs : List.Forall₂ Reads tss fs) (acc : List Formula) :
    run ⟨.start, [], ⟨bracket, acc, ws⟩ :: frs⟩
        ([Token.comma].intercalate (ts :: tss) ++ [.closing]) =
      leave (acc ++ f :: fs) ⟨bracket, acc, ws⟩ frs := by
  induction hfs generalizing ts f acc with
  | nil =>
    obtain ⟨m, hm, hts⟩ := hf [] (⟨bracket, acc, ws⟩ :: frs)
    rw [List.intercalate_singleton, run_append, hts, run_cons, run_nil,
      step_operand hm (by simp) (by simp)]
    rfl
  | cons hg _ ih =>
    obtain ⟨m, hm, hts⟩ := hf [] (⟨bracket, acc, ws⟩ :: frs)
    have hrest := ih hg (acc ++ [f])
    rw [List.intercalate_cons_cons, List.append_assoc, List.append_assoc, run_append, hts,
      List.cons_append, List.nil_append, run_cons, step_operand hm (by simp) (by simp)]
    simp only [proceed, collapse]
    rw [hrest]
    simp [leave]

theorem reads_call {parts : List Part} (hp : parts ≠ []) {tss : List (List Token)}
    {fs : List Formula} (hfs : List.Forall₂ Reads tss fs) :
    Reads (nameTokens parts ++ [.opening] ++ [Token.comma].intercalate tss ++ [.closing])
      (.call parts fs) := by
  intro ws frs
  refine ⟨.after (.call parts fs), rfl, ?_⟩
  have hopen : run ⟨.start, ws, frs⟩ (nameTokens parts ++ [.opening]) =
      ⟨.start, [], ⟨.call parts, [], ws⟩ :: frs⟩ := by
    rw [run_append, run_name hp]
    rfl
  rw [List.append_assoc, run_append, hopen]
  cases hfs with
  | nil => rfl
  | cons hf hfs => exact run_items hf hfs []

def inTokens : Bool → List Token
  | true => [.keyword .not, .keyword .member]
  | false => [.keyword .member]

theorem run_member {negated : Bool} {ts : List Token} {tss : List (List Token)}
    {fs : List Formula} (hf : Reads ts f) (hfs : List.Forall₂ Reads tss fs) :
    run ⟨.member negated g, ws, frs⟩
        ([.opening] ++ [Token.comma].intercalate (ts :: tss) ++ [.closing]) =
      ⟨.after (.member negated g (f :: fs)), ws, frs⟩ := by
  rw [List.append_assoc, run_append]
  exact run_items hf hfs []

theorem Reads.run_member (negated : Bool) {ts us : List Token} {tss : List (List Token)}
    {fs : List Formula} (hg : Reads us g) (hl : Loose ws) (hf : Reads ts f)
    (hfs : List.Forall₂ Reads tss fs) (frs : List Frame) :
    run ⟨.start, ws, frs⟩ (us ++ (inTokens negated ++
        ([.opening] ++ [Token.comma].intercalate (ts :: tss) ++ [.closing]))) =
      ⟨.after (.member negated g (f :: fs)), ws, frs⟩ := by
  obtain ⟨m, hm, hus⟩ := hg ws frs
  have hkeywords : run ⟨m, ws, frs⟩ (inTokens negated) = ⟨.member negated g, ws, frs⟩ := by
    cases negated
    all_goals
      rw [inTokens, run_cons, step_operand hm (by simp) (by simp), proceed,
        hl.collapse (Nat.le_refl 4)]
      rfl
  rw [run_append, hus, run_append, hkeywords]
  exact Reader.run_member hf hfs

theorem Reads.member (negated : Bool) {ts us : List Token} {tss : List (List Token)}
    {fs : List Formula} (hg : Reads us g) (hf : Reads ts f) (hfs : List.Forall₂ Reads tss fs) :
    Reads ([.opening] ++ us ++ (inTokens negated ++ [.opening]) ++
      [Token.comma].intercalate (ts :: tss) ++ [.closing, .closing])
        (.member negated g (f :: fs)) := by
  have hgroup : Reads ([.opening] ++ (us ++ (inTokens negated ++
      ([.opening] ++ [Token.comma].intercalate (ts :: tss) ++ [.closing]))) ++ [.closing])
        (.member negated g (f :: fs)) :=
    reads_group fun frs => ⟨_, _, [], rfl, hg.run_member negated loose_nil hf hfs frs, rfl⟩
  simpa using hgroup

/-- The tokens `ts` are as good as the operand `f` to all that binds less tightly than
equality. -/
def Joins (ts : List Token) (f : Formula) : Prop :=
  ∀ ws frs, Loose ws → ∃ (m : Mode) (g : Formula) (ws' : List Waiting), m.operand? = some g ∧
    run ⟨.start, ws, frs⟩ ts = ⟨m, ws', frs⟩ ∧ ∀ n, n ≤ 2 → collapse n g ws' = collapse n f ws

theorem Reads.joins {ts : List Token} (h : Reads ts f) : Joins ts f := by
  intro ws frs _
  obtain ⟨m, hm, hrun⟩ := h ws frs
  exact ⟨m, f, ws, hm, hrun, fun _ _ => rfl⟩

theorem Reads.joins_compare {ts us : List Token} (hf : Reads ts f) (hg : Reads us g)
    {o : BinaryOp} (ho : 4 ≤ o.level) : Joins (ts ++ [.op o] ++ us) (.binary o f g) := by
  intro ws frs hl
  obtain ⟨m, hm, hts⟩ := hf ws frs
  obtain ⟨m', hm', hus⟩ := hg (.left o f :: ws) frs
  have hop : step ⟨m, ws, frs⟩ (.op o) = ⟨.start, .left o f :: ws, frs⟩ := by
    rw [step_operand hm (by simp) (by simp), proceed, hl.collapse ho]
  refine ⟨m', g, .left o f :: ws, hm', ?_, ?_⟩
  · rw [run_append, run_append, hts, run_cons, run_nil, hop, hus]
  · exact fun n hn => collapse_left (by omega)

theorem Reads.joins_isNull {ts : List Token} (hf : Reads ts f) :
    Joins (ts ++ [.keyword .is, .keyword .null]) (.unary .isNull f) :=
  fun _ frs hl => ⟨_, _, _, rfl, hf.run_isNull hl frs, fun _ _ => rfl⟩

theorem Reads.joins_member {ts us : List Token} {tss : List (List Token)} {fs : List Formula}
    (hg : Reads us g) (hf : Reads ts f) (hfs : List.Forall₂ Reads tss fs) :
    Joins (us ++ (inTokens false ++ [.opening]) ++ [Token.comma].intercalate (ts :: tss) ++
      [.closing]) (.member false g (f :: fs)) := by
  intro ws frs hl
  have hrun := hg.run_member false hl hf hfs frs
  refine ⟨.after (.member false g (f :: fs)), _, ws, rfl, ?_, fun _ _ => rfl⟩
  simpa only [List.append_assoc] using hrun

/-- Clauses joined by one of the two loosest operators are taken together from the left. The
induction keeps, as `f'`, what the clauses before amount to with the one to come. -/
theorem Joins.amounts_joined {o : BinaryOp} (ho : o.level ≤ 2) {ts : List Token}
    {tss : List (List Token)} {fs : List Formula} (hf : Joins ts f)
    (hfs : List.Forall₂ Joins tss fs) {f' : Formula} (hl : Loose ws)
    (hc : ∀ n, n ≤ o.level → collapse n f ws = (f', [])) (frs : List Frame) :
    Amounts (run ⟨.start, ws, frs⟩ ([Token.op o].intercalate (ts :: tss)))
      (fs.foldl (.binary o) f') frs := by
  induction hfs generalizing ts f f' ws with
  | nil =>
    obtain ⟨m, g, ws', hm, hrun, hcollapse⟩ := hf ws frs hl
    refine ⟨m, g, ws', hm, by rw [List.intercalate_singleton, hrun], ?_⟩
    rw [hcollapse 0 (by omega), hc 0 (by omega)]
    rfl
  | @cons us h uss hs hg _ ih =>
    obtain ⟨m, g, ws', hm, hrun, hcollapse⟩ := hf ws frs hl
    have hstep : step ⟨m, ws', frs⟩ (.op o) = ⟨.start, [.left o f'], frs⟩ := by
      rw [step_operand hm (by simp) (by simp), proceed, hcollapse _ ho, hc _ (Nat.le_refl _)]
    have hlo : Loose [.left o f'] := by
      intro w hw
      cases hw
      change o.level < 4
      omega
    have hco : ∀ n, n ≤ o.level → collapse n h [.left o f'] = (.binary o f' h, []) := by
      intro n hn
      exact collapse_left hn
    rw [List.intercalate_cons_cons, List.append_assoc, run_append, hrun, List.cons_append,
      run_cons, hstep]
    exact ih hg hlo hco

theorem Amounts.result {r : Reader} (h : Amounts r f []) : r.result = .filtered f := by
  obtain ⟨m, g, ws, hm, rfl, rfl⟩ := h
  cases m <;> cases hm <;> rfl

/-- Where the predicate ends. -/
def Ends (ts : List Token) : Prop :=
  ∀ t ∈ ts.head?, t ∈ [Token.keyword .order, .keyword .limit, .keyword .offset]

theorem Amounts.result_run {r : Reader} (h : Amounts r f []) {ts : List Token} (he : Ends ts) :
    (r.run ts).result = .filtered f := by
  cases ts with
  | nil => exact h.result
  | cons t ts =>
    obtain ⟨m, g, ws, hm, rfl, rfl⟩ := h
    have ht := he t (by simp)
    have hstep : step ⟨m, ws, []⟩ t = ⟨.done (.filtered (collapse 0 g ws).1), [], []⟩ := by
      simp only [List.mem_cons, List.not_mem_nil, or_false] at ht
      rw [step_operand hm (by rcases ht with rfl | rfl | rfl <;> simp)
        (by rcases ht with rfl | rfl | rfl <;> simp)]
      rcases ht with rfl | rfl | rfl <;> rfl
    rw [run_cons, hstep, run_done]
    rfl

end Reader

/-- What a text says about the rows it asks for. -/
def reading (text : String) : Reading :=
  (Reader.run ⟨.seeking, [], []⟩ (tokens text.toList)).result

variable {text : String} {before after : List Token}

theorem reading_filtered {ts : List Token} {f : Formula}
    (ht : tokens text.toList = before ++ .keyword .where :: (ts ++ after))
    (hb : ∀ t ∈ before, ∀ k, t ≠ .keyword k)
    (hf : ∀ frs, Reader.Amounts (Reader.run ⟨.start, [], frs⟩ ts) f frs)
    (ha : Reader.Ends after) : reading text = .filtered f := by
  rw [reading, ht, Reader.run_append, Reader.run_seeking hb, Reader.run_cons]
  have hwhere : Reader.step ⟨.seeking, [], []⟩ (.keyword .where) = ⟨.start, [], []⟩ := rfl
  rw [hwhere, Reader.run_append]
  exact (hf []).result_run ha

example : reading " FROM t WHERE a = ? OR b = ? AND NOT c = ? LIMIT 1" =
    .filtered (.binary .or (.binary .eq (.name (bareParts "a")) .placeholder)
      (.binary .and (.binary .eq (.name (bareParts "b")) .placeholder)
        (.unary .not (.binary .eq (.name (bareParts "c")) .placeholder)))) := rfl

theorem reading_unfiltered (ht : tokens text.toList = before ++ after)
    (hb : ∀ t ∈ before, ∀ k, t ≠ .keyword k) (ha : Reader.Ends after) :
    reading text = .unfiltered := by
  rw [reading, ht, Reader.run_append, Reader.run_seeking hb]
  cases after with
  | nil => rfl
  | cons t ts =>
    have ht := ha t (by simp)
    have hstep : Reader.step ⟨.seeking, [], []⟩ t = ⟨.done .unfiltered, [], []⟩ := by
      simp only [List.mem_cons, List.not_mem_nil, or_false] at ht
      rcases ht with rfl | rfl | rfl <;> rfl
    rw [Reader.run_cons, hstep, Reader.run_done]
    rfl

end LiveQuery
