import LiveQuery.Proofs.Pieces
import LiveQuery.Proofs.Token

/-! Trees are told apart by their text and parameters. A text is read from the left: what
stands behind an expression is a blank, a comma or a parenthesis, and what stands behind the
opening parenthesis of a node, or behind its first operand, shows which node it is. Only the
operand of a membership in no items is not written. -/

namespace LiveQuery

/-- Letters, digits and underscores, with no digit in front. -/
def IsWord (s : String) : Prop :=
  s.toList.all isWordChar = true ∧ s.toList.head?.any (fun c => !c.isDigit) = true

instance (s : String) : Decidable (IsWord s) := by
  unfold IsWord
  infer_instance

theorem IsWord.mem {s : String} (h : IsWord s) : ∀ c ∈ s.toList, isWordChar c = true := by
  simpa using h.1

theorem IsWord.eq_cons {s : String} (h : IsWord s) :
    ∃ c cs, s.toList = c :: cs ∧ isWordChar c = true ∧ c.isDigit = false := by
  obtain ⟨hw, hd⟩ := h
  cases hs : s.toList with
  | nil => simp [hs] at hd
  | cons c cs => exact ⟨c, cs, rfl, by simp_all, by simp_all⟩

/-- Two words that begin the same text are the same if neither goes on. -/
theorem word_append_inj {w w' cs cs' : List Char} {c c' : Char}
    (hw : ∀ d ∈ w, isWordChar d = true) (hw' : ∀ d ∈ w', isWordChar d = true)
    (hc : isWordChar c = false) (hc' : isWordChar c' = false)
    (h : w ++ c :: cs = w' ++ c' :: cs') : w = w' ∧ c = c' ∧ cs = cs' := by
  have htake := congrArg (List.takeWhile isWordChar) h
  rw [List.takeWhile_append_of_pos hw, List.takeWhile_append_of_pos hw',
    List.takeWhile_cons_of_neg (by simp [hc]), List.takeWhile_cons_of_neg (by simp [hc']),
    List.append_nil, List.append_nil] at htake
  subst htake
  simpa using h

/-- Two quoted segments that begin the same text are the same if no quote follows them. -/
theorem quoted_append_inj {w w' cs cs' : List Char} (hc : ∀ c ∈ cs.head?, c ≠ '"')
    (hc' : ∀ c ∈ cs'.head?, c ≠ '"') (h : quoted w ++ cs = quoted w' ++ cs') :
    w = w' ∧ cs = cs' := by
  have ht := congrArg tokens h
  rw [tokens_quoted w hc, tokens_quoted w' hc'] at ht
  obtain rfl : w = w' := by simpa using (List.cons.inj ht).1
  exact ⟨rfl, List.append_cancel_left h⟩

theorem dotted_append_inj {segs segs' : List (List Char)} (hne : segs ≠ []) (hne' : segs' ≠ [])
    {cs cs' : List Char} (hc : ∀ c ∈ cs.head?, c ≠ '"' ∧ c ≠ '.')
    (hd : ∀ c ∈ cs'.head?, c ≠ '"' ∧ c ≠ '.')
    (h : ['.'].intercalate (segs.map quoted) ++ cs = ['.'].intercalate (segs'.map quoted) ++ cs') :
    segs = segs' ∧ cs = cs' := by
  have hq : ∀ c ∈ cs.head?, c ≠ '"' := fun c hm => (hc c hm).1
  have hq' : ∀ c ∈ cs'.head?, c ≠ '"' := fun c hm => (hd c hm).1
  induction segs generalizing segs' with
  | nil => exact absurd rfl hne
  | cons w segs ih =>
    cases segs' with
    | nil => exact absurd rfl hne'
    | cons w' segs' =>
      cases segs <;> cases segs' <;>
        simp only [List.map_cons, List.map_nil, List.intercalate_singleton,
          List.intercalate_cons_cons, List.append_assoc, List.cons_append, List.nil_append] at h ih
      · obtain ⟨rfl, hrest⟩ := quoted_append_inj hq hq' h
        exact ⟨rfl, hrest⟩
      · have hrest := (quoted_append_inj hq (by simp) h).2
        exact absurd rfl (hc '.' (by simp [hrest])).2
      · have hrest := (quoted_append_inj (by simp) hq' h).2
        exact absurd rfl (hd '.' (by simp [← hrest])).2
      · obtain ⟨rfl, hrest⟩ := quoted_append_inj (by simp) (by simp) h
        obtain ⟨heq, hrest⟩ := ih (List.cons_ne_nil _ _) (List.cons_ne_nil _ _)
          (List.cons.inj hrest).2
        exact ⟨by rw [heq], hrest⟩

/-- Two quoted names that begin the same text are the same if neither goes on. -/
theorem quotedName_append_inj {name name' : String} {cs cs' : List Char}
    (hc : ∀ c ∈ cs.head?, c ≠ '"' ∧ c ≠ '.') (hc' : ∀ c ∈ cs'.head?, c ≠ '"' ∧ c ≠ '.')
    (h : (quotedName name).toList ++ cs = (quotedName name').toList ++ cs') :
    name = name' ∧ cs = cs' := by
  have hne (name : String) : segments name.toList ≠ [] := by
    obtain ⟨w, ws, hs⟩ := segments_eq_cons name.toList
    simp [hs]
  simp only [quotedName, String.toList_ofList] at h
  obtain ⟨hsegs, hrest⟩ := dotted_append_inj (hne name) (hne name') hc hc' h
  have hname := congrArg (['.'].intercalate ·) hsegs
  simp only [intercalate_segments] at hname
  exact ⟨String.toList_inj.mp hname, hrest⟩

theorem quotedName_eq_cons (name : String) : ∃ cs, (quotedName name).toList = '"' :: cs := by
  obtain ⟨w, ws, hs⟩ := segments_eq_cons name.toList
  cases ws <;> simp [quotedName, quoted, hs]

/-- What shows which node a parenthesis has opened: at once, or after its first operand. -/
inductive Mark
  | not | minus | constant (holds : Bool)
  | op (o : BinaryOp) | isNull | isNotNull | member (negated : Bool)
deriving DecidableEq

namespace Mark

def sql : Mark → String
  | not => "NOT "
  | minus => "-"
  | constant holds => if holds then "1 = 1" else "1 = 0"
  | op o => " " ++ o.sql ++ " "
  | isNull => " IS NULL"
  | isNotNull => " IS NOT NULL"
  | member negated => if negated then " NOT IN (" else " IN ("

/-- How a node ends behind its last operand. -/
def close : Mark → List Char
  | member _ => [')', ')']
  | _ => [')']

def leads : Mark → Bool
  | not | minus | constant _ => true
  | _ => false

def all : List Mark :=
  [not, minus, constant true, constant false, isNull, isNotNull, member true, member false] ++
    [.add, .sub, .mul, .div, .eq, .ne, .lt, .le, .gt, .ge, .and, .or, .concat, .like].map op

theorem mem_all (m : Mark) : m ∈ all := by
  cases m with
  | op o => cases o <;> decide
  | constant holds => cases holds <;> decide
  | member negated => cases negated <;> decide
  | _ => decide

/-- No mark is the beginning of another one. -/
theorem eq_of_begins {m m' : Mark} (h : m.sql.toList <+: m'.sql.toList) : m = m' := by
  have hall : ∀ m ∈ all, ∀ m' ∈ all, m.sql.toList <+: m'.sql.toList → m = m' := by
    decide +kernel
  exact hall m m.mem_all m' m'.mem_all h

theorem append_inj {m m' : Mark} {cs cs' : List Char}
    (h : m.sql.toList ++ cs = m'.sql.toList ++ cs') : m = m' ∧ cs = cs' := by
  have hp : m.sql.toList <+: m'.sql.toList ++ cs' := ⟨cs, h⟩
  have heq : m = m' := by
    rcases List.prefix_or_prefix_of_prefix hp (List.prefix_append _ _) with hp | hp
    · exact eq_of_begins hp
    · exact (eq_of_begins hp).symm
  subst heq
  exact ⟨rfl, List.append_cancel_left h⟩

theorem close_eq_cons (m : Mark) : ∃ cs, m.close = ')' :: cs := by
  cases m <;> exact ⟨_, rfl⟩

end Mark

namespace Expression

/-- A membership in no items, which always holds if it is negated and never if it is not. -/
def constant (holds : Bool) : Expression := member holds (literal .null) []

mutual

/-- The tree without the operands of memberships in no items. -/
def pruned : Expression → Expression
  | column name => column name
  | literal v => literal v
  | binary op l r => binary op l.pruned r.pruned
  | unary op e => unary op e.pruned
  | call name args => call name (prunedAll args)
  | member negated _ [] => constant negated
  | member negated e (item :: items) => member negated e.pruned (prunedAll (item :: items))

def prunedAll : List Expression → List Expression
  | [] => []
  | e :: es => e.pruned :: prunedAll es

end

theorem prunedAll_eq_map (es : List Expression) : prunedAll es = es.map pruned := by
  induction es with
  | nil => rfl
  | cons e es ih => rw [prunedAll, ih, List.map_cons]

theorem fragment_pruned (e : Expression) : e.pruned.fragment = e.fragment := by
  induction e with
  | column name => rfl
  | literal v => rfl
  | binary op l r ihl ihr => rw [pruned, fragment, fragment, ihl, ihr]
  | unary op e ih => cases op <;> rw [pruned, fragment, fragment, ih]
  | call name args ih =>
    have hargs : fragments (prunedAll args) = fragments args := by
      rw [prunedAll_eq_map, fragments_eq_map, fragments_eq_map, List.map_map]
      exact List.map_congr_left ih
    rw [pruned, fragment, fragment, hargs]
  | member negated e items ih ihs =>
    cases items with
    | nil => rfl
    | cons item items =>
      have hitems : fragments (prunedAll (item :: items)) = fragments (item :: items) := by
        rw [prunedAll_eq_map, fragments_eq_map, fragments_eq_map, List.map_map]
        exact List.map_congr_left ihs
      rw [pruned, fragment, ← hitems, ← ih]
      rfl

def spelled (e : Expression) : List Char := e.fragment.text.toList

def spelledAll (es : List Expression) : List Char := [',', ' '].intercalate (es.map spelled)

def values (e : Expression) : List Value := e.fragment.params

def valuesAll (es : List Expression) : List Value := es.flatMap values

theorem toList_text_joined (es : List Expression) :
    (Fragment.joined ", " (fragments es)).text.toList = spelledAll es := by
  rw [Fragment.text_joined, String.toList_intercalate, fragments_eq_map, List.map_map, List.map_map]
  rfl

theorem params_joined (es : List Expression) :
    (Fragment.joined ", " (fragments es)).params = valuesAll es := by
  rw [Fragment.params_joined, fragments_eq_map, List.flatMap_map]
  rfl

/-- The nodes in parentheses: the operand before the mark, if it has one there, and those
after it. -/
inductive Opened : Expression → List Expression → Mark → List Expression → Prop
  | binary (o : BinaryOp) (l r : Expression) : Opened (binary o l r) [l] (.op o) [r]
  | not (e : Expression) : Opened (unary .not e) [] .not [e]
  | minus (e : Expression) : Opened (unary .minus e) [] .minus [e]
  | isNull (e : Expression) : Opened (unary .isNull e) [e] .isNull []
  | isNotNull (e : Expression) : Opened (unary .isNotNull e) [e] .isNotNull []
  | constant (negated : Bool) (e : Expression) : Opened (member negated e []) [] (.constant negated) []
  | member (negated : Bool) (e item : Expression) (items : List Expression) :
    Opened (member negated e (item :: items)) [e] (.member negated) (item :: items)

variable {e e' : Expression} {before before' after after' : List Expression} {m m' : Mark}

namespace Opened

theorem spelled_eq (h : Opened e before m after) :
    e.spelled = '(' :: (spelledAll before ++
      (m.sql.toList ++ (spelledAll after ++ m.close))) := by
  cases h with
  | binary o l r => simp [spelled, spelledAll, fragment, Mark.sql, Mark.close]
  | constant negated e =>
    cases negated <;> simp [spelled, spelledAll, fragment, Mark.sql, Mark.close]
  | member negated e item items =>
    rw [← toList_text_joined (item :: items)]
    cases negated <;> simp [spelled, spelledAll, fragment, Mark.sql, Mark.close]
  | _ => simp [spelled, spelledAll, fragment, Mark.sql, Mark.close]

theorem values_eq (h : Opened e before m after) :
    e.values = valuesAll before ++ valuesAll after := by
  cases h with
  | constant negated e => cases negated <;> rfl
  | member negated e item items =>
    rw [← params_joined (item :: items)]
    cases negated <;> simp [values, valuesAll, fragment]
  | _ => simp [values, valuesAll, fragment]

theorem before_cases (h : Opened e before m after) :
    (before = [] ∧ m.leads = true) ∨ ∃ l, before = [l] := by
  cases h with
  | binary o l r => exact .inr ⟨l, rfl⟩
  | isNull e => exact .inr ⟨e, rfl⟩
  | isNotNull e => exact .inr ⟨e, rfl⟩
  | member negated e item items => exact .inr ⟨e, rfl⟩
  | _ => exact .inl ⟨rfl, rfl⟩

theorem pruned_eq (h : Opened e before m after) (h' : Opened e' before' m after')
    (hb : before.map pruned = before'.map pruned) (ha : after.map pruned = after'.map pruned) :
    e.pruned = e'.pruned := by
  cases h <;> cases h' <;> simp_all [pruned, prunedAll_eq_map]

end Opened

/-- What a text begins with. -/
inductive Initial
  | quote | placeholder | letter | parenthesis

def initial : Expression → Initial
  | column _ => .quote
  | literal _ => .placeholder
  | call _ _ => .letter
  | _ => .parenthesis

def Initial.Begins : Initial → Char → Prop
  | quote, c => c = '"'
  | placeholder, c => c = '?'
  | letter, c => isWordChar c = true ∧ c.isDigit = false
  | parenthesis, c => c = '('

theorem Initial.Begins.unique {i j : Initial} {c : Char} (hi : i.Begins c) (hj : j.Begins c) :
    i = j := by
  cases i <;> cases j <;> simp_all [Begins, isWordChar]

theorem Initial.not_begins (i : Initial) :
    ¬i.Begins '-' ∧ ¬i.Begins '1' ∧ ¬i.Begins ')' := by
  cases i <;> simp [Begins, isWordChar]

def Worded (e : Expression) : Prop := ∀ f ∈ e.functions, IsWord f

theorem Opened.initial_eq (h : Opened e before m after) : e.initial = .parenthesis := by
  cases h <;> rfl

theorem opened_of_initial (h : e.initial = .parenthesis) :
    ∃ before m after, Opened e before m after := by
  cases e with
  | binary o l r => exact ⟨_, _, _, .binary o l r⟩
  | unary op e =>
    cases op with
    | not => exact ⟨_, _, _, .not e⟩
    | minus => exact ⟨_, _, _, .minus e⟩
    | isNull => exact ⟨_, _, _, .isNull e⟩
    | isNotNull => exact ⟨_, _, _, .isNotNull e⟩
  | member negated e items =>
    cases items with
    | nil => exact ⟨_, _, _, .constant negated e⟩
    | cons item items => exact ⟨_, _, _, .member negated e item items⟩
  | _ => cases h

theorem spelled_column (name : String) : (column name).spelled = (quotedName name).toList := by
  simp [spelled, fragment]

theorem spelled_literal (v : Value) : (literal v).spelled = ['?'] := by
  simp [spelled, fragment]

theorem spelled_call (name : String) (args : List Expression) :
    (call name args).spelled = name.toList ++ '(' :: (spelledAll args ++ [')']) := by
  rw [← toList_text_joined]
  simp [spelled, fragment]

theorem values_call (name : String) (args : List Expression) :
    (call name args).values = valuesAll args := by
  rw [← params_joined]
  simp [values, fragment]

theorem Worded.spelled_eq_cons (h : e.Worded) :
    ∃ c cs, e.spelled = c :: cs ∧ e.initial.Begins c := by
  cases hi : e.initial with
  | parenthesis =>
    obtain ⟨before, m, after, ho⟩ := opened_of_initial hi
    exact ⟨_, _, ho.spelled_eq, rfl⟩
  | quote =>
    cases e with
    | column name =>
      obtain ⟨cs, hs⟩ := quotedName_eq_cons name
      exact ⟨_, _, (spelled_column name).trans hs, rfl⟩
    | _ => cases hi
  | placeholder =>
    cases e with
    | literal v => exact ⟨_, _, spelled_literal v, rfl⟩
    | _ => cases hi
  | letter =>
    cases e with
    | call name args =>
      obtain ⟨c, cs, hs, hc⟩ := (h name List.mem_cons_self).eq_cons
      exact ⟨c, _, by rw [spelled_call, hs]; rfl, hc⟩
    | _ => cases hi

/-- What begins the same text begins alike. -/
theorem Worded.initial_eq (h : e.Worded) (h' : e'.Worded) {u v : List Char}
    (heq : e.spelled ++ u = e'.spelled ++ v) : e.initial = e'.initial := by
  obtain ⟨c, cs, hs, hc⟩ := h.spelled_eq_cons
  obtain ⟨c', cs', hs', hc'⟩ := h'.spelled_eq_cons
  rw [hs, hs'] at heq
  obtain rfl := (List.cons.inj heq).1
  exact hc.unique hc'

theorem Worded.not_begins (h : e.Worded) {c : Char} (hc : ¬e.initial.Begins c)
    {u v : List Char} : c :: u ≠ e.spelled ++ v := by
  intro heq
  obtain ⟨d, cs, hs, hd⟩ := h.spelled_eq_cons
  rw [hs] at heq
  obtain rfl : c = d := (List.cons.inj heq).1
  exact hc hd

/-- No mark at the front of a node can be taken for an operand. -/
theorem Worded.not_leads (h : e.Worded) (hm : m.leads = true) {u v : List Char} :
    m.sql.toList ++ u ≠ e.spelled ++ v := by
  obtain ⟨hminus, hone, -⟩ := e.initial.not_begins
  cases m with
  | minus => exact h.not_begins hminus
  | constant holds => cases holds <;> exact h.not_begins hone
  | not =>
    cases e with
    | call name args =>
      -- a call has its parenthesis where the mark has a blank
      intro heq
      have hnot : Mark.not.sql.toList = ['N', 'O', 'T'] ++ [' '] := rfl
      rw [spelled_call, hnot, List.append_assoc, List.append_assoc] at heq
      have hword : ∀ d ∈ ['N', 'O', 'T'], isWordChar d = true := by simp [isWordChar]
      have hname := (h name List.mem_cons_self).mem
      have hblank := (word_append_inj hword hname (by decide) (by decide) heq).2.1
      exact absurd hblank (by decide)
    | _ =>
      have hnot : Mark.not.sql.toList = 'N' :: ['O', 'T', ' '] := rfl
      rw [hnot]
      exact h.not_begins (by simp [initial, Initial.Begins])
  | _ => cases hm

/-- Where an expression ends in a text. -/
def Ended (cs : List Char) : Prop := ∀ c ∈ cs.head?, c = ' ' ∨ c = ',' ∨ c = ')'

theorem Ended.not_dotted {cs : List Char} (h : Ended cs) : ∀ c ∈ cs.head?, c ≠ '"' ∧ c ≠ '.' := by
  intro c hc
  rcases h c hc with rfl | rfl | rfl <;> decide

/-- The text and the values of the tree show where it ends and, up to operands that are not
written, which tree it is. -/
def Distinct (e : Expression) : Prop :=
  ∀ ⦃e' : Expression⦄ ⦃u v : List Char⦄ ⦃ps qs : List Value⦄, e'.Worded → Ended u → Ended v →
    e.spelled ++ u = e'.spelled ++ v → e.values ++ ps = e'.values ++ qs →
      e.pruned = e'.pruned ∧ u = v ∧ ps = qs

theorem spelledAll_cons (e e' : Expression) (es : List Expression) :
    spelledAll (e :: e' :: es) = e.spelled ++ ',' :: ' ' :: spelledAll (e' :: es) := by
  simp [spelledAll, List.intercalate_cons_cons]

theorem spelledAll_singleton (e : Expression) : spelledAll [e] = e.spelled :=
  List.intercalate_singleton

theorem spelledAll_ne {es : List Expression} (h : e.Worded) {u v : List Char} :
    ')' :: u ≠ spelledAll (e :: es) ++ v := by
  have hn := e.initial.not_begins.2.2
  cases es with
  | nil =>
    rw [spelledAll_singleton]
    exact h.not_begins hn
  | cons e' es =>
    rw [spelledAll_cons, List.append_assoc]
    exact h.not_begins hn

/-- The operands in a list are told apart one after the other, up to the parenthesis. -/
theorem distinct_all {es es' : List Expression} {u v : List Char} {ps qs : List Value}
    (h : ∀ e ∈ es, e.Distinct) (hw : ∀ e ∈ es, e.Worded) (hw' : ∀ e ∈ es', e.Worded)
    (hs : spelledAll es ++ ')' :: u = spelledAll es' ++ ')' :: v)
    (hp : valuesAll es ++ ps = valuesAll es' ++ qs) :
    es.map pruned = es'.map pruned ∧ u = v ∧ ps = qs := by
  induction es generalizing es' with
  | nil =>
    cases es' with
    | nil => exact ⟨rfl, (List.cons.inj hs).2, hp⟩
    | cons e' es' => exact absurd hs (spelledAll_ne (hw' e' List.mem_cons_self))
  | cons e es ih =>
    have hd := h e List.mem_cons_self
    cases es' with
    | nil => exact absurd hs.symm (spelledAll_ne (hw e List.mem_cons_self))
    | cons e' es' =>
      have he' := hw' e' List.mem_cons_self
      have hvalues : e.values ++ (valuesAll es ++ ps) = e'.values ++ (valuesAll es' ++ qs) := by
        simpa [valuesAll] using hp
      cases es <;> cases es' <;>
        simp only [spelledAll_singleton, spelledAll_cons, List.append_assoc, List.cons_append] at hs
      · obtain ⟨he, hu, hps⟩ := hd he' (by simp [Ended]) (by simp [Ended]) hs hvalues
        exact ⟨by simp [he], (List.cons.inj hu).2, hps⟩
      · have hu := (hd he' (by simp [Ended]) (by simp [Ended]) hs hvalues).2.1
        exact absurd (List.cons.inj hu).1 (by decide)
      · have hu := (hd he' (by simp [Ended]) (by simp [Ended]) hs hvalues).2.1
        exact absurd (List.cons.inj hu).1 (by decide)
      · obtain ⟨he, hu, hrest⟩ := hd he' (by simp [Ended]) (by simp [Ended]) hs hvalues
        have hu := (List.cons.inj (List.cons.inj hu).2).2
        obtain ⟨hes, hv⟩ := ih (fun a ha => h a (List.mem_cons_of_mem e ha))
          (fun a ha => hw a (List.mem_cons_of_mem e ha))
          (fun a ha => hw' a (List.mem_cons_of_mem e' ha)) hu hrest
        exact ⟨by rw [List.map_cons, he, hes, ← List.map_cons], hv⟩

theorem Opened.worded (h : Opened e before m after) (hw : e.Worded) :
    (∀ a ∈ before, a.Worded) ∧ ∀ a ∈ after, a.Worded := by
  cases h with
  | member negated e item items =>
    simp only [Worded, functions, functionsAll_eq_flatMap, List.mem_append, List.mem_flatMap] at hw
    refine ⟨?_, fun a ha f hf => hw f (.inr ⟨a, ha, hf⟩)⟩
    rintro a ha f hf
    obtain rfl := List.mem_singleton.mp ha
    exact hw f (.inl hf)
  | _ => simp_all [Worded, functions, or_imp, forall_and]

/-- A mark behind an operand begins with a blank. -/
theorem Opened.ended (h : Opened e before m after) (hb : before ≠ []) (cs : List Char) :
    Ended (m.sql.toList ++ cs) := by
  cases h with
  | binary o l r => cases o <;> simp [Ended, Mark.sql, BinaryOp.sql]
  | member negated e item items => cases negated <;> simp [Ended, Mark.sql]
  | isNull | isNotNull => simp [Ended, Mark.sql]
  | _ => exact absurd rfl hb

/-- The mark is read behind the parenthesis, or behind the operand that stands there. -/
theorem Opened.mark_eq (h : Opened e before m after) (h' : Opened e' before' m' after')
    (hw : e.Worded) (hw' : e'.Worded) (hb : ∀ a ∈ before, a.Distinct)
    {u v : List Char} {ps qs : List Value}
    (hs : spelledAll before ++ (m.sql.toList ++ u) = spelledAll before' ++ (m'.sql.toList ++ v))
    (hp : valuesAll before ++ ps = valuesAll before' ++ qs) :
    before.map pruned = before'.map pruned ∧ m = m' ∧ u = v ∧ ps = qs := by
  obtain ⟨hbw, -⟩ := h.worded hw
  obtain ⟨hbw', -⟩ := h'.worded hw'
  rcases h.before_cases with ⟨rfl, hm⟩ | ⟨l, rfl⟩ <;>
    rcases h'.before_cases with ⟨rfl, hm'⟩ | ⟨l', rfl⟩
  · obtain ⟨hmark, hu⟩ := Mark.append_inj hs
    exact ⟨rfl, hmark, hu, hp⟩
  · rw [spelledAll_singleton] at hs
    exact absurd hs ((hbw' l' List.mem_cons_self).not_leads hm)
  · rw [spelledAll_singleton] at hs
    exact absurd hs.symm ((hbw l List.mem_cons_self).not_leads hm')
  · simp only [spelledAll_singleton, valuesAll, List.flatMap_singleton] at hs hp
    have hl' := hbw' l' List.mem_cons_self
    obtain ⟨hl, hrest, hps⟩ := hb l List.mem_cons_self hl' (h.ended (List.cons_ne_nil _ _) u)
      (h'.ended (List.cons_ne_nil _ _) v) hs hp
    obtain ⟨hmark, hu⟩ := Mark.append_inj hrest
    exact ⟨by simp [hl], hmark, hu, hps⟩

theorem Opened.distinct (h : Opened e before m after) (hw : e.Worded)
    (hb : ∀ a ∈ before, a.Distinct) (ha : ∀ a ∈ after, a.Distinct) : e.Distinct := by
  intro e' u v ps qs hw' hu hv hs hp
  obtain ⟨before', m', after', h'⟩ :=
    opened_of_initial ((hw.initial_eq hw' hs).symm.trans h.initial_eq)
  simp only [h.spelled_eq, h'.spelled_eq, h.values_eq, h'.values_eq, List.cons_append,
    List.append_assoc] at hs hp
  obtain ⟨hbefore, rfl, hrest, hps⟩ := h.mark_eq h' hw hw' hb (List.cons.inj hs).2 hp
  obtain ⟨cs, hclose⟩ := m.close_eq_cons
  simp only [hclose, List.cons_append] at hrest
  obtain ⟨hafter, hrest, hps⟩ :=
    distinct_all ha (h.worded hw).2 (h'.worded hw').2 hrest hps
  exact ⟨h.pruned_eq h' hbefore hafter, List.append_cancel_left hrest, hps⟩

theorem Worded.args {name : String} {args : List Expression} (h : (call name args).Worded) :
    ∀ a ∈ args, a.Worded := by
  intro a ha f hf
  refine h f ?_
  rw [functions, functionsAll_eq_flatMap]
  exact List.mem_cons_of_mem _ (List.mem_flatMap.mpr ⟨a, ha, hf⟩)

theorem distinct_column (name : String) : (column name).Distinct := by
  intro e' u v ps qs hw' hu hv hs hp
  have hi := Worded.initial_eq (by simp [Worded, functions]) hw' hs
  cases e' with
  | column name' =>
    rw [spelled_column, spelled_column] at hs
    obtain ⟨rfl, hrest⟩ := quotedName_append_inj hu.not_dotted hv.not_dotted hs
    exact ⟨rfl, hrest, List.append_cancel_left hp⟩
  | _ => cases hi

theorem distinct_literal (value : Value) : (literal value).Distinct := by
  intro e' u v ps qs hw' hu hv hs hp
  have hi := Worded.initial_eq (by simp [Worded, functions]) hw' hs
  cases e' with
  | literal value' =>
    rw [spelled_literal, spelled_literal] at hs
    obtain ⟨hvalue, hps⟩ : value = value' ∧ ps = qs := List.cons.inj hp
    exact ⟨by rw [hvalue], List.append_cancel_left hs, hps⟩
  | _ => cases hi

theorem distinct_call {name : String} {args : List Expression} (hw : (call name args).Worded)
    (h : ∀ a ∈ args, a.Distinct) : (call name args).Distinct := by
  intro e' u v ps qs hw' hu hv hs hp
  have hi := hw.initial_eq hw' hs
  cases e' with
  | call name' args' =>
    simp only [spelled_call, values_call, List.append_assoc, List.cons_append, List.nil_append]
      at hs hp
    obtain ⟨hname, -, hargs⟩ := word_append_inj (hw name List.mem_cons_self).mem
      (hw' name' List.mem_cons_self).mem (by decide) (by decide) hs
    obtain rfl := String.toList_inj.mp hname
    obtain ⟨heq, hrest, hps⟩ := distinct_all h hw.args hw'.args hargs hp
    exact ⟨by rw [pruned, pruned, prunedAll_eq_map, prunedAll_eq_map, heq], hrest, hps⟩
  | _ => cases hi

theorem Worded.distinct (h : e.Worded) : e.Distinct := by
  induction e with
  | column name => exact distinct_column name
  | literal v => exact distinct_literal v
  | call name args ih => exact distinct_call h fun a ha => ih a ha (h.args a ha)
  | binary o l r ihl ihr =>
    have ho := Opened.binary o l r
    have hw := ho.worded h
    simp only [List.forall_mem_singleton] at hw
    exact ho.distinct h (by simpa using ihl hw.1) (by simpa using ihr hw.2)
  | unary o e ih =>
    have hd := ih h
    cases o with
    | not => exact (Opened.not e).distinct h (by simp) (by simpa using hd)
    | minus => exact (Opened.minus e).distinct h (by simp) (by simpa using hd)
    | isNull => exact (Opened.isNull e).distinct h (by simpa using hd) (by simp)
    | isNotNull => exact (Opened.isNotNull e).distinct h (by simpa using hd) (by simp)
  | member negated e items ih ihs =>
    cases items with
    | nil => exact (Opened.constant negated e).distinct h (by simp) (by simp)
    | cons item items =>
      have ho := Opened.member negated e item items
      obtain ⟨hb, ha⟩ := ho.worded h
      simp only [List.forall_mem_singleton] at hb
      exact ho.distinct h (by simpa using ih hb) fun a hm => ihs a hm (ha a hm)

/-- Two trees have the same text and the same parameters exactly if they are the same up to
the operands of memberships in no items. -/
theorem statement_eq_iff (h : ∀ f ∈ e.functions, IsWord f) (h' : ∀ f ∈ e'.functions, IsWord f) :
    e.fragment.statement = e'.fragment.statement ↔ e.pruned = e'.pruned := by
  constructor
  · intro hs
    obtain ⟨htext, hparams⟩ : e.fragment.text = e'.fragment.text ∧
        e.fragment.params = e'.fragment.params := by
      simpa only [Fragment.statement, Statement.mk.injEq] using hs
    have hend : Ended [] := by simp [Ended]
    exact (Worded.distinct h h' hend hend (congrArg (·.toList ++ []) htext)
      (congrArg (· ++ []) hparams)).1
  · intro hp
    rw [← fragment_pruned e, ← fragment_pruned e', hp]

/-- A function whose name is a keyword is not the operator. -/
theorem statement_ne_of_keyword :
    (call "NOT" [binary .sub (column "a.b") (literal (.integer 1))]).fragment.statement ≠
      (unary .not (binary .sub (column "a.b") (literal (.integer 1)))).fragment.statement := by
  intro h
  have hname : IsWord "NOT" := by decide
  have hp := (statement_eq_iff (by simpa [functions, functionsAll]) (by simp [functions])).mp h
  simp [pruned] at hp

end Expression

end LiveQuery
