import LiveQuery.Proofs.Pieces
import LiveQuery.Proofs.Reader

/-! What the statements of a query say, read with the usual precedence: the tree or else
every flat condition, and one disjunction for each group that is not empty. -/

namespace LiveQuery

namespace Formula

/-- The formulas taken together from the left, if there are any. -/
def joined? (op : BinaryOp) : List Formula → Option Formula
  | [] => none
  | f :: fs => some (fs.foldl (binary op) f)

end Formula

namespace Expression

mutual

def formula : Expression → Formula
  | column name => .name (quotedParts name)
  | literal _ => .placeholder
  | binary op l r => .binary op l.formula r.formula
  | unary op e => .unary op e.formula
  | call name args => .call (bareParts name) (formulas args)
  | member true _ [] => .binary .eq (.numeral ['1']) (.numeral ['1'])
  | member false _ [] => .binary .eq (.numeral ['1']) (.numeral ['0'])
  | member negated e (item :: items) => .member negated e.formula (formulas (item :: items))

def formulas : List Expression → List Formula
  | [] => []
  | e :: es => e.formula :: formulas es

end

theorem formulas_eq_map (es : List Expression) : formulas es = es.map formula := by
  induction es with
  | nil => rfl
  | cons e es ih => rw [formulas, ih, List.map_cons]

end Expression

def RangeOp.binary : RangeOp → BinaryOp
  | gt => .gt
  | ge => .ge
  | lt => .lt
  | le => .le
  | ne => .ne

def Test.formula (field : String) : Test → Formula
  | equals .null => .unary .isNull (.name (bareParts field))
  | equals _ => .binary .eq (.name (bareParts field)) .placeholder
  | range op _ => .binary op.binary (.name (bareParts field)) .placeholder
  | among [] => .binary .eq (.numeral ['1']) (.numeral ['0'])
  | among (v :: vs) => .member false (.name (bareParts field)) ((v :: vs).map fun _ => .placeholder)

namespace Query

def conditionFormula (q : Query) (qualify : Bool) (c : Condition) : Formula :=
  c.test.formula (q.fieldName qualify c.field)

/-- The conjuncts, in order. A tree takes the place of the flat conditions. -/
def conjuncts (q : Query) (qualify : Bool) : List Formula :=
  (match q.tree with
    | some e => [e.formula]
    | none => q.conditions.map (q.conditionFormula qualify)) ++
  q.orGroups.filterMap fun g => Formula.joined? .or (g.map (q.conditionFormula qualify))

/-- The predicate of the query, if it has one. -/
def formula? (q : Query) (qualify : Bool) : Option Formula :=
  Formula.joined? .and (q.conjuncts qualify)

/-- The predicate as a whole, and the id past the watermark. -/
def pastFormula (q : Query) (idColumn : String) : Formula :=
  let past : Formula := .binary .gt (.name (bareParts (qualified q.table idColumn))) .placeholder
  match q.formula? q.hasJoins with
  | some f => .binary .and f past
  | none => past

end Query

open Reader (Reads Joins Amounts)

def Means (s : String) (f : Formula) : Prop := ∃ ts, Lexes s ts ∧ Reads ts f

/-- The text is as good as `f` between conjunctions and disjunctions. -/
def Clause (s : String) (f : Formula) : Prop := ∃ ts, Lexes s ts ∧ Joins ts f

/-- The text amounts to `f` from one parenthesis to the other. -/
def Phrase (s : String) (f : Formula) : Prop :=
  ∃ ts, Lexes s ts ∧ ∀ frs, Amounts (Reader.run ⟨.start, [], frs⟩ ts) f frs

variable {s t : String} {f g : Formula}

theorem Means.clause (h : Means s f) : Clause s f := by
  obtain ⟨ts, hl, hr⟩ := h
  exact ⟨ts, hl, hr.joins⟩

theorem lexes_paren {ts : List Token} (h : Lexes s ts) :
    Lexes ("(" ++ s ++ ")") ([.opening] ++ ts ++ [.closing]) := by
  have hopen : Stands "(" [.opening] := fun _ => rfl
  have hclose : Stands ")" [.closing] := fun _ => rfl
  exact ((hopen.append_lexes h).append_stands rfl hclose).lexes

theorem Phrase.paren (h : Phrase s f) : Means ("(" ++ s ++ ")") f := by
  obtain ⟨ts, hl, ha⟩ := h
  exact ⟨_, lexes_paren hl, Reader.reads_group ha⟩

theorem lexes_intercalate {separator : String} {us : List Token} (hs : Stands separator us)
    (hb : breaks separator = true) {ss : List String} {tss : List (List Token)}
    (h : List.Forall₂ Lexes ss tss) : Lexes (separator.intercalate ss) (us.intercalate tss) := by
  induction h with
  | nil => exact fun _ _ => rfl
  | cons ht hts ih =>
    cases hts with
    | nil =>
      rw [String.intercalate_singleton, List.intercalate_singleton]
      exact ht
    | cons hu hts =>
      rw [String.intercalate_cons_cons, List.intercalate_cons_cons]
      exact (ht.append_stands hb hs).append_lexes ih

theorem exists_tokens {α : Type} {R : List Token → Formula → Prop} {text : α → String}
    {formula : α → Formula} {xs : List α}
    (h : ∀ x ∈ xs, ∃ ts, Lexes (text x) ts ∧ R ts (formula x)) :
    ∃ tss, List.Forall₂ Lexes (xs.map text) tss ∧ List.Forall₂ R tss (xs.map formula) := by
  induction xs with
  | nil => exact ⟨[], .nil, .nil⟩
  | cons x xs ih =>
    obtain ⟨ts, hl, hr⟩ := h x List.mem_cons_self
    obtain ⟨tss, hls, hrs⟩ := ih fun y hy => h y (List.mem_cons_of_mem x hy)
    exact ⟨ts :: tss, .cons hl hls, .cons hr hrs⟩

theorem stands_binaryOp (op : BinaryOp) : Stands (" " ++ op.sql ++ " ") [.op op] := by
  cases op <;> exact fun _ => rfl

theorem breaks_binaryOp (op : BinaryOp) : breaks (" " ++ op.sql ++ " ") = true := by
  cases op <;> rfl

theorem bareParts_ne_nil (name : String) : bareParts name ≠ [] := by
  obtain ⟨w, ws, hs⟩ := segments_eq_cons name.toList
  simp [bareParts, hs]

theorem quotedParts_ne_nil (name : String) : quotedParts name ≠ [] := by
  obtain ⟨w, ws, hs⟩ := segments_eq_cons name.toList
  simp [quotedParts, hs]

theorem means_name {name : String} (h : IsName name) : Means name (.name (bareParts name)) :=
  ⟨_, lexes_name h, Reader.reads_name (bareParts_ne_nil name)⟩

theorem stands_mark : Stands "?" [.mark] := fun _ => rfl

theorem means_mark : Means "?" .placeholder := ⟨_, stands_mark.lexes, Reader.reads_mark⟩

theorem IsName.head {name : String} (h : IsName name) :
    ∃ c cs, name.toList = c :: cs ∧ isWordChar c = true := by
  obtain ⟨w, ws, hs⟩ := segments_eq_cons name.toList
  have hw : isIdentifier w = true := h w (by simp [hs])
  simp only [isIdentifier, Bool.and_eq_true, List.all_eq_true] at hw
  obtain ⟨⟨hchars, hdigit⟩, -⟩ := hw
  cases w with
  | nil => exact absurd hdigit (by simp)
  | cons c w =>
    refine ⟨c, ['.'].intercalate (w :: ws), ?_, hchars c List.mem_cons_self⟩
    rw [← List.intercalate_cons_cons_left, ← hs, intercalate_segments]

theorem stands_opening : Stands "(" [.opening] := fun _ => rfl

theorem stands_comma : Stands ", " [.comma] := fun _ => rfl

theorem stands_closing : Stands ")" [.closing] := fun _ => rfl

theorem Means.binary (hf : Means s f) (hg : Means t g) (op : BinaryOp) :
    Means ("(" ++ (s ++ (" " ++ op.sql ++ " ") ++ t) ++ ")") (.binary op f g) := by
  obtain ⟨ts, hlt, hrt⟩ := hf
  obtain ⟨us, hlu, hru⟩ := hg
  have hop := hlt.append_stands (breaks_binaryOp op) (stands_binaryOp op)
  exact ⟨_, lexes_paren (hop.append_lexes hlu), hrt.binary hru op⟩

theorem Means.not (hf : Means s f) : Means ("(" ++ ("NOT " ++ s) ++ ")") (.unary .not f) := by
  obtain ⟨ts, hl, hr⟩ := hf
  have hnot : Stands "NOT " [.keyword .not] := fun _ => rfl
  exact ⟨_, lexes_paren (hnot.append_lexes hl), hr.not⟩

theorem lexes_minus {ts : List Token} (h : Lexes s ts) (hs : s.toList.head? ≠ some '-') :
    Stands ("(-" ++ s ++ ")") ([.opening] ++ (.op .sub :: ts) ++ [.closing]) := by
  have hclose : Stands ")" [.closing] := fun _ => rfl
  have hrest := h.append_stands (t := ")") rfl hclose
  intro rest
  have hnext : lex (.symbol '-') ((s ++ ")").toList ++ rest) =
      .op .sub :: tokens ((s ++ ")").toList ++ rest) := by
    obtain ⟨c, cs, hc⟩ : ∃ c cs, (s ++ ")").toList ++ rest = c :: cs := by
      cases hl : s.toList <;> simp [hl]
    have hcs : c ≠ '-' := by
      rintro rfl
      cases hl : s.toList <;> simp_all
    rw [hc, lex_of_restart]
    · rfl
    · simp [Pending.next, Pending.pair?, hcs]
  have hopen : tokens (("(-" ++ s ++ ")").toList ++ rest) =
      .opening :: lex (.symbol '-') ((s ++ ")").toList ++ rest) := by
    rw [String.append_assoc, String.toList_append, List.append_assoc]
    rfl
  rw [hopen, hnext, hrest]
  simp

theorem Means.minus (hf : Means s f) (hs : s.toList.head? ≠ some '-') :
    Means ("(-" ++ s ++ ")") (.unary .minus f) := by
  obtain ⟨ts, hl, hr⟩ := hf
  exact ⟨_, (lexes_minus hl hs).lexes, hr.minus⟩

theorem Means.isNull (hf : Means s f) : Means ("(" ++ s ++ " IS NULL)") (.unary .isNull f) := by
  obtain ⟨ts, hl, hr⟩ := hf
  have hnull : Stands " IS NULL)" [.keyword .is, .keyword .null, .closing] := fun _ => rfl
  exact ⟨_, ((stands_opening.append_lexes hl).append_stands rfl hnull).lexes, hr.isNull⟩

theorem Means.isNotNull (hf : Means s f) :
    Means ("(" ++ s ++ " IS NOT NULL)") (.unary .isNotNull f) := by
  obtain ⟨ts, hl, hr⟩ := hf
  have hnull : Stands " IS NOT NULL)"
      [.keyword .is, .keyword .not, .keyword .null, .closing] := fun _ => rfl
  exact ⟨_, ((stands_opening.append_lexes hl).append_stands rfl hnull).lexes, hr.isNotNull⟩

theorem means_call {name : String} (hn : IsName name) {α : Type} {text : α → String}
    {formula : α → Formula} {xs : List α} (h : ∀ x ∈ xs, Means (text x) (formula x)) :
    Means (name ++ "(" ++ ", ".intercalate (xs.map text) ++ ")")
      (.call (bareParts name) (xs.map formula)) := by
  obtain ⟨tss, hls, hrs⟩ := exists_tokens h
  have hopen := (lexes_name hn).append_stands (t := "(") rfl stands_opening
  have hitems := hopen.append_lexes (lexes_intercalate stands_comma rfl hls)
  exact ⟨_, (hitems.append_stands rfl stands_closing).lexes,
    Reader.reads_call (bareParts_ne_nil name) hrs⟩

theorem Means.member (hg : Means s g) (negated : Bool) {α : Type} {text : α → String}
    {formula : α → Formula} {x : α} {xs : List α}
    (h : ∀ y ∈ x :: xs, Means (text y) (formula y)) :
    Means ("(" ++ s ++ (if negated then " NOT IN (" else " IN (") ++
        ", ".intercalate ((x :: xs).map text) ++ "))")
      (.member negated g ((x :: xs).map formula)) := by
  obtain ⟨us, hlu, hru⟩ := hg
  obtain ⟨tss, hls, hrs⟩ := exists_tokens h
  have hin : Stands (if negated then " NOT IN (" else " IN (")
      (Reader.inTokens negated ++ [.opening]) := by
    cases negated <;> exact fun _ => rfl
  have hbreaks : breaks (if negated then " NOT IN (" else " IN (") = true := by
    cases negated <;> rfl
  have hclose : Stands "))" [.closing, .closing] := fun _ => rfl
  have hopen := (stands_opening.append_lexes hlu).append_stands hbreaks hin
  have hitems := hopen.append_lexes (lexes_intercalate stands_comma rfl hls)
  cases hrs with
  | cons hr hrs =>
    exact ⟨_, (hitems.append_stands rfl hclose).lexes, hru.member negated hr hrs⟩

theorem means_constant {d : List Char} (h : Stands s [.opening, .numeral ['1'], .op .eq, .numeral d,
    .closing]) : Means s (.binary .eq (.numeral ['1']) (.numeral d)) :=
  ⟨_, h.lexes, (Reader.reads_numeral ['1']).binary (Reader.reads_numeral d) .eq⟩

/-- No tree begins with a minus sign, so the one before it does not begin a comment. -/
theorem Expression.head_text {e : Expression} (h : ∀ f ∈ e.functions, IsName f) :
    e.fragment.text.toList.head? ≠ some '-' := by
  cases e with
  | column name =>
    obtain ⟨w, ws, hs⟩ := segments_eq_cons name.toList
    simp [fragment, quotedName, quoted, hs]
  | literal v => simp [fragment]
  | binary op l r => simp [fragment]
  | unary op e => cases op <;> simp [fragment]
  | call name args =>
    obtain ⟨c, cs, hc, hw⟩ := IsName.head (h name List.mem_cons_self)
    have hsign : c ≠ '-' := by
      rintro rfl
      exact absurd hw (by decide)
    simpa [fragment, hc] using hsign
  | member negated e items =>
    cases items with
    | nil => cases negated <;> simp [fragment]
    | cons item items => cases negated <;> simp [fragment]

theorem Expression.means_fragment {e : Expression} (h : ∀ f ∈ e.functions, IsName f) :
    Means e.fragment.text e.formula := by
  induction e with
  | column name =>
    refine ⟨_, ?_, Reader.reads_name (quotedParts_ne_nil name)⟩
    simpa [fragment] using lexes_quotedName name
  | literal v => simpa [fragment, formula] using means_mark
  | binary op l r ihl ihr =>
    have hl := ihl fun f hf => h f (List.mem_append_left _ hf)
    have hr := ihr fun f hf => h f (List.mem_append_right _ hf)
    simpa [fragment, formula, String.append_assoc] using hl.binary hr op
  | unary op e ih =>
    have he := ih h
    cases op with
    | not => simpa [fragment, formula, ← String.append_assoc] using he.not
    | minus => simpa [fragment, formula, String.append_assoc] using he.minus (head_text h)
    | isNull => simpa [fragment, formula, String.append_assoc] using he.isNull
    | isNotNull => simpa [fragment, formula, String.append_assoc] using he.isNotNull
  | call name args ih =>
    simp only [functions, functionsAll_eq_flatMap, List.mem_cons, List.mem_flatMap] at h
    have hcall := means_call (h name (.inl rfl)) fun a ha =>
      ih a ha fun f hf => h f (.inr ⟨a, ha, hf⟩)
    simpa [fragment, fragments_eq_map, Fragment.text_joined, formula, formulas_eq_map,
      Function.comp_def, String.append_assoc] using hcall
  | member negated e items ih ihs =>
    simp only [functions, functionsAll_eq_flatMap, List.mem_append, List.mem_flatMap] at h
    cases items with
    | nil =>
      have htrue : Means "(1 = 1)" (.binary .eq (.numeral ['1']) (.numeral ['1'])) :=
        means_constant fun _ => rfl
      have hfalse : Means "(1 = 0)" (.binary .eq (.numeral ['1']) (.numeral ['0'])) :=
        means_constant fun _ => rfl
      cases negated with
      | true => simpa [fragment, formula] using htrue
      | false => simpa [fragment, formula] using hfalse
    | cons item items =>
      have hmember := (ih fun f hf => h f (.inl hf)).member negated fun a ha =>
        ihs a ha fun f hf => h f (.inr ⟨a, ha, hf⟩)
      rw [formula, formulas_eq_map]
      cases negated <;>
        simpa only [fragment, fragments_eq_map, Fragment.text_append, Fragment.text_joined,
          Fragment.text_sql, Fragment.text_nil, List.map_map, Function.comp_def,
          String.append_assoc, String.append_empty, if_true, Bool.false_eq_true, if_false]
          using hmember

theorem RangeOp.sql_binary (op : RangeOp) : op.binary.sql = op.sql := by
  cases op <;> rfl

theorem RangeOp.level_binary (op : RangeOp) : 4 ≤ op.binary.level := by
  cases op <;> decide

theorem Means.clause_compare (hf : Means s f) (hg : Means t g) {op : BinaryOp}
    (ho : 4 ≤ op.level) : Clause (s ++ (" " ++ op.sql ++ " ") ++ t) (.binary op f g) := by
  obtain ⟨ts, hlt, hrt⟩ := hf
  obtain ⟨us, hlu, hru⟩ := hg
  have hop := hlt.append_stands (breaks_binaryOp op) (stands_binaryOp op)
  exact ⟨_, hop.append_lexes hlu, hrt.joins_compare hru ho⟩

theorem Means.clause_isNull (hf : Means s f) : Clause (s ++ " IS NULL") (.unary .isNull f) := by
  obtain ⟨ts, hl, hr⟩ := hf
  have hnull : Lexes " IS NULL" [.keyword .is, .keyword .null] := by
    intro rest hrest
    have his : tokens (" IS NULL".toList ++ rest) =
      .keyword .is :: lex (.word "NULL".toList) ([] ++ rest) := rfl
    rw [his, lex_word (by simp) hrest]
    rfl
  have hspace : Apart " IS NULL".toList := by simp [Apart, isWordChar]
  exact ⟨_, hl.append hspace hnull, hr.joins_isNull⟩

theorem Means.clause_member (hg : Means s g) {α : Type} {text : α → String}
    {formula : α → Formula} {x : α} {xs : List α}
    (h : ∀ y ∈ x :: xs, Means (text y) (formula y)) :
    Clause (s ++ " IN (" ++ ", ".intercalate ((x :: xs).map text) ++ ")")
      (.member false g ((x :: xs).map formula)) := by
  obtain ⟨us, hlu, hru⟩ := hg
  obtain ⟨tss, hls, hrs⟩ := exists_tokens h
  have hin : Stands " IN (" (Reader.inTokens false ++ [.opening]) := fun _ => rfl
  have hitems := (hlu.append_stands rfl hin).append_lexes (lexes_intercalate stands_comma rfl hls)
  cases hrs with
  | cons hr hrs =>
    exact ⟨_, (hitems.append_stands rfl stands_closing).lexes, hru.joins_member hr hrs⟩

theorem clause_never : Clause "1 = 0" (.binary .eq (.numeral ['1']) (.numeral ['0'])) := by
  have hlexes : Lexes "1 = 0" ([.numeral ['1']] ++ [.op .eq] ++ [.numeral ['0']]) := by
    intro rest hrest
    have hone : tokens ("1 = 0".toList ++ rest) =
      .numeral ['1'] :: .op .eq :: lex (.word ['0']) ([] ++ rest) := rfl
    rw [hone, lex_word (by simp) hrest]
    rfl
  exact ⟨_, hlexes, (Reader.reads_numeral ['1']).joins_compare (Reader.reads_numeral ['0'])
    (by decide)⟩

theorem Condition.clause_fragment {field : String} (h : IsName field) (t : Test) :
    Clause (fragment field t).text (t.formula field) := by
  have hname := means_name h
  cases t with
  | equals v =>
    have hnull := hname.clause_isNull
    have hequal : Clause (field ++ (" " ++ BinaryOp.eq.sql ++ " ") ++ "?") _ :=
      hname.clause_compare means_mark (by decide)
    cases v with
    | null => simpa [fragment, Test.formula] using hnull
    | _ => simpa [fragment, Test.formula, BinaryOp.sql, String.append_assoc] using hequal
  | range op v =>
    have hrange := hname.clause_compare means_mark op.level_binary
    simpa [fragment, Test.formula, op.sql_binary, String.append_assoc] using hrange
  | among vs =>
    cases vs with
    | nil => simpa [fragment, Test.formula] using clause_never
    | cons v vs =>
      have hmember : Clause
          (field ++ " IN (" ++ ", ".intercalate ((v :: vs).map fun _ => "?") ++ ")")
            (.member false _ ((v :: vs).map fun _ => .placeholder)) :=
        hname.clause_member fun _ _ => means_mark
      simpa [fragment, Test.formula, Fragment.text_joined, Function.comp_def,
        String.append_assoc] using hmember

end LiveQuery
