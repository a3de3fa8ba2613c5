import LiveQuery.Proofs.Predicate

/-! The four statements say the same of the rows they ask for. What is read begins after
the select list, which may name any column. -/

namespace LiveQuery

open Reader (Joins)

variable {s t : String} {f g : Formula}

theorem exists_clause_tokens {ss : List String} {fs : List Formula}
    (h : List.Forall₂ Clause ss fs) :
    ∃ tss, List.Forall₂ Lexes ss tss ∧ List.Forall₂ Joins tss fs := by
  induction h with
  | nil => exact ⟨[], .nil, .nil⟩
  | cons hc _ ih =>
    obtain ⟨ts, hl, hj⟩ := hc
    obtain ⟨tss, hls, hjs⟩ := ih
    exact ⟨ts :: tss, .cons hl hls, .cons hj hjs⟩

theorem phrase_joined (op : BinaryOp) (ho : op.level ≤ 2) (h : Clause s f) {ss : List String}
    {fs : List Formula} (hs : List.Forall₂ Clause ss fs) :
    Phrase ((" " ++ op.sql ++ " ").intercalate (s :: ss)) (fs.foldl (.binary op) f) := by
  obtain ⟨ts, hl, hj⟩ := h
  obtain ⟨tss, hls, hjs⟩ := exists_clause_tokens hs
  refine ⟨_, lexes_intercalate (stands_binaryOp op) (breaks_binaryOp op) (.cons hl hls), ?_⟩
  intro frs
  exact hj.amounts_joined ho hjs Reader.loose_nil (fun _ _ => rfl) frs

theorem phrase_and (h : Clause s f) {ss : List String} {fs : List Formula}
    (hs : List.Forall₂ Clause ss fs) :
    Phrase (" AND ".intercalate (s :: ss)) (fs.foldl (.binary .and) f) := by
  have hand : (" AND " : String) = " " ++ BinaryOp.and.sql ++ " " := by decide
  rw [hand]
  exact phrase_joined .and (by decide) h hs

theorem phrase_or (h : Clause s f) {ss : List String} {fs : List Formula}
    (hs : List.Forall₂ Clause ss fs) :
    Phrase (" OR ".intercalate (s :: ss)) (fs.foldl (.binary .or) f) := by
  have hor : (" OR " : String) = " " ++ BinaryOp.or.sql ++ " " := by decide
  rw [hor]
  exact phrase_joined .or (by decide) h hs

namespace Query

variable {q : Query}

theorem Named.isName_fieldName (h : q.Named IsName) {field : String} (hf : IsName field)
    (qualify : Bool) : IsName (q.fieldName qualify field) := by
  cases qualify with
  | false => exact hf
  | true => exact h.table.qualified hf

theorem Named.clause_condition (h : q.Named IsName) {c : Condition} (hc : IsName c.field)
    (qualify : Bool) :
    Clause (q.condition qualify c).text (q.conditionFormula qualify c) :=
  Condition.clause_fragment (h.isName_fieldName hc qualify) c.test

theorem Named.clause_conditions (h : q.Named IsName) {cs : List Condition}
    (hc : ∀ c ∈ cs, IsName c.field) (qualify : Bool) :
    List.Forall₂ Clause ((cs.map (q.condition qualify)).map Fragment.text)
      (cs.map (q.conditionFormula qualify)) := by
  induction cs with
  | nil => exact .nil
  | cons c cs ih =>
    exact .cons (h.clause_condition (hc c List.mem_cons_self) qualify)
      (ih fun d hd => hc d (List.mem_cons_of_mem c hd))

theorem Named.means_group (h : q.Named IsName) {c : Condition} {cs : List Condition}
    (hc : ∀ d ∈ c :: cs, IsName d.field) (qualify : Bool) :
    Means ("(" ++
      " OR ".intercalate (((c :: cs).map (q.condition qualify)).map Fragment.text) ++ ")")
      ((cs.map (q.conditionFormula qualify)).foldl (.binary .or)
        (q.conditionFormula qualify c)) := by
  cases h.clause_conditions hc qualify with
  | cons hfirst hrest => exact (phrase_or hfirst hrest).paren

theorem orGroup?_cons (q : Query) (qualify : Bool) (c : Condition) (cs : List Condition) :
    q.orGroup? qualify (c :: cs) =
      some ("(" ++ Fragment.joined " OR " ((c :: cs).map (q.condition qualify)) ++ ")") := rfl

theorem Named.means_orGroup (h : q.Named IsName) {c : Condition} {cs : List Condition}
    (hc : ∀ d ∈ c :: cs, IsName d.field) (qualify : Bool) :
    ∃ clause, q.orGroup? qualify (c :: cs) = some clause ∧ Means clause.text
      ((cs.map (q.conditionFormula qualify)).foldl (.binary .or)
        (q.conditionFormula qualify c)) := by
  refine ⟨_, q.orGroup?_cons qualify c cs, ?_⟩
  simpa only [Fragment.text_append, Fragment.text_joined, Fragment.text_sql, Fragment.text_nil,
    String.append_empty] using h.means_group hc qualify

theorem Named.clause_groups (h : q.Named IsName) {gs : List OrGroup}
    (hg : ∀ g ∈ gs, ∀ c ∈ g, IsName c.field) (qualify : Bool) :
    List.Forall₂ Clause ((gs.filterMap (q.orGroup? qualify)).map Fragment.text)
      (gs.filterMap fun g => Formula.joined? .or (g.map (q.conditionFormula qualify))) := by
  induction gs with
  | nil => exact .nil
  | cons g gs ih =>
    have hrest := ih fun g' hg' => hg g' (List.mem_cons_of_mem g hg')
    cases g with
    | nil => exact hrest
    | cons c cs =>
      obtain ⟨clause, hgroup, hmeans⟩ := h.means_orGroup (hg _ List.mem_cons_self) qualify
      rw [List.filterMap_cons_some hgroup, List.map_cons]
      exact .cons hmeans.clause hrest

theorem Named.clause_clauses (h : q.Named IsName) (qualify : Bool) :
    List.Forall₂ Clause ((q.clauses qualify).map Fragment.text) (q.conjuncts qualify) := by
  rw [clauses, conjuncts, List.map_append]
  refine List.rel_append ?_ (h.clause_groups h.orGroups qualify)
  cases ht : q.tree with
  | none => exact h.clause_conditions h.conditions qualify
  | some e => exact .cons (Expression.means_fragment (h.functions e ht)).clause .nil

theorem Named.phrase_predicate (h : q.Named IsName) (qualify : Bool) :
    (q.predicate? qualify = none ∧ q.formula? qualify = none) ∨
      ∃ p f, q.predicate? qualify = some p ∧ q.formula? qualify = some f ∧ Phrase p.text f := by
  have hclauses := h.clause_clauses qualify
  unfold predicate? formula?
  cases hc : q.clauses qualify with
  | nil =>
    rw [hc] at hclauses
    cases hj : q.conjuncts qualify with
    | nil => exact .inl ⟨rfl, rfl⟩
    | cons f fs =>
      rw [hj] at hclauses
      cases hclauses
  | cons c cs =>
    rw [hc] at hclauses
    cases hj : q.conjuncts qualify with
    | nil =>
      rw [hj] at hclauses
      cases hclauses
    | cons f fs =>
      rw [hj, List.map_cons] at hclauses
      cases hclauses with
      | cons hfirst hrest =>
        refine .inr ⟨_, _, rfl, rfl, ?_⟩
        rw [Fragment.text_joined]
        exact phrase_and hfirst hrest

end Query

/-- Tokens that neither begin nor end a predicate. -/
def Silent (ts : List Token) : Prop := ∀ t ∈ ts, ∀ k, t ≠ .keyword k

theorem Silent.append {ts us : List Token} (ht : Silent ts) (hu : Silent us) :
    Silent (ts ++ us) := by
  intro t h
  exact (List.mem_append.mp h).elim (ht t) (hu t)

theorem silent_nameTokens (parts : List Part) : Silent (nameTokens parts) := by
  induction parts with
  | nil => simp [Silent, nameTokens]
  | cons p parts ih =>
    cases parts with
    | nil => simp [Silent, nameTokens]
    | cons r parts => simpa [Silent, nameTokens] using ih

def Passed (s : String) : Prop := ∃ ts, Lexes s ts ∧ Silent ts

theorem passed_name {name : String} (h : IsName name) : Passed name :=
  ⟨_, lexes_name h, silent_nameTokens _⟩

theorem passed_empty : Passed "" := ⟨[], fun _ _ => rfl, by simp [Silent]⟩

theorem Passed.append (hs : Passed s) (ha : Apart t.toList) (ht : Passed t) : Passed (s ++ t) := by
  obtain ⟨ts, hlt, hnt⟩ := hs
  obtain ⟨us, hlu, hnu⟩ := ht
  exact ⟨_, hlt.append ha hlu, hnt.append hnu⟩

theorem Passed.after {us : List Token} (ht : Stands t us) (hu : Silent us) (hs : Passed s) :
    Passed (t ++ s) := by
  obtain ⟨ts, hl, hn⟩ := hs
  exact ⟨_, ht.append_lexes hl, hu.append hn⟩

def Trailing (s : String) : Prop := Apart s.toList ∧ Reader.Ends (tokens s.toList)

theorem trailing_empty : Trailing "" := by
  refine ⟨by simp [Apart], ?_⟩
  simp [Reader.Ends, tokens, lex, Pending.flush]

theorem trailing_keyword {k : Keyword} {ts : List Token} (hs : Stands s (.keyword k :: ts))
    (hb : breaks s = true) (hk : k = .order ∨ k = .limit ∨ k = .offset) (t : String) :
    Trailing (s ++ t) := by
  rw [Trailing, String.toList_append]
  refine ⟨apart_of_breaks hb _, ?_⟩
  rw [hs]
  intro u hu
  cases hu
  simpa using hk

theorem trailing_order (t : String) : Trailing (" ORDER BY " ++ t) := by
  have horder : Stands " ORDER BY " [.keyword .order, .part ⟨false, ['B', 'Y']⟩] := fun _ => rfl
  exact trailing_keyword horder rfl (.inl rfl) t

theorem trailing_limit (t : String) : Trailing (" LIMIT " ++ t) := by
  have hlimit : Stands " LIMIT " [.keyword .limit] := fun _ => rfl
  exact trailing_keyword hlimit rfl (.inr (.inl rfl)) t

theorem trailing_offset (t : String) : Trailing (" OFFSET " ++ t) := by
  have hoffset : Stands " OFFSET " [.keyword .offset] := fun _ => rfl
  exact trailing_keyword hoffset rfl (.inr (.inr rfl)) t

theorem Query.trailing_page (q : Query) : Trailing (q.orderClause ++ q.pageClause) := by
  unfold orderClause pageClause
  split
  · rw [String.empty_append]
    cases q.limit with
    | some n =>
      simp only [String.append_assoc]
      exact trailing_limit _
    | none =>
      rw [String.empty_append]
      cases q.offset with
      | some n => exact trailing_offset _
      | none => exact trailing_empty
  · rw [String.append_assoc]
    exact trailing_order _

theorem reading_where {b p e : String} (hb : Passed b) (hp : Phrase p f) (he : Trailing e) :
    reading (b ++ " WHERE " ++ p ++ e) = .filtered f := by
  obtain ⟨ts, hl, hsilent⟩ := hb
  obtain ⟨us, hlp, hamounts⟩ := hp
  have hwhere : Stands " WHERE " [.keyword .where] := fun _ => rfl
  have htokens : tokens (b ++ " WHERE " ++ p ++ e).toList =
      ts ++ .keyword .where :: (us ++ tokens e.toList) := by
    have hhead := hl.append_stands rfl hwhere
    rw [String.toList_append, (hhead.append_lexes hlp) _ he.1]
    simp
  exact reading_filtered htokens hsilent hamounts he.2

theorem reading_plain {b e : String} (hb : Passed b) (he : Trailing e) :
    reading (b ++ e) = .unfiltered := by
  obtain ⟨ts, hl, hsilent⟩ := hb
  have htokens : tokens (b ++ e).toList = ts ++ tokens e.toList := by
    rw [String.toList_append, hl _ he.1]
  exact reading_unfiltered htokens hsilent he.2

def Reading.of : Option Formula → Reading
  | none => .unfiltered
  | some f => .filtered f

namespace Query

variable {q : Query}

theorem Named.reading_whereClause (h : q.Named IsName) (qualify : Bool) {b e : String}
    (hb : Passed b) (he : Trailing e) :
    reading (b ++ (q.whereClause qualify).text ++ e) = .of (q.formula? qualify) := by
  unfold whereClause
  rcases h.phrase_predicate qualify with ⟨hp, hf⟩ | ⟨p, f, hp, hf, hphrase⟩
  · rw [hp, hf]
    simpa [Reading.of] using reading_plain hb he
  · rw [hp, hf]
    have hread := reading_where hb hphrase he
    simpa [Reading.of, ← String.append_assoc] using hread

theorem Named.reading_pastClause (h : q.Named IsName) {idColumn : String} (hid : IsName idColumn)
    (watermark : Int64) {b e : String} (hb : Passed b) (he : Trailing e) :
    reading (b ++ (q.pastClause (qualified q.table idColumn) watermark).text ++ e) =
      .filtered (q.pastFormula idColumn) := by
  have hpast : Clause (qualified q.table idColumn ++ (" " ++ BinaryOp.gt.sql ++ " ") ++ "?")
      (.binary .gt (.name (bareParts (qualified q.table idColumn))) .placeholder) :=
    (means_name (h.table.qualified hid)).clause_compare means_mark (by decide)
  unfold pastClause pastFormula
  rcases h.phrase_predicate q.hasJoins with ⟨hp, hf⟩ | ⟨p, f, hp, hf, hphrase⟩
  · rw [hp, hf]
    have hread := reading_where hb (phrase_and hpast .nil) he
    simpa [BinaryOp.sql, String.append_assoc] using hread
  · rw [hp, hf]
    have hread := reading_where hb (phrase_and hphrase.paren.clause (.cons hpast .nil)) he
    have htext : Fragment.text (.sql " WHERE (" :: p ++
        [.sql (") AND " ++ qualified q.table idColumn ++ " > "), .bound (.integer watermark)]) =
        " WHERE " ++ " AND ".intercalate ["(" ++ p.text ++ ")",
          qualified q.table idColumn ++ (" " ++ BinaryOp.gt.sql ++ " ") ++ "?"] := by
      rw [← String.toList_inj]
      simp [BinaryOp.sql]
    dsimp only
    rw [htext, ← String.append_assoc]
    exact hread

theorem Named.passed_from (h : q.Named IsName) : Passed (" FROM " ++ q.table) := by
  have hfrom : Stands " FROM " [.part ⟨false, ['F', 'R', 'O', 'M']⟩] := fun _ => rfl
  exact (passed_name h.table).after hfrom (by simp [Silent])

theorem Named.passed_join (h : q.Named IsName) {j : Join} (hj : j ∈ q.joins) :
    Passed (" JOIN " ++ j.table ++ " ON " ++ q.table ++ "." ++ j.fromColumn ++ " = " ++
      j.table ++ "." ++ j.toColumn) := by
  obtain ⟨htable, hfrom, hto⟩ := h.joins j hj
  have hjoin : Stands " JOIN " [.part ⟨false, ['J', 'O', 'I', 'N']⟩] := fun _ => rfl
  have hon : Stands " ON " [.part ⟨false, ['O', 'N']⟩] := fun _ => rfl
  have hequal : Stands " = " [.op .eq] := fun _ => rfl
  have hright := (passed_name (htable.dot hto)).after hequal (by simp [Silent])
  have hleft := ((passed_name (h.table.dot hfrom)).append
    (by simpa using apart_of_breaks (t := " = ") rfl _) hright).after hon (by simp [Silent])
  have hwhole := ((passed_name htable).append
    (by simpa using apart_of_breaks (t := " ON ") rfl _) hleft).after hjoin (by simp [Silent])
  simpa [String.append_assoc] using hwhole

theorem Named.passed_joinClauses (h : q.Named IsName) :
    Passed q.joinClauses ∧ Apart q.joinClauses.toList := by
  unfold joinClauses
  suffices hjoins : ∀ js : List Join, (∀ j ∈ js, j ∈ q.joins) →
      let text := String.join (js.map fun j => " JOIN " ++ j.table ++ " ON " ++ q.table ++ "." ++
        j.fromColumn ++ " = " ++ j.table ++ "." ++ j.toColumn)
      Passed text ∧ Apart text.toList from hjoins q.joins fun _ hj => hj
  intro js hjs
  induction js with
  | nil => exact ⟨passed_empty, apart_nil⟩
  | cons j js ih =>
    obtain ⟨hrest, hapart⟩ := ih fun j' hj' => hjs j' (List.mem_cons_of_mem j hj')
    have hfirst := h.passed_join (hjs j List.mem_cons_self)
    simp only [List.map_cons, String.join_cons]
    refine ⟨hfirst.append hapart hrest, ?_⟩
    simp [Apart, isWordChar]

theorem Named.passed_source (h : q.Named IsName) :
    Passed (" FROM " ++ q.table ++ q.joinClauses) :=
  h.passed_from.append h.passed_joinClauses.2 h.passed_joinClauses.1

/-- With a tree the flat conditions do not count. -/
theorem clauses_of_tree {e : Expression} (ht : q.tree = some e) (cs : List Condition)
    (qualify : Bool) : { q with conditions := cs }.clauses qualify = q.clauses qualify := by
  have hgroups : { q with conditions := cs }.orGroup? qualify = q.orGroup? qualify := rfl
  rw [clauses, clauses, hgroups]
  dsimp only
  rw [ht]

theorem predicate_of_tree {e : Expression} (ht : q.tree = some e) (cs : List Condition)
    (qualify : Bool) : { q with conditions := cs }.predicate? qualify = q.predicate? qualify := by
  rw [predicate?, clauses_of_tree ht cs qualify, predicate?]

theorem whereClause_of_tree {e : Expression} (ht : q.tree = some e) (cs : List Condition)
    (qualify : Bool) :
    { q with conditions := cs }.whereClause qualify = q.whereClause qualify := by
  rw [whereClause, predicate_of_tree ht cs qualify, whereClause]

theorem pastClause_of_tree {e : Expression} (ht : q.tree = some e) (cs : List Condition)
    (id : String) (watermark : Int64) :
    { q with conditions := cs }.pastClause id watermark = q.pastClause id watermark := by
  have hjoins : { q with conditions := cs }.hasJoins = q.hasJoins := rfl
  rw [pastClause, hjoins, predicate_of_tree ht cs q.hasJoins, pastClause]

end Query

/-- The text begins with `head`, and what follows says `r` of the rows. -/
def Says (text head : String) (r : Reading) : Prop := ∃ rest, text = head ++ rest ∧ reading rest = r

namespace Query

variable {q : Query}

theorem Named.says_select (h : q.Named IsName) :
    Says q.select.sql ("SELECT " ++ q.selectList) (.of (q.formula? q.hasJoins)) := by
  refine ⟨_, ?_, h.reading_whereClause q.hasJoins h.passed_source q.trailing_page⟩
  change q.selectFragment.text = _
  unfold selectFragment
  simp only [Fragment.text_append, Fragment.text_sql, Fragment.text_nil, String.append_assoc,
    String.append_empty]

theorem Named.says_count (h : q.Named IsName) :
    Says q.count.sql "SELECT COUNT(*) AS count" (.of (q.formula? false)) := by
  refine ⟨_, ?_, h.reading_whereClause false h.passed_from trailing_empty⟩
  change q.countFragment.text = _
  unfold countFragment
  have hhead : ("SELECT COUNT(*) AS count FROM " : String) =
      "SELECT COUNT(*) AS count" ++ " FROM " := by decide
  rw [hhead]
  simp only [Fragment.text_append, Fragment.text_sql, Fragment.text_nil, String.append_assoc,
    String.append_empty]

theorem Named.says_fingerprint (h : q.Named IsName) (idColumn : String) :
    Says (q.fingerprint idColumn).sql
      ("SELECT COUNT(*) AS row_count, MAX(" ++ q.fieldName q.hasJoins idColumn ++ ") AS max_id")
      (.of (q.formula? q.hasJoins)) := by
  refine ⟨_, ?_, h.reading_whereClause q.hasJoins h.passed_source trailing_empty⟩
  change (q.fingerprintFragment idColumn).text = _
  unfold fingerprintFragment
  have hhead : (") AS max_id FROM " : String) = ") AS max_id" ++ " FROM " := by decide
  rw [hhead]
  simp only [Fragment.text_append, Fragment.text_sql, Fragment.text_nil, String.append_assoc,
    String.append_empty]

theorem Named.says_incremental (h : q.Named IsName) {idColumn : String} (hid : IsName idColumn)
    (watermark : Int64) :
    Says (q.incremental idColumn watermark).sql
      ("SELECT " ++ q.selectList ++ ", " ++ qualified q.table idColumn ++ " AS " ++ watermarkColumn)
      (.filtered (q.pastFormula idColumn)) := by
  refine ⟨_, ?_, h.reading_pastClause hid watermark h.passed_source
    (trailing_order (qualified q.table idColumn ++ " ASC"))⟩
  change (q.incrementalFragment idColumn watermark).text = _
  unfold incrementalFragment
  simp only [Fragment.text_append, Fragment.text_sql, Fragment.text_nil, String.append_assoc,
    String.append_empty]

theorem formula_eq_none (q : Query) (qualify : Bool) :
    q.formula? qualify = none ↔ q.conjuncts qualify = [] := by
  unfold formula?
  cases q.conjuncts qualify <;> simp [Formula.joined?]

/-- Whatever else stands in the statements, the four of them select rows by the predicate of
the query: its tree or else all its flat conditions, and one disjunction for each group. -/
theorem statements_say_predicate {idColumn : String} (h : q.Named IsName)
    (hid : IsName idColumn) (watermark : Int64) :
    Says q.select.sql ("SELECT " ++ q.selectList) (.of (q.formula? q.hasJoins)) ∧
      Says q.count.sql "SELECT COUNT(*) AS count" (.of (q.formula? false)) ∧
      Says (q.fingerprint idColumn).sql
        ("SELECT COUNT(*) AS row_count, MAX(" ++ q.fieldName q.hasJoins idColumn ++ ") AS max_id")
        (.of (q.formula? q.hasJoins)) ∧
      Says (q.incremental idColumn watermark).sql
        ("SELECT " ++ q.selectList ++ ", " ++ qualified q.table idColumn ++ " AS " ++
          watermarkColumn) (.filtered (q.pastFormula idColumn)) ∧
      (∀ qualify, q.formula? qualify = none ↔ q.conjuncts qualify = []) ∧
      ∀ e, q.tree = some e → ∀ cs, { q with conditions := cs }.select = q.select ∧
        { q with conditions := cs }.count = q.count ∧
        { q with conditions := cs }.fingerprint idColumn = q.fingerprint idColumn ∧
        { q with conditions := cs }.incremental idColumn watermark =
          q.incremental idColumn watermark := by
  refine ⟨h.says_select, h.says_count, h.says_fingerprint idColumn,
    h.says_incremental hid watermark, q.formula_eq_none, ?_⟩
  intro e ht cs
  have hwhere := whereClause_of_tree ht cs
  refine ⟨?_, ?_, ?_, ?_⟩
  · rw [select, selectFragment, hwhere]
    rfl
  · rw [count, countFragment, hwhere]
    rfl
  · rw [fingerprint, fingerprintFragment, hwhere]
    rfl
  · rw [incremental, incrementalFragment, pastClause_of_tree ht cs]
    rfl

theorem statements_say_predicate_mixed :
    ∃ q : Query, (q.Named IsName ∧ IsName "id") ∧ Says q.select.sql "SELECT t.*"
      (.filtered (.binary .and (.binary .gt (.name (bareParts "a")) .placeholder)
        (.binary .or (.binary .eq (.name (bareParts "b")) .placeholder)
          (.unary .isNull (.name (bareParts "c")))))) := by
  let q : Query :=
    { table := "t"
      conditions := [⟨"a", .range .gt (.integer 1)⟩]
      orGroups := [[⟨"b", .equals (.integer 2)⟩, ⟨"c", .equals .null⟩], []] }
  have h : q.Named IsName :=
    { table := by decide
      conditions := by decide
      orGroups := by decide
      functions := by simp [q]
      joins := by simp [q]
      ordering := by simp [q] }
  have hid : IsName "id" := by decide
  have hhead : "SELECT " ++ q.selectList = "SELECT t.*" := by decide
  have hformula : q.formula? q.hasJoins = some (.binary .and
      (.binary .gt (.name (bareParts "a")) .placeholder)
      (.binary .or (.binary .eq (.name (bareParts "b")) .placeholder)
        (.unary .isNull (.name (bareParts "c"))))) := rfl
  have hsays := (statements_say_predicate h hid 0).1
  rw [hhead, hformula] at hsays
  exact ⟨q, ⟨h, hid⟩, hsays⟩

end Query

end LiveQuery
