import LiveQuery.Proofs.RowIdentity
import LiveQuery.Proofs.WhereClause
import Mathlib.Data.List.Nodup
import Mathlib.Data.List.Induction

/-! The names under which a result shows the columns of joined tables. Such a name is the table's
and the column's with a low line between them, and low lines may stand in either. So two columns
come out under one name exactly if part of the one column's name goes over to the other's table. -/

namespace LiveQuery

/-- A column taken from a joined table. -/
structure Projection where
  table : String
  column : String
deriving DecidableEq

namespace Projection

def resultName (p : Projection) : String := p.table ++ "_" ++ p.column

/-- The beginning of the column's name stands at the end of the other table's. -/
def Clashes (p p' : Projection) : Prop :=
  ∃ m, p'.table = p.table ++ "_" ++ m ∧ p.column = m ++ "_" ++ p'.column

variable {p p' : Projection}

theorem Clashes.resultName_eq (h : p.Clashes p') : p.resultName = p'.resultName := by
  obtain ⟨m, htable, hcolumn⟩ := h
  simp only [resultName, htable, hcolumn, String.append_assoc]

theorem eq_or_clashes {cs : List Char} (htable : p'.table.toList = p.table.toList ++ cs)
    (hcolumn : '_' :: p.column.toList = cs ++ '_' :: p'.column.toList) :
    p = p' ∨ p.Clashes p' := by
  cases cs with
  | nil =>
    obtain ⟨t, c⟩ := p
    obtain ⟨t', c'⟩ := p'
    have ht : t' = t := String.toList_inj.mp (by simpa using htable)
    have hc : c = c' := String.toList_inj.mp (by simpa using hcolumn)
    exact .inl (by rw [ht, hc])
  | cons d cs =>
    obtain ⟨rfl, hc⟩ : '_' = d ∧ p.column.toList = cs ++ '_' :: p'.column.toList := by
      simpa using hcolumn
    refine .inr ⟨String.ofList cs, ?_, ?_⟩ <;> rw [← String.toList_inj] <;> simp [htable, hc]

theorem resultName_eq_iff :
    p.resultName = p'.resultName ↔ p = p' ∨ p.Clashes p' ∨ p'.Clashes p := by
  constructor
  · intro h
    have hlist : p.table.toList ++ '_' :: p.column.toList =
        p'.table.toList ++ '_' :: p'.column.toList := by
      simpa [resultName] using congrArg String.toList h
    rcases List.append_eq_append_iff.mp hlist with ⟨cs, ht, hc⟩ | ⟨cs, ht, hc⟩
    · exact (eq_or_clashes ht hc).imp_right .inl
    · exact (eq_or_clashes ht hc).imp Eq.symm .inr
  · rintro (rfl | h | h)
    · rfl
    · exact h.resultName_eq
    · exact h.resultName_eq.symm

theorem not_clashes_self (p : Projection) : ¬p.Clashes p := by
  rintro ⟨m, htable, -⟩
  have hlength := congrArg (fun s => s.toList.length) htable
  simp at hlength

end Projection

/-- A column in a select list that is shown under a name of its own: the tokens before its `AS`, and
the name. -/
abbrev Renaming := List Token × List Char

def renaming? (item : List Token) : Option Renaming :=
  match item.reverse with
  | .part ⟨false, name⟩ :: .part ⟨false, ['A', 'S']⟩ :: source => some (source.reverse, name)
  | _ => none

def renamings (list : List Token) : List Renaming := (list.splitOn .comma).filterMap renaming?

/-- Items of a select list, and the renamings among them. -/
def Shows (ss : List String) (rs : List Renaming) : Prop :=
  ∃ tss, List.Forall₂ Lexes ss tss ∧ (∀ ts ∈ tss, Token.comma ∉ ts) ∧ tss.filterMap renaming? = rs

variable {ss ss' : List String} {rs rs' : List Renaming}

theorem shows_nil : Shows [] [] := ⟨[], .nil, by simp, rfl⟩

theorem Shows.append (h : Shows ss rs) (h' : Shows ss' rs') : Shows (ss ++ ss') (rs ++ rs') := by
  obtain ⟨tss, hl, hc, rfl⟩ := h
  obtain ⟨tss', hl', hc', rfl⟩ := h'
  refine ⟨tss ++ tss', List.rel_append hl hl', ?_, List.filterMap_append⟩
  simpa only [List.forall_mem_append] using And.intro hc hc'

theorem shows_flatMap {α : Type} {f : α → List String} {g : α → List Renaming} {xs : List α}
    (h : ∀ x ∈ xs, Shows (f x) (g x)) : Shows (xs.flatMap f) (xs.flatMap g) := by
  induction xs with
  | nil => exact shows_nil
  | cons x xs ih =>
    rw [List.flatMap_cons, List.flatMap_cons]
    exact (h x List.mem_cons_self).append (ih fun y hy => h y (List.mem_cons_of_mem x hy))

theorem shows_map {α : Type} {f : α → String} {g : α → List Renaming} {xs : List α}
    (h : ∀ x ∈ xs, Shows [f x] (g x)) : Shows (xs.map f) (xs.flatMap g) := by
  rw [List.map_eq_flatMap]
  exact shows_flatMap h

theorem Shows.renamings_eq (h : Shows ss rs) (hne : ss ≠ []) :
    renamings (tokens (", ".intercalate ss).toList) = rs := by
  obtain ⟨tss, hl, hc, rfl⟩ := h
  have htokens := lexes_intercalate stands_comma rfl hl [] apart_nil
  have hnil : tokens [] = [] := rfl
  rw [List.append_nil, hnil, List.append_nil] at htokens
  have htss : tss ≠ [] := by
    rintro rfl
    exact hne (List.forall₂_nil_right_iff.mp hl)
  rw [htokens, renamings, List.splitOn_intercalate _ hc htss]

theorem nameTokens_cons_cons (p r : Part) (parts : List Part) :
    nameTokens (p :: r :: parts) = .part p :: .dot :: nameTokens (r :: parts) := by
  simp [nameTokens, List.intercalate_cons_cons]

theorem nameTokens_concat {parts : List Part} (h : parts ≠ []) (p : Part) :
    nameTokens (parts ++ [p]) = nameTokens parts ++ [.dot, .part p] := by
  induction parts with
  | nil => exact absurd rfl h
  | cons r parts ih =>
    cases parts with
    | nil => rfl
    | cons r' parts =>
      have hrest := ih (List.cons_ne_nil r' parts)
      rw [List.cons_append, List.cons_append, nameTokens_cons_cons, nameTokens_cons_cons,
        ← List.cons_append, hrest]
      rfl

/-- Before the last part of a name stands a dot, if anything. -/
theorem renaming?_nameTokens (parts : List Part) : renaming? (nameTokens parts) = none := by
  induction parts using List.reverseRecOn with
  | nil => rfl
  | append_singleton parts p _ =>
    by_cases hparts : parts = []
    · simp [hparts, nameTokens, renaming?]
    · rw [nameTokens_concat hparts]
      simp [renaming?]

theorem comma_not_mem_nameTokens (parts : List Part) : Token.comma ∉ nameTokens parts := by
  induction parts with
  | nil => simp [nameTokens]
  | cons p parts ih =>
    cases parts with
    | nil => simp [nameTokens]
    | cons r parts => simpa [nameTokens_cons_cons] using ih

variable {name : String}

theorem segments_of_not_mem {w : List Char} (h : '.' ∉ w) : segments w = [w] := by
  induction w with
  | nil => rfl
  | cons c w ih =>
    obtain ⟨hc, hw⟩ := not_or.mp (mt List.mem_cons.mpr h)
    rw [segments, if_neg (Ne.symm hc), ih hw, List.modifyHead_cons]

def IsIdentifier (s : String) : Prop := isIdentifier s.toList = true

instance (s : String) : Decidable (IsIdentifier s) := by
  unfold IsIdentifier
  infer_instance

theorem IsIdentifier.isName (h : IsIdentifier name) : IsName name := by
  have hall : ∀ c ∈ name.toList, isWordChar c = true := by
    simp only [IsIdentifier, isIdentifier, Bool.and_eq_true, List.all_eq_true] at h
    exact h.1.1
  have hdot : '.' ∉ name.toList := fun hmem => absurd (hall _ hmem) (by decide)
  intro w hw
  rw [segments_of_not_mem hdot, List.mem_singleton] at hw
  exact hw ▸ h

/-- No reserved word has a low line, so two names with one between them are a name. -/
theorem IsIdentifier.joined {t c : String} (ht : IsIdentifier t) (hc : IsIdentifier c) :
    IsIdentifier (t ++ "_" ++ c) := by
  have hreserved : ∀ p ∈ reserved, '_' ∉ p.1.toList := by decide
  have hlist : (t ++ "_" ++ c).toList = t.toList ++ '_' :: c.toList := by simp
  simp only [IsIdentifier, isIdentifier, Bool.and_eq_true, List.all_eq_true,
    Option.isNone_iff_eq_none] at ht hc ⊢
  rw [hlist]
  refine ⟨⟨?_, ?_⟩, ?_⟩
  · intro d hd
    rcases List.mem_append.mp hd with hd | hd
    · exact ht.1.1 d hd
    · rcases List.mem_cons.mp hd with rfl | hd
      · decide
      · exact hc.1.1 d hd
  · have hhead := ht.1.2
    cases hcs : t.toList with
    | nil => simp [hcs] at hhead
    | cons d cs => simpa [hcs] using hhead
  · refine List.lookup_eq_none_iff.mpr fun p hp => ?_
    have hne : String.ofList ((t.toList ++ '_' :: c.toList).map Char.toUpper) ≠ p.1 := by
      intro he
      refine hreserved p hp (he ▸ ?_)
      have hupper : Char.toUpper '_' = '_' := by decide
      simp [hupper]
    simpa using hne

theorem shows_name (h : IsName name) : Shows [name] [] := by
  refine ⟨[_], .cons (lexes_name h) .nil, ?_, ?_⟩
  · simpa using comma_not_mem_nameTokens (bareParts name)
  · simp [renaming?_nameTokens]

theorem shows_star (h : IsName name) : Shows [name ++ ".*"] [] := by
  have hstar : Stands ".*" [.dot, .op .mul] := fun _ => rfl
  refine ⟨[_], .cons ((lexes_name h).append_stands rfl hstar).lexes .nil, ?_, ?_⟩
  · simpa using comma_not_mem_nameTokens (bareParts name)
  · simp [renaming?]

theorem shows_renamed {source : String} (hs : IsName source) (hn : IsIdentifier name) :
    Shows [source ++ " AS " ++ name] [(nameTokens (bareParts source), name.toList)] := by
  have has : Stands " AS " [.part ⟨false, ['A', 'S']⟩] := fun _ => rfl
  have hname : Lexes name [.part ⟨false, name.toList⟩] := fun rest hr => tokens_identifier hn hr
  refine ⟨[_], .cons (((lexes_name hs).append_stands rfl has).append_lexes hname) .nil, ?_, ?_⟩
  · simpa using comma_not_mem_nameTokens (bareParts source)
  · simp [renaming?]

theorem intercalate_concat {separator : String} (h : ss ≠ []) (t : String) :
    separator.intercalate (ss ++ [t]) = separator.intercalate ss ++ separator ++ t := by
  induction ss with
  | nil => exact absurd rfl h
  | cons s ss ih =>
    cases ss with
    | nil => simp [String.intercalate_cons_cons]
    | cons s' ss =>
      have hrest := ih (List.cons_ne_nil s' ss)
      rw [List.cons_append, List.cons_append, String.intercalate_cons_cons, ← List.cons_append,
        hrest, String.intercalate_cons_cons]
      simp only [String.append_assoc]

theorem Row.columns_ofColumns {columns : List (String × Value)}
    (h : (columns.map Prod.fst).Nodup) : (ofColumns columns).columns = columns := by
  induction columns using List.reverseRecOn with
  | nil => rfl
  | append_singleton columns p ih =>
    rw [List.map_append, List.nodup_append] at h
    obtain ⟨hnodup, -, hdisjoint⟩ := h
    have hnew : p.1 ∉ columns.map Prod.fst := fun hmem => hdisjoint _ hmem _ (by simp) rfl
    have hset : (ofColumns (columns ++ [p])).columns =
        Keyed.put p.1 p.2 (ofColumns columns).columns := by
      rw [ofColumns, List.foldl_append]
      rfl
    rw [hset, ih hnodup, Keyed.put_of_not_mem hnew]

namespace Projection

def source (p : Projection) : String := p.table ++ "." ++ p.column

def shownAs (p : Projection) : Renaming := (nameTokens (bareParts p.source), p.resultName.toList)

end Projection

namespace Query

variable {q : Query}

/-- The columns of joined tables that are shown under names of their own. -/
def projections (q : Query) : List Projection :=
  q.joins.flatMap fun j => j.columns.map (Projection.mk j.table)

/-- The names in the select list. -/
structure Lists (q : Query) : Prop where
  table : IsName q.table
  columns : ∀ c ∈ q.columns, IsName c
  joined : ∀ j ∈ q.joins, IsIdentifier j.table ∧ ∀ c ∈ j.columns, IsIdentifier c

def items (q : Query) : List String :=
  (if q.columns.isEmpty then [q.table ++ ".*"] else q.columns.map (qualified q.table)) ++
    q.joins.flatMap fun j =>
      if j.columns.isEmpty then [j.table ++ ".*"]
      else j.columns.map fun c => j.table ++ "." ++ c ++ " AS " ++ j.table ++ "_" ++ c

theorem items_ne_nil (q : Query) : q.items ≠ [] := by
  cases hc : q.columns <;> simp [items, hc]

theorem Lists.shows_join (h : q.Lists) {j : Join} (hj : j ∈ q.joins) :
    Shows (if j.columns.isEmpty then [j.table ++ ".*"]
        else j.columns.map fun c => j.table ++ "." ++ c ++ " AS " ++ j.table ++ "_" ++ c)
      ((j.columns.map (Projection.mk j.table)).map Projection.shownAs) := by
  obtain ⟨htable, hcolumns⟩ := h.joined j hj
  by_cases hempty : j.columns = []
  · simpa [hempty] using shows_star htable.isName
  · have hitem (c : String) (hc : c ∈ j.columns) :
        Shows [j.table ++ "." ++ c ++ " AS " ++ j.table ++ "_" ++ c]
          [(Projection.mk j.table c).shownAs] := by
      have hrenamed := shows_renamed (htable.isName.dot (hcolumns c hc).isName)
        (htable.joined (hcolumns c hc))
      simpa [Projection.shownAs, Projection.source, Projection.resultName, String.append_assoc]
        using hrenamed
    have hmap := shows_map hitem
    simpa [hempty, ← List.map_eq_flatMap, Function.comp_def] using hmap

theorem Lists.shows_items (h : q.Lists) : Shows q.items (q.projections.map Projection.shownAs) := by
  have hown : Shows (if q.columns.isEmpty then [q.table ++ ".*"]
      else q.columns.map (qualified q.table)) [] := by
    by_cases hempty : q.columns = []
    · simpa [hempty] using shows_star h.table
    · have hmap := shows_map (g := fun _ => []) fun c hc =>
        shows_name (h.table.qualified (h.columns c hc))
      rw [List.flatMap_eq_nil_iff.mpr fun _ _ => rfl] at hmap
      simpa [hempty] using hmap
  have hjoined := shows_flatMap fun j hj => h.shows_join (j := j) hj
  simpa [items, projections, List.map_flatMap] using hown.append hjoined

theorem Lists.renamings_select (h : q.Lists) :
    renamings (tokens q.selectList.toList) = q.projections.map Projection.shownAs :=
  h.shows_items.renamings_eq q.items_ne_nil

theorem Lists.renamings_incremental (h : q.Lists) {id : String} (hid : IsName id) :
    renamings (tokens (q.selectList ++ ", " ++ id ++ " AS " ++ watermarkColumn).toList) =
      q.projections.map Projection.shownAs ++
        [(nameTokens (bareParts id), watermarkColumn.toList)] := by
  have hwatermark : IsIdentifier watermarkColumn := by decide
  have hitems := h.shows_items.append (shows_renamed hid hwatermark)
  have hlist : q.selectList ++ ", " ++ id ++ " AS " ++ watermarkColumn =
      ", ".intercalate (q.items ++ [id ++ " AS " ++ watermarkColumn]) := by
    rw [intercalate_concat q.items_ne_nil]
    simp only [String.append_assoc]
    rfl
  rw [hlist, hitems.renamings_eq (by simp)]

theorem exists_select_sql (q : Query) :
    ∃ rest, q.select.sql = "SELECT " ++ q.selectList ++ " FROM " ++ rest := by
  refine ⟨q.table ++ q.joinClauses ++ (q.whereClause q.hasJoins).text ++ q.orderClause ++
    q.pageClause, ?_⟩
  change q.selectFragment.text = _
  unfold selectFragment
  simp only [Fragment.text_append, Fragment.text_sql, Fragment.text_nil, String.append_assoc,
    String.append_empty]

theorem exists_incremental_sql (q : Query) (idColumn : String) (watermark : Int64) :
    ∃ rest, (q.incremental idColumn watermark).sql =
      "SELECT " ++ (q.selectList ++ ", " ++ qualified q.table idColumn ++ " AS " ++
        watermarkColumn) ++ " FROM " ++ rest := by
  refine ⟨q.table ++ q.joinClauses ++
    (q.pastClause (qualified q.table idColumn) watermark).text ++ " ORDER BY " ++
    qualified q.table idColumn ++ " ASC", ?_⟩
  change (q.incrementalFragment idColumn watermark).text = _
  unfold incrementalFragment
  simp only [Fragment.text_append, Fragment.text_sql, Fragment.text_nil, String.append_assoc,
    String.append_empty]

theorem nodup_projections (htables : (q.joins.map Join.table).Nodup)
    (hcolumns : ∀ j ∈ q.joins, j.columns.Nodup) : q.projections.Nodup := by
  refine List.nodup_flatMap.mpr ⟨fun j hj => ?_, ?_⟩
  · exact (hcolumns j hj).map fun c c' h => (Projection.mk.inj h).2
  · refine (List.pairwise_map.mp htables).imp fun {j j'} hne => ?_
    intro p hp hp'
    obtain ⟨c, -, rfl⟩ := List.mem_map.mp hp
    obtain ⟨c', -, he⟩ := List.mem_map.mp hp'
    exact hne (Projection.mk.inj he).1.symm

/-- A row under the result names keeps every projected column just if no two of them clash. -/
theorem keeps_projections_iff (h : q.projections.Nodup) :
    (∀ value : Projection → Value,
        (Row.ofColumns (q.projections.map fun p => (p.resultName, value p))).columns =
          q.projections.map fun p => (p.resultName, value p)) ↔
      ∀ p ∈ q.projections, ∀ p' ∈ q.projections, ¬p.Clashes p' := by
  have hnames (value : Projection → Value) :
      (q.projections.map fun p => (p.resultName, value p)).map Prod.fst =
        q.projections.map Projection.resultName := by
    rw [List.map_map]
    rfl
  constructor
  · intro hkeeps p hp p' hp' hclash
    have hdistinct := Row.distinct_ofColumns
      (q.projections.map fun p => (p.resultName, Value.null))
    rw [Row.Distinct, hkeeps, hnames] at hdistinct
    have he := List.inj_on_of_nodup_map hdistinct hp hp' hclash.resultName_eq
    exact p.not_clashes_self (he ▸ hclash)
  · intro hclear value
    refine Row.columns_ofColumns ?_
    rw [hnames]
    refine h.map_on fun p hp p' hp' he => ?_
    rcases Projection.resultName_eq_iff.mp he with he | hclash | hclash
    · exact he
    · exact absurd hclash (hclear p hp p' hp')
    · exact absurd hclash (hclear p' hp' p hp)

/-- The names of projected columns that both statements write come out the same exactly for columns
that clash, and a row under these names has all of them if none do. -/
theorem result_names_distinct {idColumn : String} (h : q.Lists) (hid : IsName idColumn)
    (htables : (q.joins.map Join.table).Nodup) (hcolumns : ∀ j ∈ q.joins, j.columns.Nodup)
    (watermark : Int64) :
    let id := qualified q.table idColumn
    let list := q.selectList ++ ", " ++ id ++ " AS " ++ watermarkColumn
    (∃ rest, q.select.sql = "SELECT " ++ q.selectList ++ " FROM " ++ rest) ∧
      renamings (tokens q.selectList.toList) = q.projections.map Projection.shownAs ∧
      (∃ rest, (q.incremental idColumn watermark).sql = "SELECT " ++ list ++ " FROM " ++ rest) ∧
      renamings (tokens list.toList) = q.projections.map Projection.shownAs ++
        [(nameTokens (bareParts id), watermarkColumn.toList)] ∧
      q.projections.Nodup ∧
      (∀ p ∈ q.projections, ∀ p' ∈ q.projections, p ≠ p' →
        (p.resultName = p'.resultName ↔ p.Clashes p' ∨ p'.Clashes p)) ∧
      ((∀ value : Projection → Value,
          (Row.ofColumns (q.projections.map fun p => (p.resultName, value p))).columns =
            q.projections.map fun p => (p.resultName, value p)) ↔
        ∀ p ∈ q.projections, ∀ p' ∈ q.projections, ¬p.Clashes p') := by
  intro id list
  have hnodup := nodup_projections htables hcolumns
  exact ⟨q.exists_select_sql, h.renamings_select, q.exists_incremental_sql idColumn watermark,
    h.renamings_incremental (h.table.qualified hid), hnodup,
    fun p _ p' _ hne => Projection.resultName_eq_iff.trans (or_iff_right hne),
    keeps_projections_iff hnodup⟩

theorem result_names_distinct_teams :
    ∃ q : Query, q.projections = [⟨"profiles", "bio"⟩, ⟨"profiles", "avatar"⟩, ⟨"teams", "name"⟩] ∧
      ∀ value : Projection → Value,
        (Row.ofColumns (q.projections.map fun p => (p.resultName, value p))).columns =
          q.projections.map fun p => (p.resultName, value p) := by
  let q : Query :=
    { table := "users"
      joins := [⟨"profiles", "profile_id", "id", ["bio", "avatar"]⟩,
        ⟨"teams", "team_id", "id", ["name"]⟩] }
  have h : q.Lists := { table := by decide, columns := by simp [q], joined := by decide }
  have hid : IsName "id" := by decide
  have hall := result_names_distinct h hid (by decide) (by decide) 0
  refine ⟨q, rfl, hall.2.2.2.2.2.2.mpr ?_⟩
  have hnames : ∀ p ∈ q.projections, ∀ p' ∈ q.projections, p.resultName = p'.resultName → p = p' := by
    decide
  intro p hp p' hp' hclash
  exact p.not_clashes_self (hnames p hp p' hp' hclash.resultName_eq ▸ hclash)

/-- Two tables of which one is named like the other and the beginning of its column. -/
theorem result_names_collide :
    let q : Query :=
      { table := "t", joins := [⟨"a_b", "x", "id", ["c"]⟩, ⟨"a", "y", "id", ["b_c"]⟩] }
    q.Lists ∧ (q.joins.map Join.table).Nodup ∧ (∀ j ∈ q.joins, j.columns.Nodup) ∧
      q.select.sql = "SELECT t.*, a_b.c AS a_b_c, a.b_c AS a_b_c" ++
        " FROM t JOIN a_b ON t.x = a_b.id JOIN a ON t.y = a.id" ∧
      (∃ p ∈ q.projections, ∃ p' ∈ q.projections, p ≠ p' ∧ p.resultName = p'.resultName) ∧
      ∀ value : Projection → Value,
        (Row.ofColumns (q.projections.map fun p => (p.resultName, value p))).columns =
          [("a_b_c", value ⟨"a", "b_c"⟩)] := by
  intro q
  have h : q.Lists := { table := by decide, columns := by simp [q], joined := by decide }
  refine ⟨h, by decide, by decide, by decide, by decide, fun value => rfl⟩

end Query

end LiveQuery
