import LiveQuery.Proofs.Resolution

/-! Chains of steps. A step adds to a query what it makes of a fresh one on the same table,
so a chain adds up what its steps make, and the kinds of steps do not disturb each other. -/

namespace LiveQuery

namespace Expression

@[simp] theorem all?_toList (e : Option Expression) : all? e.toList = e := by
  cases e <;> rfl

theorem all?_append (es fs : List Expression) : all? (es ++ fs) = all? ((all? es).toList ++ fs) := by
  cases es with
  | nil => rfl
  | cons e es => simp [all?, reduce?, List.foldl_append]

end Expression

namespace Query

/-- Adds the parts of `p`. Its limit and its offset take the places of the earlier ones. -/
def append (q p : Query) : Query where
  table := q.table
  columns := q.columns ++ p.columns
  conditions := q.conditions ++ p.conditions
  orGroups := q.orGroups ++ p.orGroups
  tree := Expression.all? (q.tree.toList ++ p.tree.toList)
  joins := q.joins ++ p.joins
  limit := p.limit.or q.limit
  offset := p.offset.or q.offset
  ordering := q.ordering ++ p.ordering
  relations := q.relations ++ p.relations
  raw := q.raw || p.raw

theorem filter_eq_append (ctx : Context) (q : Query) (c : Criteria) :
    q.filter ctx c = q.append <$> Query.filter ctx c { table := q.table } := by
  rw [filter_eq, filter_eq]
  cases (ctx.adapt q.table c).resolve <;> simp [restrict, append]

theorem addJoin_eq_append (q : Query) (j : Join) :
    q.addJoin j = q.append (addJoin j { table := q.table }) := by
  simp [addJoin, append]

theorem step_eq (ctx : Context) (q : Query) (s : Step) :
    q.step ctx s = q.append <$> Query.step ctx { table := q.table } s := by
  cases s with
  | filter criteria => exact filter_eq_append ctx q criteria
  | filterJson j =>
    simp only [step]
    rw [map_bind]
    exact congrArg _ (funext (filter_eq_append ctx q))
  | filterTree e =>
    cases h : q.tree <;> simp [step, andTree, append, h, Expression.all?, Expression.reduce?]
  | join table columns =>
    simp only [step, addJoin_eq_append q, map_bind]
    rfl
  | joinOn table fromColumn toColumn columns => exact congrArg _ (addJoin_eq_append q _)
  | withRelated relations =>
    simp only [step, withRelated]
    split
    · simp [append]
    · cases relations <;> simp [append]
  | _ => simp [step, append]

theorem foldl_append (q : Query) (ps : List Query) : ps.foldl append q =
    { table := q.table
      columns := q.columns ++ ps.flatMap columns
      conditions := q.conditions ++ ps.flatMap conditions
      orGroups := q.orGroups ++ ps.flatMap orGroups
      tree := Expression.all? (q.tree.toList ++ ps.flatMap fun p => p.tree.toList)
      joins := q.joins ++ ps.flatMap joins
      limit := (ps.filterMap limit).getLast?.or q.limit
      offset := (ps.filterMap offset).getLast?.or q.offset
      ordering := q.ordering ++ ps.flatMap ordering
      relations := q.relations ++ ps.flatMap relations
      raw := q.raw || ps.any raw } := by
  have hlast : ∀ (f : Query → Option UInt64) p ps, ((p :: ps).filterMap f).getLast? =
      (ps.filterMap f).getLast?.or (f p) := by
    intro f p ps
    cases h : f p <;> simp [h, List.getLast?_cons]
  induction ps generalizing q with
  | nil => simp
  | cons p ps ih =>
    rw [List.foldl_cons, ih]
    simp only [append, hlast, List.flatMap_cons, List.append_assoc, List.any_cons, Bool.or_assoc,
      Option.or_assoc, ← Expression.all?_append]

end Query

end LiveQuery
