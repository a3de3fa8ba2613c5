import LiveQuery.Context
import LiveQuery.Proofs.Attempt

/-! Filters resolved entry by entry. Each entry gives a selection of its own, and the
selections are put together in order. -/

namespace LiveQuery

theorem ne_or_of_isReserved {field : String} (h : isReserved field = false) : field ≠ "$or" := by
  rintro rfl
  exact absurd h (by decide)

def resolveKey (k : String × Operand) : Except QueryError (List Condition) :=
  if isReserved k.1 then .error (.invalidFilter (.nestedKey k.1)) else resolveField k.1 k.2

theorem resolveBranch_eq (b : Criteria) : resolveBranch b = List.flatten <$> b.mapM resolveKey := rfl

theorem resolveKey_eq_ok {k : String × Operand} {cs : List Condition} :
    resolveKey k = .ok cs ↔ isReserved k.1 = false ∧ resolveField k.1 k.2 = .ok cs := by
  unfold resolveKey
  cases isReserved k.1 <;> simp

def Selection.concat (ss : List Selection) : Selection :=
  ⟨ss.flatMap Selection.conditions, ss.flatMap Selection.orGroups⟩

def resolveEntry (e : String × Operand) : Except QueryError Selection :=
  if e.1 = "$or" then (fun g => ⟨[], [g]⟩) <$> resolveOr e.2
  else if isReserved e.1 then .error (.invalidFilter (.unsupportedKey e.1))
  else (fun cs => ⟨cs, []⟩) <$> resolveField e.1 e.2

theorem Criteria.resolve_eq (c : Criteria) :
    c.resolve = Selection.concat <$> c.mapM resolveEntry := by
  induction c with
  | nil => rfl
  | cons e rest ih =>
    obtain ⟨field, operand⟩ := e
    rw [resolve, List.mapM_cons, ih, resolveEntry]
    by_cases hor : field = "$or"
    · simp only [hor, if_true]
      cases resolveOr operand with
      | error e => rfl
      | ok g => cases rest.mapM resolveEntry <;> rfl
    · simp only [hor, if_false]
      split
      · rfl
      · cases resolveField field operand with
        | error e => rfl
        | ok cs => cases rest.mapM resolveEntry <;> rfl

namespace Query

def restrict (q : Query) (s : Selection) : Query :=
  { q with conditions := q.conditions ++ s.conditions, orGroups := q.orGroups ++ s.orGroups }

theorem filter_eq (ctx : Context) (c : Criteria) (q : Query) :
    q.filter ctx c = q.restrict <$> (ctx.adapt q.table c).resolve := by
  rw [filter]
  cases (ctx.adapt q.table c).resolve <;> rfl

end Query

end LiveQuery
