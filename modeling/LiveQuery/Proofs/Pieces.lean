import LiveQuery.Query

/-! Text and parameters of a fragment, piece by piece. -/

namespace LiveQuery

namespace Fragment

@[simp] theorem text_nil : text [] = "" := rfl

@[simp] theorem text_sql (s : String) (f : Fragment) : text (.sql s :: f) = s ++ text f := by
  simp [text, Piece.text]

@[simp] theorem text_bound (v : Value) (f : Fragment) : text (.bound v :: f) = "?" ++ text f := by
  simp [text, Piece.text]

@[simp] theorem text_append (f g : Fragment) : text (f ++ g) = text f ++ text g := by
  simp [text, String.join_append]

theorem text_joined (separator : String) (fs : List Fragment) :
    text (joined separator fs) = separator.intercalate (fs.map text) := by
  induction fs with
  | nil => rfl
  | cons f fs ih =>
    cases fs with
    | nil => rw [joined, List.map_cons, List.map_nil, String.intercalate_singleton]
    | cons g fs =>
      rw [joined, text_append, text_sql, ih]
      simp only [List.map_cons, String.intercalate_cons_cons, String.append_assoc]

@[simp] theorem params_nil : params [] = [] := rfl

@[simp] theorem params_sql (s : String) (f : Fragment) : params (.sql s :: f) = params f := rfl

@[simp] theorem params_bound (v : Value) (f : Fragment) :
    params (.bound v :: f) = v :: params f := rfl

@[simp] theorem params_append (f g : Fragment) : params (f ++ g) = params f ++ params g :=
  List.filterMap_append

theorem params_joined (separator : String) (fs : List Fragment) :
    (joined separator fs).params = fs.flatMap params := by
  induction fs with
  | nil => rfl
  | cons f fs ih =>
    cases fs with
    | nil => simp [joined]
    | cons g fs =>
      rw [joined, params_append, params_sql, ih]
      rfl

end Fragment

namespace Query

theorem params_incremental (q : Query) (idColumn : String) (n : Int64) :
    (q.incremental idColumn n).params = (q.fingerprint idColumn).params ++ [.integer n] := by
  cases hp : q.predicate? q.hasJoins <;>
    simp [incremental, fingerprint, incrementalFragment, fingerprintFragment, pastClause,
      whereClause, hp, Fragment.statement]

end Query

end LiveQuery
