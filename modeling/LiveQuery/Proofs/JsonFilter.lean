import LiveQuery.Proofs.Resolution

/-! Which JSON documents are filters, and the conditions they stand for. Reading a document
and resolving it are two passes that refuse different things; together they accept exactly
the filters, and every scalar, array and operator becomes one condition. -/

namespace LiveQuery

/-- The key that names a comparison. -/
def RangeOp.key : RangeOp → String
  | gt => "$gt"
  | ge => "$gte"
  | lt => "$lt"
  | le => "$lte"
  | ne => "$ne"

theorem RangeOp.ofKey?_eq_some_iff {key : String} {op : RangeOp} :
    ofKey? key = some op ↔ key = op.key := by
  constructor
  · intro h
    unfold ofKey? at h
    split at h <;> cases h <;> rfl
  · rintro rfl
    cases op <;> rfl

theorem RangeOp.key_ne_in (op : RangeOp) : op.key ≠ "$in" := by
  cases op <;> decide

namespace Json

def IsScalar : Json → Prop
  | array _ => False
  | object _ => False
  | _ => True

def IsList : Json → Prop
  | array items => ∀ i ∈ items, i.IsScalar
  | _ => False

/-- A comparison with a scalar, or membership among one or several. -/
def IsOperator (m : String × Json) : Prop :=
  (∃ op : RangeOp, m.1 = op.key) ∧ m.2.IsScalar ∨ m.1 = "$in" ∧ (m.2.IsScalar ∨ m.2.IsList)

/-- What may stand under the name of a field. -/
def IsOperand (j : Json) : Prop :=
  j.IsScalar ∨ j.IsList ∨ ∃ ops, j = object ops ∧ ∀ m ∈ ops, IsOperator m

def IsEntry (m : String × Json) : Prop := m.1.toList.head? ≠ some '$' ∧ m.2.IsOperand

def IsBranch (j : Json) : Prop := ∃ ms, j = object ms ∧ ∀ m ∈ ms, IsEntry m

def IsAlternatives (j : Json) : Prop := ∃ bs, j = array bs ∧ bs ≠ [] ∧ ∀ b ∈ bs, b.IsBranch

def IsFilter (j : Json) : Prop :=
  ∃ ms, j = object ms ∧ ∀ m ∈ ms, if m.1 = "$or" then m.2.IsAlternatives else IsEntry m

/-- Scalars as values. Integers beyond 64 signed bits become the nearest reals. -/
def value : Json → Value
  | null => .null
  | boolean b => .boolean b
  | integer n =>
    if -(Nat.pow 2 63 : Int) ≤ n ∧ n < Nat.pow 2 63 then .integer (Int64.ofInt n)
    else .real (Binary64.ofInt n)
  | real x => .real x
  | text s => .text s
  | array _ => .null
  | object _ => .null

def values : Json → List Value
  | array items => items.map value
  | j => [j.value]

/-- A comparison under the key of one, else membership. -/
def operatorTest : String × Json → Test
  | ("$gt", j) => .range .gt j.value
  | ("$gte", j) => .range .ge j.value
  | ("$lt", j) => .range .lt j.value
  | ("$lte", j) => .range .le j.value
  | ("$ne", j) => .range .ne j.value
  | (_, j) => .among j.values

def tests : Json → List Test
  | array items => [.among (items.map value)]
  | object ops => ops.map operatorTest
  | j => [.equals j.value]

def entryConditions (m : String × Json) : List Condition := m.2.tests.map fun t => ⟨m.1, t⟩

def branchConditions : Json → List Condition
  | object ms => ms.flatMap entryConditions
  | _ => []

def alternatives : Json → OrGroup
  | array bs => bs.flatMap branchConditions
  | _ => []

/-- What a filter stands for, in the order of the document. -/
def selection : Json → Selection
  | object ms =>
    { conditions := (ms.filter fun m => m.1 ≠ "$or").flatMap entryConditions
      orGroups := (ms.filter fun m => m.1 = "$or").map fun m => m.2.alternatives }
  | _ => {}

variable {field : String} {ms : List (String × Json)}

theorem scalar_or_container (j : Json) :
    j.IsScalar ∨ (∃ items, j = array items) ∨ ∃ ms, j = object ms := by
  cases j <;> simp [IsScalar]

theorem values_of_isScalar {j : Json} (h : j.IsScalar) : j.values = [j.value] := by
  cases j <;> first | rfl | exact h.elim

theorem tests_of_isScalar {j : Json} (h : j.IsScalar) : j.tests = [.equals j.value] := by
  cases j <;> first | rfl | exact h.elim

theorem ofJson?_of_isScalar {j : Json} (h : j.IsScalar) : Value.ofJson? j = some j.value := by
  cases j with
  | integer n =>
    have hmin : Int64.minValue.toInt = -(Nat.pow 2 63 : Int) := rfl
    have hmax : n ≤ Int64.maxValue.toInt ↔ n < Nat.pow 2 63 := Int.le_iff_lt_add_one
    simp only [Value.ofJson?, value, hmin, hmax]
  | array | object => exact h.elim
  | _ => rfl

theorem ofJson?_eq_some_iff {j : Json} {v : Value} :
    Value.ofJson? j = some v ↔ j.IsScalar ∧ v = j.value := by
  by_cases hj : j.IsScalar
  · simp [ofJson?_of_isScalar hj, hj, eq_comm]
  · cases j <;> simp_all [Value.ofJson?, IsScalar]

theorem yields_listOfJson (field : String) (items : List Json) :
    Yields (Operand.listOfJson field items) (∀ i ∈ items, i.IsScalar) (items.map value) := by
  refine Yields.mapM fun i _ v => ?_
  rw [← ofJson?_eq_some_iff]
  cases Value.ofJson? i <;> simp

theorem ofJson_of_isScalar {j : Json} (h : j.IsScalar) :
    Operand.ofJson field j = .ok (.scalar j.value) := by
  have hread : Operand.ofJson field j = .ok (.scalar ((Value.ofJson? j).getD .null)) := by
    cases j <;> first | rfl | exact h.elim
  rw [hread, ofJson?_of_isScalar h, Option.getD_some]

theorem operatorsOfJson_eq (ms : List (String × Json)) :
    Operand.operatorsOfJson field ms =
      ms.mapM fun m => (m.1, ·) <$> Operand.ofJson field m.2 := by
  induction ms with
  | nil => rfl
  | cons m ms ih =>
    obtain ⟨key, j⟩ := m
    rw [Operand.operatorsOfJson, List.mapM_cons, ih]
    cases Operand.ofJson field j <;> rfl

theorem isOperator_in_iff (j : Json) : IsOperator ("$in", j) ↔ j.IsScalar ∨ j.IsList := by
  have hin : ¬∃ op : RangeOp, "$in" = op.key := fun ⟨op, h⟩ => op.key_ne_in h.symm
  simp [IsOperator, hin]

theorem isOperator_key_iff (op : RangeOp) (j : Json) : IsOperator (op.key, j) ↔ j.IsScalar := by
  simp only [IsOperator, op.key_ne_in, false_and, or_false]
  exact ⟨And.right, fun h => ⟨⟨op, rfl⟩, h⟩⟩

theorem operatorTest_key (op : RangeOp) (j : Json) : operatorTest (op.key, j) = .range op j.value := by
  cases op <;> rfl

theorem operatorTest_of_ne {key : String} (h : ∀ op : RangeOp, key ≠ op.key) (j : Json) :
    operatorTest (key, j) = .among j.values := by
  have hkey (op : RangeOp) {j' : Json} (he : (key, j) = (op.key, j')) : False :=
    h op (congrArg Prod.fst he)
  unfold operatorTest
  split
  · exact (hkey .gt ‹_›).elim
  · exact (hkey .ge ‹_›).elim
  · exact (hkey .lt ‹_›).elim
  · exact (hkey .le ‹_›).elim
  · exact (hkey .ne ‹_›).elim
  · rename_i he
    cases he
    rfl

theorem resolveOperator_key (op : RangeOp) :
    resolveOperator field op.key = fun
      | .scalar v => .ok ⟨field, .range op v⟩
      | _ => .error (.invalidFilter (.scalarExpected op.key field)) := by
  funext operand
  cases op <;> cases operand <;> rfl

theorem resolveOperator_unknown {key : String} (hin : key ≠ "$in")
    (hkey : ∀ op : RangeOp, key ≠ op.key) :
    resolveOperator field key = fun _ => .error (.unknownOperator field key) := by
  have hnone : RangeOp.ofKey? key = none := by
    cases h : RangeOp.ofKey? key with
    | none => rfl
    | some op => exact absurd (RangeOp.ofKey?_eq_some_iff.mp h) (hkey op)
  funext operand
  simp only [resolveOperator, if_neg hin, hnone]

theorem yields_in (j : Json) :
    Yields (Operand.ofJson field j >>= resolveOperator field "$in") (j.IsScalar ∨ j.IsList)
      ⟨field, .among j.values⟩ := by
  rcases j.scalar_or_container with hj | ⟨items, rfl⟩ | ⟨ops, rfl⟩
  · rw [ofJson_of_isScalar hj, values_of_isScalar hj]
    exact (Yields.ok _).of_iff (by simp [hj])
  · have hread := (yields_listOfJson field items).map fun vs => Condition.mk field (.among vs)
    refine (hread.of_eq ?_).of_iff (by simp [IsScalar, IsList])
    change (Operand.list <$> Operand.listOfJson field items) >>= _ = _
    cases Operand.listOfJson field items <;> rfl
  · refine (Yields.of_error ?_).of_iff (by simp [IsScalar, IsList])
    change ∃ e, (Operand.operators <$> Operand.operatorsOfJson field ops) >>= _ = Except.error e
    cases Operand.operatorsOfJson field ops <;> exact ⟨_, rfl⟩

theorem yields_comparison (op : RangeOp) (j : Json) :
    Yields (Operand.ofJson field j >>= resolveOperator field op.key) j.IsScalar
      ⟨field, .range op j.value⟩ := by
  rw [resolveOperator_key]
  rcases j.scalar_or_container with hj | ⟨items, rfl⟩ | ⟨ops, rfl⟩
  · rw [ofJson_of_isScalar hj]
    exact (Yields.ok _).of_iff (by simp [hj])
  · refine (Yields.of_error ?_).of_iff (by simp [IsScalar])
    change ∃ e, (Operand.list <$> Operand.listOfJson field items) >>= _ = Except.error e
    cases Operand.listOfJson field items <;> exact ⟨_, rfl⟩
  · refine (Yields.of_error ?_).of_iff (by simp [IsScalar])
    change ∃ e, (Operand.operators <$> Operand.operatorsOfJson field ops) >>= _ = Except.error e
    cases Operand.operatorsOfJson field ops <;> exact ⟨_, rfl⟩

/-- An operator is read and resolved exactly if it is one. -/
theorem yields_operator (field : String) (m : String × Json) :
    Yields (Operand.ofJson field m.2 >>= resolveOperator field m.1) (IsOperator m)
      ⟨field, operatorTest m⟩ := by
  obtain ⟨key, j⟩ := m
  by_cases hin : key = "$in"
  · subst hin
    exact (yields_in j).of_iff (isOperator_in_iff j)
  · by_cases hkey : ∃ op : RangeOp, key = op.key
    · obtain ⟨op, rfl⟩ := hkey
      rw [operatorTest_key]
      exact (yields_comparison op j).of_iff (isOperator_key_iff op j)
    · rw [resolveOperator_unknown hin fun op h => hkey ⟨op, h⟩]
      refine (Yields.of_error ?_).of_iff (by simp [IsOperator, hin, hkey])
      cases Operand.ofJson field j <;> exact ⟨_, rfl⟩

/-- The conditions of a field are those of its operand. -/
theorem yields_operand (field : String) (j : Json) :
    Yields (Operand.ofJson field j >>= resolveField field) j.IsOperand
      (j.tests.map (Condition.mk field)) := by
  rcases j.scalar_or_container with hj | ⟨items, rfl⟩ | ⟨ops, rfl⟩
  · rw [ofJson_of_isScalar hj, tests_of_isScalar hj]
    exact (Yields.ok _).of_iff (by simp [IsOperand, hj])
  · have hread := (yields_listOfJson field items).map fun vs =>
      [Condition.mk field (.among vs)]
    refine (hread.of_eq ?_).of_iff (by simp [IsOperand, IsScalar, IsList])
    change (Operand.list <$> Operand.listOfJson field items) >>= _ = _
    cases Operand.listOfJson field items <;> rfl
  · have hops := Yields.mapM_mapM (f := fun m => (m.1, ·) <$> Operand.ofJson field m.2)
      (g := fun m => resolveOperator field m.1 m.2) fun m (_ : m ∈ ops) =>
        (yields_operator field m).of_eq (bind_map_left _ _ _)
    rw [← operatorsOfJson_eq] at hops
    rw [tests, List.map_map]
    refine (hops.of_eq ?_).of_iff (by simp [IsOperand, IsScalar, IsList])
    change (Operand.operators <$> Operand.operatorsOfJson field ops) >>= _ = _
    rw [bind_map_left]
    rfl

/-- A member of a filter as an entry. -/
def readMember (m : String × Json) : Except QueryError (String × Operand) :=
  (m.1, ·) <$>
    if m.1 = "$or" then
      match m.2 with
      | .array branches => .branches <$> branches.mapM Criteria.ofJson
      | _ => .error (.invalidFilter .orNotAnArray)
    else Operand.ofJson m.1 m.2

theorem ofBranches_eq (js : List Json) : Criteria.ofBranches js = js.mapM Criteria.ofJson := by
  induction js with
  | nil => rfl
  | cons j js ih =>
    rw [Criteria.ofBranches, List.mapM_cons, ih]

theorem ofMembers_eq (ms : List (String × Json)) : Criteria.ofMembers ms = ms.mapM readMember := by
  induction ms with
  | nil => rfl
  | cons m ms ih =>
    obtain ⟨key, j⟩ := m
    rw [List.mapM_cons, ← ih, readMember]
    by_cases hor : key = "$or"
    · cases j with
      | array branches =>
        rw [Criteria.ofMembers, ofBranches_eq]
        simp only [hor, if_true, map_eq_pure_bind, bind_assoc, pure_bind]
      | _ =>
        rw [Criteria.ofMembers]
        · simp only [hor, if_true]
          rfl
        · simp
    · cases j with
      | array branches =>
        rw [Criteria.ofMembers]
        simp only [hor, if_false, map_eq_pure_bind, bind_assoc, pure_bind]
      | _ =>
        rw [Criteria.ofMembers]
        · simp only [hor, if_false, map_eq_pure_bind, bind_assoc, pure_bind]
        · simp

theorem readMember_of_ne {m : String × Json} (h : m.1 ≠ "$or") :
    readMember m = (m.1, ·) <$> Operand.ofJson m.1 m.2 := by
  rw [readMember, if_neg h]

theorem isReserved_eq_false_iff (key : String) :
    isReserved key = false ↔ key.toList.head? ≠ some '$' := by
  simp [isReserved]

theorem yields_entry (m : String × Json) :
    Yields (readMember m >>= resolveKey) (IsEntry m) (entryConditions m) := by
  rw [entryConditions]
  cases hr : isReserved m.1 with
  | true =>
    have hkey : ¬IsEntry m := by simp [IsEntry, ← isReserved_eq_false_iff, hr]
    refine (Yields.of_error ?_).of_iff (iff_of_false hkey id)
    rw [readMember, bind_map_left]
    simp only [resolveKey, hr, if_true]
    generalize (if m.1 = "$or" then _ else _ : Except QueryError Operand) = x
    cases x <;> exact ⟨_, rfl⟩
  | false =>
    have hfield := yields_operand m.1 m.2
    refine (hfield.of_eq ?_).of_iff (by simp [IsEntry, ← isReserved_eq_false_iff, hr])
    rw [readMember_of_ne (ne_or_of_isReserved hr), bind_map_left]
    simp only [resolveKey, hr, Bool.false_eq_true, if_false]

theorem yields_branch (b : Json) :
    Yields (Criteria.ofJson b >>= resolveBranch) b.IsBranch b.branchConditions := by
  cases b with
  | object ms =>
    have hentries := Yields.mapM_mapM fun m (_ : m ∈ ms) => yields_entry m
    refine ((hentries.map List.flatten).of_eq ?_).of_iff (by simp [IsBranch])
    rw [Criteria.ofJson, ofMembers_eq, map_bind]
    rfl
  | _ => exact (Yields.of_error ⟨_, rfl⟩).of_iff (by simp [IsBranch])

theorem yields_alternatives (bs : List Json) :
    Yields (Operand.branches <$> bs.mapM Criteria.ofJson >>= resolveOr) (array bs).IsAlternatives
      (array bs).alternatives := by
  cases bs with
  | nil => exact (Yields.of_error ⟨_, rfl⟩).of_iff (by simp [IsAlternatives])
  | cons b bs =>
    have hbranches := Yields.mapM_mapM fun b' (_ : b' ∈ b :: bs) => yields_branch b'
    refine ((hbranches.map List.flatten).of_eq ?_).of_iff (by simp [IsAlternatives])
    rw [bind_map_left, map_bind]
    cases hcs : (b :: bs).mapM Criteria.ofJson with
    | error e => rfl
    | ok cs =>
      cases forall₂_of_mapM hcs with
      | cons _ _ => rfl

def memberSelection (m : String × Json) : Selection :=
  if m.1 = "$or" then ⟨[], [m.2.alternatives]⟩ else ⟨entryConditions m, []⟩

theorem yields_member (m : String × Json) :
    Yields (readMember m >>= resolveEntry)
      (if m.1 = "$or" then m.2.IsAlternatives else IsEntry m) (memberSelection m) := by
  obtain ⟨key, j⟩ := m
  by_cases hor : key = "$or"
  · subst hor
    rw [memberSelection, if_pos rfl, if_pos rfl]
    cases j with
    | array bs =>
      refine ((yields_alternatives bs).map fun g => Selection.mk [] [g]).of_eq ?_
      rw [readMember, bind_map_left, map_bind]
      rfl
    | _ => exact (Yields.of_error ⟨_, rfl⟩).of_iff (by simp [IsAlternatives])
  · have hread : readMember (key, j) = (key, ·) <$> Operand.ofJson key j := readMember_of_ne hor
    rw [memberSelection, if_neg hor, if_neg hor]
    cases hr : isReserved key with
    | true =>
      have hentry : ¬IsEntry (key, j) := by simp [IsEntry, ← isReserved_eq_false_iff, hr]
      refine (Yields.of_error ?_).of_iff (iff_of_false hentry id)
      simp only [hread, bind_map_left, resolveEntry, hor, hr, if_true, if_false]
      cases Operand.ofJson key j <;> exact ⟨_, rfl⟩
    | false =>
      refine ((yields_entry (key, j)).map fun cs => Selection.mk cs []).of_eq ?_
      simp only [hread, bind_map_left, map_bind, resolveEntry, resolveKey, hor, hr,
        Bool.false_eq_true, if_false]

theorem concat_memberSelection (ms : List (String × Json)) :
    Selection.concat (ms.map memberSelection) = (object ms).selection := by
  induction ms with
  | nil => rfl
  | cons m ms ih =>
    simp only [Selection.concat, selection, Selection.mk.injEq] at ih
    by_cases hor : m.1 = "$or" <;> simp [Selection.concat, selection, memberSelection, hor, ih]

/-- Reading a document and resolving it succeeds for the filters alone. -/
theorem yields_selection (j : Json) :
    Yields (Criteria.ofJson j >>= Criteria.resolve) j.IsFilter j.selection := by
  cases j with
  | object ms =>
    have hmembers := Yields.mapM_mapM fun m (_ : m ∈ ms) => yields_member m
    rw [← concat_memberSelection]
    refine ((hmembers.map Selection.concat).of_eq ?_).of_iff (by simp [IsFilter])
    rw [Criteria.ofJson, ofMembers_eq, map_bind]
    exact congrArg _ (funext Criteria.resolve_eq)
  | _ => exact (Yields.of_error ⟨_, rfl⟩).of_iff (by simp [IsFilter])

example :
    selection (object [
      ("age", object [("$gte", integer 18), ("$lt", integer 65)]),
      ("$or", array [object [("city", null)], object [("city", array [text "Oslo", text "Rome"])]])]) =
    { conditions := [⟨"age", .range .ge (.integer 18)⟩, ⟨"age", .range .lt (.integer 65)⟩]
      orGroups := [[⟨"city", .equals .null⟩, ⟨"city", .among [.text "Oslo", .text "Rome"]⟩]] } := by
  rfl

/-- The keys of a document are all different, so that it has one group at most. -/
theorem orGroups_eq (hkeys : (ms.map Prod.fst).Nodup) :
    (object ms).selection.orGroups = ((ms.lookup "$or").map alternatives).toList := by
  simp only [selection]
  induction ms with
  | nil => rfl
  | cons m ms ih =>
    obtain ⟨key, j⟩ := m
    obtain ⟨hkey, hkeys⟩ := List.nodup_cons.mp hkeys
    by_cases hor : key = "$or"
    · subst hor
      have hrest : ms.filter (fun m => m.1 = "$or") = [] := by
        rw [List.filter_eq_nil_iff]
        intro m hm
        have hne : m.1 ≠ "$or" := fun h => hkey (List.mem_map.mpr ⟨m, hm, h⟩)
        simp [hne]
      simp [hrest]
    · have hbeq : ("$or" == key) = false := beq_eq_false_iff_ne.mpr (Ne.symm hor)
      simpa [hor, List.lookup_cons, hbeq] using ih hkeys

/-- A document resolves exactly if it is a filter, at every depth, and then to one condition
for every scalar, array and operator in it, in their order: those at the top hold together,
those below `$or` are the alternatives of the one group. -/
theorem resolves_iff_isFilter (j : Json) :
    ((∃ s, (Criteria.ofJson j >>= Criteria.resolve) = .ok s) ↔ j.IsFilter) ∧
    (∀ s, (Criteria.ofJson j >>= Criteria.resolve) = .ok s → s = j.selection) ∧
    ∀ ms, j = object ms → (ms.map Prod.fst).Nodup →
      j.selection.orGroups = ((ms.lookup "$or").map alternatives).toList := by
  have hj := yields_selection j
  refine ⟨hj.isOk_iff, fun s hs => ((hj s).mp hs).2, ?_⟩
  rintro ms rfl hkeys
  exact orGroups_eq hkeys

end Json

end LiveQuery
