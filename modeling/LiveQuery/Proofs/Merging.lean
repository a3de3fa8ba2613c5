import LiveQuery.Proofs.Alternatives
import Mathlib.Data.List.Induction

/-! Criteria built call by call. A call that adds an operator to a field puts it into the first
map of that field, so that it may come to stand before what earlier calls have added. What the
criteria resolve to is still what the calls resolve to one by one: only the order changes, and
not among calls on one field, nor among those that add entries of their own. -/

namespace LiveQuery

namespace Criteria

inductive Call
  | eq (field : String) (v : Value)
  | isIn (field : String) (vs : List Value)
  | op (field operator : String) (operand : Operand)
  | entry (field : String) (operand : Operand)
  | or (branches : List Criteria)

namespace Call

def apply (c : Criteria) : Call → Criteria
  | eq field v => c.eq field v
  | isIn field vs => c.isIn field vs
  | op field operator operand => c.op field operator operand
  | entry field operand => Criteria.entry c field operand
  | or branches => c.or branches

/-- The criteria of the call alone. -/
def alone (call : Call) : Criteria := call.apply []

def selection (call : Call) : Selection := call.alone.resolve.toOption.getD {}

/-- The field whose operators the call adds to, if it does not add an entry in any case. -/
def target? : Call → Option String
  | op field _ _ => some field
  | _ => none

/-- The entry that the call adds to criteria without a map for it. -/
def given : Call → String × Operand
  | eq field v => (field, .scalar v)
  | isIn field vs => (field, .list vs)
  | op field operator operand => (field, .operators [(operator, operand)])
  | entry field operand => (field, operand)
  | or branches => ("$or", .branches branches)

theorem alone_eq (call : Call) : call.alone = [call.given] := by
  cases call <;> rfl

theorem apply_of_target?_eq_none {call : Call} (h : call.target? = none) (c : Criteria) :
    call.apply c = c ++ [call.given] := by
  cases call with
  | op => cases h
  | _ => rfl

end Call

def built (calls : List Call) : Criteria := calls.foldl Call.apply []

section

variable {field operator : String} {operand : Operand} {ops : List (String × Operand)}
  {call : Call} {s : Selection}

theorem op_cons_self (c : Criteria) : op ((field, .operators ops) :: c) field operator operand =
    (field, .operators (ops ++ [(operator, operand)])) :: c := if_pos rfl

theorem op_cons_of_ne {e : String × Operand} (h : ∀ ops, e ≠ (field, .operators ops))
    (c : Criteria) : op (e :: c) field operator operand = e :: op c field operator operand := by
  obtain ⟨name, value⟩ := e
  cases value with
  | operators ops =>
    have hname : name ≠ field := by
      rintro rfl
      exact h ops rfl
    exact if_neg hname
  | _ => rfl

theorem resolve_singleton (e : String × Operand) : resolve [e] = resolveEntry e := by
  rw [resolve_eq, List.mapM_cons]
  cases resolveEntry e with
  | error e => rfl
  | ok s => simp [Selection.concat, Functor.map, Except.map, bind, Except.bind, pure, Except.pure]

/-- A map of operators resolves like its two parts one after the other. -/
theorem resolveEntry_operators_append (ops ops' : List (String × Operand)) :
    resolveEntry (field, .operators (ops ++ ops')) = (do
      let s ← resolveEntry (field, .operators ops)
      let t ← resolveEntry (field, .operators ops')
      return .concat [s, t]) := by
  simp only [resolveEntry]
  by_cases hor : field = "$or"
  · simp only [hor, if_true]
    rfl
  · simp only [hor, if_false]
    split
    · rfl
    · simp only [resolveField, List.mapM_append]
      cases ops.mapM fun o => resolveOperator field o.1 o.2 with
      | error e => rfl
      | ok cs =>
        cases ops'.mapM fun o => resolveOperator field o.1 o.2 with
        | error e => rfl
        | ok cs' => simp [Selection.concat, Functor.map, Except.map, bind, Except.bind, pure, Except.pure]

theorem Call.yields_selection (call : Call) :
    Yields (resolveEntry call.given) (∃ s, call.alone.resolve = .ok s) call.selection := by
  intro s
  rw [← resolve_singleton, ← call.alone_eq]
  unfold selection
  cases call.alone.resolve <;> simp [Except.toOption, eq_comm]

/-- The calls that have gone into an entry: the one that added it, and those that added to its
map. -/
inductive Makes : List Call → String × Operand → Prop
  | first (call : Call) : Makes [call] call.given
  | further {calls : List Call} {field : String} {ops : List (String × Operand)}
      (operator : String) (operand : Operand) (h : Makes calls (field, .operators ops)) :
      Makes (calls ++ [.op field operator operand])
        (field, .operators (ops ++ [(operator, operand)]))

theorem Makes.yields {calls : List Call} {e : String × Operand} (h : Makes calls e) :
    Yields (resolveEntry e) (∀ call ∈ calls, ∃ s, call.alone.resolve = .ok s)
      (.concat (calls.map Call.selection)) := by
  induction h with
  | first call =>
    have hfirst := call.yields_selection.of_iff (Q := ∀ d ∈ [call], ∃ s, d.alone.resolve = .ok s)
      (by simp)
    simpa [Selection.concat] using hfirst
  | @further calls field ops operator operand _ ih =>
    let last : Call := .op field operator operand
    have hboth := (ih.bind fun _ => last.yields_selection.bind fun _ =>
      Yields.ok (Selection.concat [.concat (calls.map Call.selection), last.selection])).of_eq
        (resolveEntry_operators_append ops [(operator, operand)])
    have hall := hboth.of_iff (Q := ∀ d ∈ calls ++ [last], ∃ s, d.alone.resolve = .ok s)
      (by simp [or_imp, forall_and])
    simpa [Selection.concat] using hall

/-- An entry together with the calls that have gone into it. -/
structure Part where
  calls : List Call
  entry : String × Operand
  made : Makes calls entry

/-- Behind a map of operators no other call adds to its field. -/
def Part.Before (p q : Part) : Prop :=
  ∀ field ops, p.entry = (field, .operators ops) → ∀ call ∈ q.calls, call.target? ≠ some field

/-- A call goes behind the calls of one part, and none of the calls that it passes has its
target. -/
theorem exists_parts_op (field operator : String) (operand : Operand) {ps : List Part}
    (h : ps.Pairwise Part.Before) : ∃ qs : List Part,
      qs.map Part.entry = op (ps.map Part.entry) field operator operand ∧
      qs.Pairwise Part.Before ∧ ∃ before after, ps.flatMap Part.calls = before ++ after ∧
        qs.flatMap Part.calls = before ++ .op field operator operand :: after ∧
        ∀ call ∈ after, call.target? ≠ some field := by
  induction ps with
  | nil =>
    let last : Call := .op field operator operand
    exact ⟨[⟨[last], _, .first last⟩], rfl, List.pairwise_singleton _ _, [], [], rfl, rfl, by simp⟩
  | cons p ps ih =>
    obtain ⟨hp, hps⟩ := List.pairwise_cons.mp h
    by_cases hmap : ∃ ops, p.entry = (field, .operators ops)
    · obtain ⟨calls, entry, made⟩ := p
      obtain ⟨ops, rfl⟩ := hmap
      have hpast : ∀ q ∈ ps, ∀ call ∈ q.calls, call.target? ≠ some field :=
        fun q hq => hp q hq field ops rfl
      refine ⟨⟨_, _, .further operator operand made⟩ :: ps, ?_,
        List.pairwise_cons.mpr ⟨?_, hps⟩, calls, ps.flatMap Part.calls, rfl, by simp, ?_⟩
      · exact (op_cons_self _).symm
      · rintro q hq field' ops' hfield
        cases hfield
        exact hpast q hq
      · intro call hcall
        obtain ⟨q, hq, hmem⟩ := List.mem_flatMap.mp hcall
        exact hpast q hq call hmem
    · obtain ⟨qs, hentries, hqs, before, after, hold, hnew, hafter⟩ := ih hps
      refine ⟨p :: qs, ?_, List.pairwise_cons.mpr ⟨fun q hq => ?_, hqs⟩, p.calls ++ before, after,
        by simp [hold], by simp [hnew], hafter⟩
      · have hne : ∀ ops, p.entry ≠ (field, .operators ops) := fun ops he => hmap ⟨ops, he⟩
        rw [List.map_cons, List.map_cons, hentries, op_cons_of_ne hne]
      · intro field' ops' hfield call hcall
        have hmem : call ∈ before ++ .op field operator operand :: after :=
          hnew ▸ List.mem_flatMap.mpr ⟨q, hq, hcall⟩
        have hcases : call = .op field operator operand ∨ call ∈ ps.flatMap Part.calls := by
          rw [hold]
          simp only [List.mem_append, List.mem_cons] at hmem ⊢
          tauto
        rcases hcases with rfl | hin
        · intro htarget
          cases htarget
          exact hmap ⟨ops', hfield⟩
        · obtain ⟨q', hq', hin⟩ := List.mem_flatMap.mp hin
          exact hp q' hq' field' ops' hfield call hin

theorem exists_parts_apply (call : Call) {ps : List Part} (h : ps.Pairwise Part.Before) :
    ∃ qs : List Part, qs.map Part.entry = call.apply (ps.map Part.entry) ∧
      qs.Pairwise Part.Before ∧ ∃ before after, ps.flatMap Part.calls = before ++ after ∧
        qs.flatMap Part.calls = before ++ call :: after ∧
        ∀ d ∈ after, d.target? ≠ call.target? := by
  cases htarget : call.target? with
  | none =>
    refine ⟨ps ++ [⟨[call], _, .first call⟩], ?_, ?_, _, [], (List.append_nil _).symm, by simp,
      by simp⟩
    · rw [call.apply_of_target?_eq_none htarget, List.map_append]
      rfl
    · refine List.pairwise_append.mpr ⟨h, List.pairwise_singleton _ _, ?_⟩
      intro p _ q hq field ops _ d hd
      obtain rfl := List.mem_singleton.mp hq
      obtain rfl := List.mem_singleton.mp hd
      simp [htarget]
  | some field =>
    cases call with
    | op name operator operand =>
      cases htarget
      exact exists_parts_op field operator operand h
    | _ => cases htarget

/-- Another order of the calls. Those with one target, and those without any, keep theirs. -/
structure Rearranges (order calls : List Call) : Prop where
  perm : order.Perm calls
  kept : ∀ target, order.filter (·.target? = target) = calls.filter (·.target? = target)

theorem Rearranges.insert {before after calls : List Call} (h : Rearranges (before ++ after) calls)
    (ha : ∀ d ∈ after, d.target? ≠ call.target?) :
    Rearranges (before ++ call :: after) (calls ++ [call]) where
  perm := List.perm_middle.trans ((h.perm.cons call).trans (List.perm_append_singleton call calls).symm)
  kept target := by
    have hkept := h.kept target
    by_cases htarget : call.target? = target
    · have hnone : after.filter (·.target? = target) = [] :=
        List.filter_eq_nil_iff.mpr fun d hd => by simpa [← htarget] using ha d hd
      simp only [List.filter_append, hnone, List.append_nil] at hkept
      simp [List.filter_append, htarget, hnone, hkept]
    · simpa [List.filter_append, List.filter_cons, htarget] using hkept

/-- Criteria are made of parts, whose calls are those of the criteria in another order. -/
theorem exists_parts (calls : List Call) : ∃ ps : List Part, ps.map Part.entry = built calls ∧
    ps.Pairwise Part.Before ∧ Rearranges (ps.flatMap Part.calls) calls := by
  induction calls using List.reverseRecOn with
  | nil => exact ⟨[], rfl, .nil, .refl _, fun _ => rfl⟩
  | append_singleton calls call ih =>
    obtain ⟨ps, hentries, hps, horder⟩ := ih
    obtain ⟨qs, hentries', hqs, before, after, hold, hnew, hafter⟩ := exists_parts_apply call hps
    rw [hold] at horder
    refine ⟨qs, ?_, hqs, hnew ▸ horder.insert hafter⟩
    rw [hentries', hentries, built, built, List.foldl_append]
    rfl

theorem yields_parts (ps : List Part) : Yields (resolve (ps.map Part.entry))
    (∀ call ∈ ps.flatMap Part.calls, ∃ s, call.alone.resolve = .ok s)
    (.concat ((ps.flatMap Part.calls).map Call.selection)) := by
  have hparts := (Yields.mapM fun p (_ : p ∈ ps) => p.made.yields).map Selection.concat
  have hall := (hparts.of_eq (y := resolve (ps.map Part.entry))
    (by rw [resolve_eq, List.mapM_map]; rfl)).of_iff
      (Q := ∀ call ∈ ps.flatMap Part.calls, ∃ s, call.alone.resolve = .ok s)
      List.forall_mem_flatMap
  simpa [Selection.concat, List.flatMap_map, List.flatMap_assoc] using hall

/-- A call that adds to the operators of a field makes one condition on that field, and no
alternatives. -/
theorem Call.selection_of_target? (h : call.target? = some field)
    (hs : call.alone.resolve = .ok s) :
    ∃ c, call.selection = ⟨[c], []⟩ ∧ c.field = field := by
  have hsel : call.selection = s := by rw [selection, hs]; rfl
  rw [call.alone_eq, resolve_singleton] at hs
  cases call with
  | op name operator operand =>
    cases h
    change resolveEntry (field, .operators [(operator, operand)]) = .ok s at hs
    unfold resolveEntry at hs
    split at hs
    · cases hs
    · split at hs
      · cases hs
      · obtain ⟨cs, hcs, rfl⟩ := map_eq_ok hs
        have hsingle : (Operand.operators [(operator, operand)]).IsSingle := rfl
        obtain ⟨c, rfl⟩ := single_of_resolveField hsingle hcs
        exact ⟨c, hsel, field_of_resolveField hcs c (List.mem_singleton_self c)⟩
  | _ => cases h

/-- Calls with a target make no alternatives, and the others keep their order. -/
theorem Rearranges.orGroups_eq {order calls : List Call} (h : Rearranges order calls)
    (hs : ∀ call ∈ calls, ∃ s, call.alone.resolve = .ok s) :
    (order.flatMap fun call => call.selection.orGroups) =
      calls.flatMap fun call => call.selection.orGroups := by
  have hplain : ∀ cs : List Call, (∀ call ∈ cs, ∃ s, call.alone.resolve = .ok s) →
      (cs.flatMap fun call => call.selection.orGroups) =
        (cs.filter (·.target? = none)).flatMap fun call => call.selection.orGroups := by
    intro cs hcs
    induction cs with
    | nil => rfl
    | cons call cs ih =>
      obtain ⟨⟨s, hs⟩, hcs⟩ := List.forall_mem_cons.mp hcs
      rw [List.flatMap_cons, ih hcs, List.filter_cons]
      cases htarget : call.target? with
      | none => rfl
      | some field =>
        obtain ⟨c, hc, -⟩ := call.selection_of_target? htarget hs
        simp [hc]
  rw [hplain calls hs, hplain order fun call hcall => hs call (h.perm.mem_iff.mp hcall), h.kept]

/-- Criteria resolve exactly if every call does alone, and then to what the calls resolve to.
Their conditions are those of the calls in another order, in which calls that add to the
operators of one field have kept theirs, and their alternatives are those of the calls. -/
theorem resolve_built (calls : List Call) :
    ((∃ s, (built calls).resolve = .ok s) ↔ ∀ call ∈ calls, ∃ s, call.alone.resolve = .ok s) ∧
    ∀ s, (built calls).resolve = .ok s →
      s.conditions.Perm (calls.flatMap fun call => call.selection.conditions) ∧
      (∃ order, Rearranges order calls ∧
        s.conditions = order.flatMap fun call => call.selection.conditions) ∧
      s.orGroups = (calls.flatMap fun call => call.selection.orGroups) ∧
      ∀ call ∈ calls, ∀ field, call.target? = some field →
        ∃ c, call.selection = ⟨[c], []⟩ ∧ c.field = field := by
  obtain ⟨ps, hentries, -, horder⟩ := exists_parts calls
  have hyields := hentries ▸ yields_parts ps
  have hall : (∃ s, (built calls).resolve = .ok s) ↔
      ∀ call ∈ calls, ∃ s, call.alone.resolve = .ok s := by
    rw [hyields.isOk_iff]
    simp only [horder.perm.mem_iff]
  refine ⟨hall, fun s hs => ?_⟩
  have hresolve := hall.mp ⟨s, hs⟩
  obtain ⟨-, rfl⟩ := (hyields s).mp hs
  have hconditions : (Selection.concat ((ps.flatMap Part.calls).map Call.selection)).conditions =
      (ps.flatMap Part.calls).flatMap fun call => call.selection.conditions := List.flatMap_map ..
  have hgroups : (Selection.concat ((ps.flatMap Part.calls).map Call.selection)).orGroups =
      (ps.flatMap Part.calls).flatMap fun call => call.selection.orGroups := List.flatMap_map ..
  refine ⟨?_, ⟨_, horder, hconditions⟩, hgroups.trans (horder.orGroups_eq hresolve), ?_⟩
  · rw [hconditions]
    exact horder.perm.flatMap_right _
  · intro call hcall field htarget
    obtain ⟨t, ht⟩ := hresolve call hcall
    exact call.selection_of_target? htarget ht

example : built [.op "age" "$gte" (.scalar (.integer 18)), .eq "active" (.boolean true),
      .op "age" "$lt" (.scalar (.integer 65))] =
    [("age", .operators [("$gte", .scalar (.integer 18)), ("$lt", .scalar (.integer 65))]),
      ("active", .scalar (.boolean true))] := rfl

end

end Criteria

end LiveQuery
