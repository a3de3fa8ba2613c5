import LiveQuery.Proofs.Ends
import LiveQuery.Proofs.Entries
import Mathlib.Data.List.Basic

/-! The ids that related rows are loaded for, the calls that load them, and what a row becomes
when their answers are attached to it. -/

namespace LiveQuery

section

variable {idColumn : String} {rows : List Row}

theorem mem_distinct {l : List Int64} {a : Int64} : a ∈ parentIds.distinct l ↔ a ∈ l := by
  fun_induction parentIds.distinct l with
  | case1 => rfl
  | case2 b => rfl
  | case3 b rest ih => simp [ih]
  | case4 b c rest hne ih => simp [ih]

theorem pairwise_distinct {l : List Int64} (h : l.Pairwise (· ≤ ·)) :
    (parentIds.distinct l).Pairwise (· < ·) := by
  fun_induction parentIds.distinct l with
  | case1 => exact .nil
  | case2 b => exact List.pairwise_singleton _ b
  | case3 b rest ih => exact ih (List.pairwise_cons.mp h).2
  | case4 b c rest hne ih =>
    obtain ⟨hb, hrest⟩ := List.pairwise_cons.mp h
    refine List.pairwise_cons.mpr ⟨fun a ha => ?_, ih hrest⟩
    have hbc : b ≤ c := hb c List.mem_cons_self
    have hca : c ≤ a := by
      rcases List.mem_cons.mp (mem_distinct.mp ha) with rfl | ha
      · exact Int64.le_refl a
      · exact (List.pairwise_cons.mp hrest).1 a ha
    grind

theorem mem_parentIds {id : Int64} :
    id ∈ parentIds idColumn rows ↔ ∃ r ∈ rows, r.id? idColumn = some id := by
  rw [parentIds, mem_distinct, List.mem_mergeSort, List.mem_filterMap]

theorem pairwise_parentIds : (parentIds idColumn rows).Pairwise (· < ·) := by
  have hsorted : ((rows.filterMap (Row.id? · idColumn)).mergeSort fun a b => a ≤ b).Pairwise
      fun a b => decide (a ≤ b) = true := List.pairwise_mergeSort (by grind) (by grind) _
  exact pairwise_distinct (hsorted.imp of_decide_eq_true)

theorem parentIds_singleton (r : Row) : parentIds idColumn [r] = (r.id? idColumn).toList := by
  cases h : r.id? idColumn <;> simp [parentIds, h, parentIds.distinct]

end

/-- What a loader answers: rows by the id of their parent. -/
abbrev Groups := List (Int64 × List Row)

def attachAll (idColumn : String) (calls : List (String × Groups)) (r : Row) : Row :=
  calls.foldl (fun r c => attach idColumn c.1 c.2 r) r

section

variable {idColumn name : String} {calls : List (String × Groups)} {groups : Groups} {r r' : Row}

theorem id?_congr (h : r.columns = r'.columns) : r.id? idColumn = r'.id? idColumn := by
  rw [Row.id?, Row.get?, h]
  rfl

theorem groupOf_congr (h : r.columns = r'.columns) :
    groupOf idColumn groups r = groupOf idColumn groups r' := by
  rw [groupOf, groupOf, id?_congr h]

theorem attachAll_columns (calls : List (String × Groups)) (r : Row) :
    (attachAll idColumn calls r).columns = r.columns := by
  induction calls generalizing r with
  | nil => rfl
  | cons c calls ih => exact ih (attach idColumn c.1 c.2 r)

theorem attachAll_other (h : name ∉ calls.map Prod.fst) (r : Row) :
    (attachAll idColumn calls r).related? name = r.related? name := by
  induction calls generalizing r with
  | nil => rfl
  | cons c calls ih =>
    rw [List.map_cons, List.mem_cons, not_or] at h
    exact (ih h.2 _).trans (Keyed.get?_insert_of_ne h.1 _ _)

/-- Of several calls for one name the last one counts. -/
theorem attachAll_own {before after : List (String × Groups)} (h : name ∉ after.map Prod.fst)
    (r : Row) : (attachAll idColumn (before ++ (name, groups) :: after) r).related? name =
      some (groupOf idColumn groups r) := by
  have hsplit : attachAll idColumn (before ++ (name, groups) :: after) r =
      attachAll idColumn after (attach idColumn name groups (attachAll idColumn before r)) := by
    simp [attachAll]
  rw [hsplit, attachAll_other h, ← groupOf_congr (attachAll_columns before r)]
  exact Keyed.get?_insert_self name _ _

/-- Loaders that agree on a row's own id give it the same collections. -/
theorem attachAll_congr {calls' : List (String × Groups)}
    (h : List.Forall₂ (fun c c' => c.1 = c'.1 ∧ groupOf idColumn c.2 r = groupOf idColumn c'.2 r)
      calls calls') : attachAll idColumn calls r = attachAll idColumn calls' r := by
  -- along the calls the row gets collections, but its columns stay those of `r`
  have hgen (s : Row) (hs : s.columns = r.columns) :
      attachAll idColumn calls s = attachAll idColumn calls' s := by
    induction h generalizing s with
    | nil => rfl
    | @cons c c' calls calls' hc _ ih =>
      have hattach : attach idColumn c.1 c.2 s = attach idColumn c'.1 c'.2 s := by
        rw [attach, attach, hc.1, groupOf_congr hs, groupOf_congr hs, hc.2]
      change attachAll idColumn calls (attach idColumn c.1 c.2 s) = _
      rw [hattach]
      exact ih (attach idColumn c'.1 c'.2 s) hs
  exact hgen r rfl

end

variable {ω : Type} {answer : Answers ω} {w v : ω}

/-- Calls for the relations of a table in order, all for the same parents and all answered. -/
def Loads (answer : Answers ω) (table : String) (parents : List Int64) :
    List (String × Groups) → ω → ω → Prop
  | [], w, v => w = v
  | (relation, groups) :: calls, w, v =>
    ∃ u, answer w (.related table relation parents) (.ok groups) u ∧
      Loads answer table parents calls u v

namespace Query

variable {q : Query} {idColumn : String} {parents : List Int64} {relations : List String}
  {rows loaded : List Row}

theorem ends_loadEach_ok :
    (q.loadEach idColumn parents relations rows).run.Ends answer w (.ok loaded) v ↔
      ∃ calls, calls.map Prod.fst = relations ∧ Loads answer q.table parents calls w v ∧
        loaded = rows.map (attachAll idColumn calls) := by
  induction relations generalizing rows w with
  | nil =>
    simp only [loadEach, Inquiry.ends_pure, List.map_eq_nil_iff, exists_eq_left, Loads,
      Except.ok.injEq]
    have hid : rows.map (attachAll idColumn []) = rows := List.map_id rows
    rw [hid, and_comm]
  | cons relation relations ih =>
    simp only [loadEach, Inquiry.ends_bind_ok, Inquiry.ends_related, ih]
    constructor
    · rintro ⟨groups, u, hr, calls, rfl, hl, rfl⟩
      refine ⟨(relation, groups) :: calls, rfl, ⟨u, hr, hl⟩, ?_⟩
      rw [List.map_map]
      rfl
    · rintro ⟨calls, hcalls, hl, rfl⟩
      obtain ⟨c, calls, rfl, rfl, rfl⟩ := List.map_eq_cons_iff.mp hcalls
      obtain ⟨u, hr, hl⟩ := hl
      refine ⟨c.2, u, hr, calls, rfl, hl, ?_⟩
      rw [List.map_map]
      rfl

theorem ends_loadEach_error {before after : List String} {relation : String} {u : ω}
    {calls : List (String × Groups)} {message : String} (hb : calls.map Prod.fst = before)
    (hl : Loads answer q.table parents calls w u)
    (hr : answer u (.related q.table relation parents) (.error message) v) :
    (q.loadEach idColumn parents (before ++ relation :: after) rows).run.Ends answer w
      (.error (.execution message)) v := by
  induction calls generalizing before rows w with
  | nil =>
    cases hb
    cases hl
    have hask : (Dialogue.request (.related q.table relation parents)).Ends answer u
        (.error message) v := Dialogue.ends_request.mpr hr
    have hfails := Inquiry.ends_orFail_error.mpr ⟨message, hask, rfl⟩
    exact Inquiry.ends_bind.mpr (.inl ⟨_, hfails, rfl⟩)
  | cons c calls ih =>
    cases hb
    obtain ⟨t, hc, hl⟩ := hl
    exact Inquiry.ends_bind.mpr (.inr ⟨c.2, t, Inquiry.ends_related.mpr hc, ih rfl hl⟩)

theorem loadRelated_eq_loadEach {ctx : Context} (hrel : ctx.hasRelations = true)
    (hne : rows ≠ []) : q.loadRelated ctx rows = q.loadEach ctx.config.idColumn
      (parentIds ctx.config.idColumn rows) q.relations rows := by
  cases rows with
  | nil => exact absurd rfl hne
  | cons r rows =>
    unfold loadRelated
    cases h : q.relations with
    | nil => rfl
    | cons relation relations => simp [hrel]

theorem loadRelated_nothing {ctx : Context} (h : rows = [] ∨ q.relations = []) :
    q.loadRelated ctx rows = pure rows := by
  unfold loadRelated
  cases hr : q.relations with
  | nil => rfl
  | cons relation relations =>
    obtain rfl : rows = [] := h.resolve_right (by simp [hr])
    rfl

end Query

end LiveQuery
