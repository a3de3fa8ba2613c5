import LiveQuery.Proofs.Membership
import LiveQuery.Proofs.Table
import Mathlib.Data.List.MinMax

/-! Where an incremental subscription starts. Its first watermark is the greatest id that matches at
that moment, or zero if nothing does. So a row behind the start is past the watermark if some rows
matched and its id is above theirs, and with nothing there to begin with only if its id is
positive. -/

namespace LiveQuery

/-- As many values are bound in a fragment as its formula has placeholders. -/
def Fits (c : Fragment) (f : Formula) : Prop := c.params.length = f.marks

variable {cs : List Fragment} {fs : List Formula}

theorem length_params_of_fits (h : List.Forall₂ Fits cs fs) :
    (cs.flatMap Fragment.params).length = Formula.marksAll fs := by
  induction h with
  | nil => rfl
  | cons hf _ ih => rw [List.flatMap_cons, List.length_append, hf, ih, Formula.marksAll]

theorem Formula.marks_foldl (op : BinaryOp) (f : Formula) (fs : List Formula) :
    (fs.foldl (binary op) f).marks = f.marks + marksAll fs := by
  induction fs generalizing f with
  | nil => rfl
  | cons g fs ih => rw [List.foldl_cons, ih, marks, marksAll, Nat.add_assoc]

theorem fits_joined (separator : String) (op : BinaryOp) {c : Fragment} {f : Formula}
    (h : List.Forall₂ Fits (c :: cs) (f :: fs)) :
    Fits (Fragment.joined separator (c :: cs)) (fs.foldl (.binary op) f) := by
  rw [Fits, Fragment.params_joined, length_params_of_fits h, Formula.marks_foldl, Formula.marksAll]

namespace Expression

theorem fits_items {es : List Expression} (h : ∀ e ∈ es, Fits e.fragment e.formula) :
    (Fragment.joined ", " (fragments es)).params.length = Formula.marksAll (formulas es) := by
  rw [Fragment.params_joined, fragments_eq_map, formulas_eq_map]
  exact length_params_of_fits (List.forall₂_map_left_iff.mpr (List.forall₂_map_right_iff.mpr
    (List.forall₂_same.mpr h)))

theorem fits_fragment (e : Expression) : Fits e.fragment e.formula := by
  induction e with
  | column name => rfl
  | literal v => rfl
  | binary op l r ihl ihr =>
    rw [Fits] at ihl ihr
    simp [Fits, fragment, formula, Formula.marks, ihl, ihr]
  | unary op e ih => cases op <;> simpa [Fits, fragment, formula, Formula.marks] using ih
  | call name args ih =>
    have hargs := fits_items ih
    simpa [Fits, fragment, formula, Formula.marks] using hargs
  | member negated e items ih ihs =>
    cases items with
    | nil => cases negated <;> rfl
    | cons item items =>
      have hitems := fits_items ihs
      rw [Fits] at ih
      simp [Fits, fragment, formula, Formula.marks, ih, hitems]

end Expression

namespace Query

variable {q : Query} {qualify : Bool}

theorem fits_conditions (q : Query) (qualify : Bool) (cs : List Condition) :
    List.Forall₂ Fits (cs.map (q.condition qualify)) (cs.map (q.conditionFormula qualify)) :=
  List.forall₂_map_left_iff.mpr (List.forall₂_map_right_iff.mpr
    (List.forall₂_same.mpr fun c _ => q.length_values c))

theorem fits_groups (q : Query) (qualify : Bool) (gs : List OrGroup) :
    List.Forall₂ Fits (gs.filterMap (q.orGroup? qualify))
      (gs.filterMap fun g => Formula.joined? .or (g.map (q.conditionFormula qualify))) := by
  induction gs with
  | nil => exact .nil
  | cons g gs ih =>
    cases g with
    | nil => exact ih
    | cons c cs =>
      have hgroup := fits_joined " OR " .or (q.fits_conditions qualify (c :: cs))
      rw [List.filterMap_cons_some (q.orGroup?_cons qualify c cs)]
      refine .cons ?_ ih
      simpa [Fits] using hgroup

theorem fits_clauses (q : Query) (qualify : Bool) :
    List.Forall₂ Fits (q.clauses qualify) (q.conjuncts qualify) := by
  refine List.rel_append ?_ (q.fits_groups qualify q.orGroups)
  cases q.tree with
  | none => exact q.fits_conditions qualify q.conditions
  | some e => exact .cons e.fits_fragment .nil

theorem fits_predicate (q : Query) (qualify : Bool) :
    (q.predicate? qualify = none ∧ q.formula? qualify = none) ∨
      ∃ p f, q.predicate? qualify = some p ∧ q.formula? qualify = some f ∧ Fits p f := by
  have hclauses := q.fits_clauses qualify
  unfold predicate? formula?
  generalize q.clauses qualify = cs at hclauses ⊢
  generalize q.conjuncts qualify = fs at hclauses ⊢
  cases hclauses with
  | nil => exact .inl ⟨rfl, rfl⟩
  | cons hf hfs => exact .inr ⟨_, _, rfl, rfl, fits_joined " AND " .and (.cons hf hfs)⟩

end Query

/-- The row has this id under the name: a comparison with a watermark goes by it. -/
def Valuation.Identifies (row : Valuation) (parts : List Part) (id : Int64) : Prop :=
  ∀ n, row (.binary .gt (.name parts) .placeholder) [.integer n] = .ofBool (n < id)

/-- A row of which nothing is compared but its id. -/
def Valuation.ofId (id : Int64) : Valuation
  | .binary .gt _ .placeholder, [.integer n] => .ofBool (n < id)
  | _, _ => .unknown

theorem Valuation.identifies_ofId (parts : List Part) (id : Int64) :
    (ofId id).Identifies parts id := fun _ => rfl

namespace Query

variable {q : Query} {row : Valuation} {idColumn : String} {id watermark : Int64}

/-- Whether what the incremental statement says of rows (`Named.says_incremental`), with the values
sent along, is true of the row. -/
def Finds (q : Query) (idColumn : String) (watermark : Int64) (row : Valuation) : Prop :=
  (q.pastFormula idColumn).truth row (q.incremental idColumn watermark).params = .yes

theorem finds_iff (h : row.Identifies (bareParts (qualified q.table idColumn)) id) :
    q.Finds idColumn watermark row ↔ q.Passes q.hasJoins row ∧ watermark < id := by
  let past : Formula := .binary .gt (.name (bareParts (qualified q.table idColumn))) .placeholder
  have hpast : past.truth row [.integer watermark] = .yes ↔ watermark < id := by
    have hrow : past.truth row [.integer watermark] = .ofBool (watermark < id) := h watermark
    rw [hrow, Truth.ofBool_eq_yes, decide_eq_true_iff]
  unfold Finds Passes pastFormula incremental incrementalFragment pastClause
  rcases q.fits_predicate q.hasJoins with ⟨hp, hf⟩ | ⟨p, f, hp, hf, hfits⟩
  · rw [hp, hf]
    simpa [Fragment.statement] using hpast
  · rw [hp, hf]
    have hand : (Formula.binary .and f past).truth row (p.params ++ [.integer watermark]) =
        (f.truth row p.params).and (past.truth row [.integer watermark]) :=
      Formula.truth_and hfits
    simp only [past] at hand hpast
    simp [Fragment.statement, hand, hpast]

theorem passes_of_unfiltered {qualify : Bool} (h : q.formula? qualify = none) :
    q.Passes qualify row := by
  intro f p hf
  rw [h] at hf
  cases hf

end Query

theorem exists_isMaximum (es : List Entry) : ∃ v, IsMaximum es v := by
  cases hm : es.argmax fun e => e.id.toInt with
  | none => exact ⟨.null, List.argmax_eq_none.mp hm⟩
  | some e =>
    refine ⟨.integer e.id, ⟨e, List.argmax_mem hm, rfl⟩, fun x hx => ?_⟩
    have hle : x.id.toInt ≤ e.id.toInt := List.le_of_mem_argmax (f := fun e => e.id.toInt) hx hm
    exact Int64.le_iff_toInt_le.mpr hle

theorem exists_isFingerprint (es : List Entry) : ∃ r, IsFingerprint es r := by
  obtain ⟨v, hv⟩ := exists_isMaximum es
  exact ⟨.ofColumns [("row_count", .integer (Int64.ofNat es.length)), ("max_id", v)],
    ⟨rfl, v, rfl, hv⟩⟩

namespace Table

open IncrementalPoller (start)

variable {selects : Entry → Bool} {ctx : Context} {q : Query} {base : Table}

theorem exists_start : ∃ p, (start ctx q).run.Ends (answers selects ctx q) base (.ok p) base := by
  obtain ⟨r, hr⟩ := exists_isFingerprint (base.matching selects)
  have htoken : ctx.ReadsToken (answers selects ctx q) base "" base := by
    unfold Context.ReadsToken
    split
    · exact ⟨rfl, trivial⟩
    · exact ⟨rfl, rfl⟩
  exact ⟨_, IncrementalPoller.ends_start.mpr ⟨_, Context.ends_capture.mpr
    ⟨"", base, [r], htoken, ⟨rfl, replies_fingerprint true hr⟩, rfl⟩, rfl⟩⟩

theorem mem_past_iff {cells : Entry → Valuation} (watermark : Int64) (t : Table) {e : Entry}
    (hid : (cells e).Identifies (bareParts (qualified q.table ctx.config.idColumn)) e.id)
    (hselects : selects e = true ↔ q.Passes q.hasJoins (cells e)) :
    e ∈ t.past selects watermark ↔
      e ∈ t.rows ∧ q.Finds ctx.config.idColumn watermark (cells e) := by
  rw [mem_past, Query.finds_iff hid, matching, List.mem_filter, hselects, and_assoc]

/-- The start is past every row that matches at that moment and before every row behind it that has
a greater id than all of them. With nothing there it is before the positive ids only. The first
batch has the rows that are found from there, whatever the table is by then. -/
theorem start_separates {cells : Entry → Valuation}
    (hid : ∀ e, (cells e).Identifies (bareParts (qualified q.table ctx.config.idColumn)) e.id)
    (hselects : ∀ e, selects e = true ↔ q.Passes q.hasJoins (cells e)) :
    (∃ p, (start ctx q).run.Ends (answers selects ctx q) base (.ok p) base) ∧
      ∀ p u, (start ctx q).run.Ends (answers selects ctx q) base (.ok p) u →
        let finds e := p.query.Finds ctx.config.idColumn p.watermark (cells e)
        (∀ e ∈ base.matching selects, ¬finds e) ∧
          (base.matching selects ≠ [] → ∀ e, selects e = true →
            (∀ b ∈ base.matching selects, b.id < e.id) → finds e) ∧
          (base.matching selects = [] → p.watermark = 0 ∧
            ∀ e, selects e = true → (finds e ↔ 0 < e.id)) ∧
          ∀ t v b, (p.fetch ctx).run.Ends (answers selects ctx q) t (.ok (some b)) v →
            ∃ found, List.Forall₂ Entry.Shows found b.rows ∧
              ∀ e, e ∈ found ↔ e ∈ t.rows ∧ finds e := by
  refine ⟨exists_start, fun p u hp => ?_⟩
  obtain ⟨s, hs, rfl⟩ := IncrementalPoller.ends_start.mp hp
  obtain ⟨r, hr, hmax⟩ := fingerprint_of_capture hs
  have hfinds (e : Entry) : q.Finds ctx.config.idColumn s.maxRowId (cells e) ↔
      selects e = true ∧ s.maxRowId < e.id := by
    rw [Query.finds_iff (hid e), hselects]
  refine ⟨fun e he hf => ?_, fun hne e he hb => ?_, fun hnone => ?_, fun t v b hb => ?_⟩
  · have hle := hmax ▸ hr.le_reading e he
    exact Int64.not_lt.mpr hle ((hfinds e).mp hf).2
  · obtain ⟨b, hmem, hbid⟩ := hr.exists_reading hne
    exact (hfinds e).mpr ⟨he, hmax ▸ hbid ▸ hb b hmem⟩
  · have hzero : s.maxRowId = 0 := hmax.trans (hnone ▸ hr).reading_eq_zero
    exact ⟨hzero, fun e he => (hfinds e).trans (hzero ▸ and_iff_right he)⟩
  · obtain ⟨-, found, hperm, -, hshows⟩ := found_of_fetch (by rfl) hb
    refine ⟨found, hshows, fun e => ?_⟩
    exact hperm.mem_iff.trans (mem_past_iff s.maxRowId t (hid e) (hselects e))

theorem start_separates_four :
    ∃ p, (start {} { table := "events" }).run.Ends
        (answers (fun _ => true) {} { table := "events" }) ⟨[⟨4, {}⟩], [⟨4, {}⟩], by simp⟩ (.ok p)
        ⟨[⟨4, {}⟩], [⟨4, {}⟩], by simp⟩ ∧
      ¬p.query.Finds "id" p.watermark (.ofId 4) ∧ p.query.Finds "id" p.watermark (.ofId 9) := by
  let q : Query := { table := "events" }
  let selects : Entry → Bool := fun _ => true
  let cells (e : Entry) : Valuation := .ofId e.id
  let base : Table := ⟨[⟨4, {}⟩], [⟨4, {}⟩], by simp⟩
  have hid (e : Entry) : (cells e).Identifies (bareParts (qualified q.table "id")) e.id :=
    Valuation.identifies_ofId _ e.id
  have hselects (e : Entry) : selects e = true ↔ q.Passes q.hasJoins (cells e) :=
    iff_of_true rfl (Query.passes_of_unfiltered rfl)
  have hmatching : base.matching selects = [⟨4, {}⟩] := rfl
  obtain ⟨⟨p, hp⟩, hall⟩ := @start_separates selects {} q base cells hid hselects
  obtain ⟨hold, hnew, -⟩ := hall p _ hp
  rw [hmatching] at hold hnew
  exact ⟨p, hp, hold ⟨4, {}⟩ (by simp), hnew (by simp) ⟨9, {}⟩ rfl (by simp)⟩

/-- A row that comes into an empty table with a negative id is never past the start. -/
theorem start_misses_negative :
    let q : Query := { table := "events" }
    let base : Table := ⟨[], [], by simp⟩
    base.matching (fun _ => true) = [] ∧ q.Passes q.hasJoins (.ofId (-5)) ∧
      (∃ p, (start {} q).run.Ends (answers (fun _ => true) {} q) base (.ok p) base) ∧
      ∀ p u, (start {} q).run.Ends (answers (fun _ => true) {} q) base (.ok p) u →
        ¬p.query.Finds "id" p.watermark (.ofId (-5)) := by
  intro q base
  refine ⟨rfl, Query.passes_of_unfiltered rfl, exists_start, fun p u hp hf => ?_⟩
  obtain ⟨s, hs, rfl⟩ := IncrementalPoller.ends_start.mp hp
  obtain ⟨r, hr, hmax⟩ := fingerprint_of_capture hs
  have hzero : s.maxRowId = 0 := hmax.trans hr.reading_eq_zero
  have hlt : s.maxRowId < -5 := ((Query.finds_iff (Valuation.identifies_ofId _ _)).mp hf).2
  rw [hzero] at hlt
  exact absurd hlt (by decide)

end Table

end LiveQuery
