import LiveQuery.Proofs.Entries
import LiveQuery.Row
import Mathlib.Data.List.Induction

/-! A row as the changes made to it have left it. Under each name is what was set last, and the
columns stand in the order in which they came, which is when each was first set since it was last
removed. -/

namespace LiveQuery

namespace Row

/-- One call that changes a row. A column is set in the same way while a row is being built. -/
inductive Change
  | set (column : String) (v : Value)
  | remove (column : String)
  | setRelated (relation : String) (rows : List Row)

/-- What a change is about. Columns and relations have their names apart. -/
inductive Target
  | column (name : String)
  | relation (name : String)

namespace Change

def target : Change → Target
  | set column _ => .column column
  | remove column => .column column
  | setRelated relation _ => .relation relation

def isColumn : Change → Bool
  | setRelated _ _ => false
  | _ => true

end Change

def change (r : Row) : Change → Row
  | .set column v => r.set column v
  | .remove column => (r.take column).2
  | .setRelated relation rows => r.setRelated relation rows

def changes (r : Row) (h : List Change) : Row := h.foldl change r

def names (r : Row) : List String := r.columns.map Prod.fst

/-- The change is the last one of what it is about. -/
def Last (h : List Change) (k : Change) : Prop :=
  ∃ before after, h = before ++ k :: after ∧ ∀ k' ∈ after, k'.target ≠ k.target

/-- Whenever the column has been set, it has been removed again. -/
def Gone (h : List Change) (column : String) : Prop :=
  ∀ before v after, h = before ++ .set column v :: after → .remove column ∈ after

/-- The column has been in the row since the change after the first `i`, which has set it. -/
def Since (h : List Change) (column : String) (i : Nat) : Prop :=
  ∃ before v after, h = before ++ .set column v :: after ∧ before.length = i ∧
    Gone before column ∧ .remove column ∉ after

variable {r : Row} {h : List Change} {k : Change} {column : String} {v : Value} {i j : Nat}

theorem take_eq (r : Row) (column : String) : r.take column = (r.get? column, r.remove column) := by
  obtain ⟨columns, related⟩ := r
  rw [take, Keyed.take?_eq]
  simp only [get?, remove]
  cases hget : Keyed.get? column columns with
  | none => rw [Keyed.erase_of_get?_eq_none hget, Option.map_none]
  | some v => rfl

theorem changes_concat (r : Row) (h : List Change) (k : Change) :
    r.changes (h ++ [k]) = (r.changes h).change k := by
  rw [changes, changes, List.foldl_concat]

theorem ofColumns_eq (columns : List (String × Value)) :
    ofColumns columns = changes {} (columns.map fun p => .set p.1 p.2) := by
  rw [ofColumns, changes, List.foldl_map]
  rfl

/-! ### Histories with one more change -/

theorem concat_eq_split {α : Type} {l before after : List α} {x y : α}
    (he : l ++ [x] = before ++ y :: after) :
    (l = before ∧ x = y ∧ after = []) ∨ ∃ rest, after = rest ++ [x] ∧ l = before ++ y :: rest := by
  rcases List.eq_nil_or_concat after with rfl | ⟨rest, z, rfl⟩
  · obtain ⟨rfl, hx⟩ := List.append_inj' he rfl
    exact .inl ⟨rfl, by simpa using hx, rfl⟩
  · have he' : l ++ [x] = (before ++ y :: rest) ++ [z] := by simpa using he
    obtain ⟨rfl, hx⟩ := List.append_inj' he' rfl
    obtain rfl : x = z := by simpa using hx
    exact .inr ⟨rest, by simp, rfl⟩

theorem last_concat {k' : Change} :
    Last (h ++ [k']) k ↔ k' = k ∨ k'.target ≠ k.target ∧ Last h k := by
  constructor
  · rintro ⟨before, after, he, hafter⟩
    rcases concat_eq_split he with ⟨-, hk, -⟩ | ⟨rest, rfl, rfl⟩
    · exact .inl hk
    · refine .inr ⟨hafter k' (by simp), before, rest, rfl, fun x hx => ?_⟩
      exact hafter x (List.mem_append_left _ hx)
  · rintro (rfl | ⟨hne, before, after, rfl, hafter⟩)
    · exact ⟨h, [], rfl, by simp⟩
    · refine ⟨before, after ++ [k'], by simp, fun x hx => ?_⟩
      rcases List.mem_append.mp hx with hx | hx
      · exact hafter x hx
      · exact List.mem_singleton.mp hx ▸ hne

theorem gone_concat :
    Gone (h ++ [k]) column ↔ k = .remove column ∨ (∀ v, k ≠ .set column v) ∧ Gone h column := by
  constructor
  · intro hg
    by_cases hk : k = .remove column
    · exact .inl hk
    · refine .inr ⟨?_, fun before v after he => ?_⟩
      · rintro v rfl
        simpa using hg h v [] rfl
      · have hmem := hg before v (after ++ [k]) (by simp [he])
        exact (List.mem_append.mp hmem).resolve_right (by simpa using Ne.symm hk)
  · intro hg before v after he
    rcases concat_eq_split he with ⟨-, hk, -⟩ | ⟨rest, rfl, rfl⟩
    · rcases hg with rfl | ⟨hne, -⟩
      · cases hk
      · exact absurd hk (hne v)
    · rcases hg with rfl | ⟨-, hg⟩
      · simp
      · exact List.mem_append_left _ (hg before v rest rfl)

theorem Since.concat (hs : Since h column i) (hk : k ≠ .remove column) :
    Since (h ++ [k]) column i := by
  obtain ⟨before, v, after, rfl, hi, hg, hafter⟩ := hs
  refine ⟨before, v, after ++ [k], by simp, hi, hg, ?_⟩
  simpa [hafter] using Ne.symm hk

theorem Gone.since_concat (hg : Gone h column) (v : Value) :
    Since (h ++ [.set column v]) column h.length :=
  ⟨h, v, [], rfl, rfl, hg, by simp⟩

theorem Since.lt (hs : Since h column i) : i < h.length := by
  obtain ⟨before, v, after, rfl, rfl, -⟩ := hs
  simp

theorem Since.not_gone (hs : Since h column i) : ¬Gone h column := by
  obtain ⟨before, v, after, he, -, -, hafter⟩ := hs
  exact fun hg => hafter (hg before v after he)

/-- A column in the row has come once. -/
theorem Since.unique (hi : Since h column i) (hj : Since h column j) : i = j := by
  have hle {i j : Nat} (hi : Since h column i) (hj : Since h column j) : j ≤ i := by
    obtain ⟨before, v, after, rfl, rfl, -, hafter⟩ := hi
    obtain ⟨before', v', after', he, rfl, hgone, -⟩ := hj
    by_contra hlt
    -- the later of two sets would have been made while the column was gone
    rcases List.append_eq_append_iff.mp he with ⟨mid, rfl, hmid⟩ | ⟨mid, rfl, -⟩
    · cases mid with
      | nil => simp at hlt
      | cons k mid =>
        obtain ⟨rfl, rfl⟩ := List.cons.inj hmid
        exact hafter (List.mem_append_left _ (hgone before v mid rfl))
    · simp at hlt
  exact Nat.le_antisymm (hle hj hi) (hle hi hj)

/-! ### What a row keeps of its history -/

/-- A row against the changes that have led to it. -/
structure Keeps (h : List Change) (r : Row) : Prop where
  distinct : r.names.Nodup
  value : ∀ column v, r.get? column = some v ↔ Last h (.set column v)
  absent : ∀ column, column ∉ r.names → Gone h column
  present : ∀ column ∈ r.names, ∃ i, Since h column i
  ordered : r.names.Pairwise fun a b => ∃ i j, i < j ∧ Since h a i ∧ Since h b j
  group : ∀ relation rows, r.related? relation = some rows ↔ Last h (.setRelated relation rows)

theorem keeps_nil : Keeps [] {} := by
  constructor <;> simp [names, get?, related?, Keyed.get?, Last, Gone]

theorem get?_set (r : Row) (column other : String) (v : Value) :
    (r.set column v).get? other = if column = other then some v else r.get? other := by
  by_cases hc : column = other
  · rw [if_pos hc, ← hc]
    exact Keyed.get?_put_self column v r.columns
  · rw [if_neg hc]
    exact Keyed.get?_put_of_ne (Ne.symm hc) v r.columns

theorem names_remove (hd : r.names.Nodup) (column : String) :
    (r.remove column).names = r.names.filter (· ≠ column) := by
  rw [names, remove, Keyed.erase_eq_filter hd, names, List.filter_map]
  rfl

theorem get?_remove (hd : r.names.Nodup) (column other : String) :
    (r.remove column).get? other = if column = other then none else r.get? other := by
  by_cases hc : column = other
  · rw [if_pos hc, ← hc]
    exact Keyed.get?_eq_none (Keyed.not_mem_erase hd)
  · rw [if_neg hc]
    exact Keyed.get?_erase_of_ne (Ne.symm hc) r.columns

theorem Keeps.ordered_concat (hr : Keeps h r) {names : List String}
    (hn : names.Sublist r.names) (hk : ∀ column ∈ names, k ≠ .remove column) :
    names.Pairwise fun a b => ∃ i j, i < j ∧ Since (h ++ [k]) a i ∧ Since (h ++ [k]) b j := by
  refine (hr.ordered.sublist hn).imp_of_mem fun ha hb => ?_
  rintro ⟨i, j, hij, hi, hj⟩
  exact ⟨i, j, hij, hi.concat (hk _ ha), hj.concat (hk _ hb)⟩

theorem Keeps.set (hr : Keeps h r) (column : String) (v : Value) :
    Keeps (h ++ [.set column v]) (r.set column v) := by
  have hnames := Keyed.names_put column v r.columns
  have hkept : ∀ other ∈ r.names, Change.set column v ≠ .remove other := by simp
  refine ⟨Keyed.nodup_put hr.distinct column v, fun other w => ?_, fun other hn => ?_, ?_, ?_, ?_⟩
  · rw [get?_set, last_concat, ← hr.value]
    by_cases hc : column = other
    · simp [hc, Change.target]
    · simp [hc, Change.target]
  · have hother := mt Keyed.mem_put.mpr hn
    rw [not_or] at hother
    refine gone_concat.mpr (.inr ⟨fun w he => ?_, hr.absent other hother.2⟩)
    cases he
    exact hother.1 rfl
  · intro other hn
    by_cases hmem : other ∈ r.names
    · obtain ⟨i, hi⟩ := hr.present other hmem
      exact ⟨i, hi.concat (hkept other hmem)⟩
    · obtain rfl := (Keyed.mem_put.mp hn).resolve_right hmem
      exact ⟨h.length, (hr.absent other hmem).since_concat v⟩
  · rw [names, show (r.set column v).columns = Keyed.put column v r.columns from rfl, hnames]
    have hold := hr.ordered_concat (List.Sublist.refl _) hkept
    split
    · exact hold
    · rename_i hmem
      refine List.pairwise_append.mpr ⟨hold, List.pairwise_singleton _ _, fun a ha b hb => ?_⟩
      obtain ⟨i, hi⟩ := hr.present a ha
      rw [List.mem_singleton.mp hb]
      exact ⟨i, h.length, hi.lt, hi.concat (hkept a ha), (hr.absent column hmem).since_concat v⟩
  · intro relation rows
    rw [last_concat, ← hr.group]
    exact ⟨fun hg => .inr ⟨nofun, hg⟩, fun hg => (hg.resolve_left nofun).2⟩

theorem Keeps.remove (hr : Keeps h r) (column : String) :
    Keeps (h ++ [.remove column]) (r.remove column) := by
  have hnames := names_remove hr.distinct column
  have hmem {other : String} : other ∈ (r.remove column).names ↔ other ∈ r.names ∧ other ≠ column := by
    rw [hnames, List.mem_filter, decide_eq_true_iff]
  have hkept : ∀ other ∈ (r.remove column).names, Change.remove column ≠ .remove other := by
    rintro other hn he
    cases he
    exact (hmem.mp hn).2 rfl
  refine ⟨?_, fun other w => ?_, fun other hn => ?_, fun other hn => ?_, ?_, ?_⟩
  · rw [hnames]
    exact hr.distinct.filter _
  · rw [get?_remove hr.distinct, last_concat, ← hr.value]
    by_cases hc : column = other
    · simp [hc, Change.target]
    · simp [hc, Change.target]
  · by_cases hc : column = other
    · exact gone_concat.mpr (.inl (hc ▸ rfl))
    · refine gone_concat.mpr (.inr ⟨nofun, hr.absent other fun hold => ?_⟩)
      exact hn (hmem.mpr ⟨hold, Ne.symm hc⟩)
  · obtain ⟨i, hi⟩ := hr.present other (hmem.mp hn).1
    exact ⟨i, hi.concat (hkept other hn)⟩
  · exact hr.ordered_concat (hnames ▸ List.filter_sublist) hkept
  · intro relation rows
    rw [last_concat, ← hr.group]
    exact ⟨fun hg => .inr ⟨nofun, hg⟩, fun hg => (hg.resolve_left nofun).2⟩

theorem Keeps.setRelated (hr : Keeps h r) (relation : String) (rows : List Row) :
    Keeps (h ++ [.setRelated relation rows]) (r.setRelated relation rows) := by
  refine ⟨hr.distinct, fun column v => ?_, fun column hn => ?_, fun column hn => ?_, ?_, ?_⟩
  · rw [last_concat, ← hr.value]
    exact ⟨fun hv => .inr ⟨nofun, hv⟩, fun hv => (hv.resolve_left nofun).2⟩
  · exact gone_concat.mpr (.inr ⟨nofun, hr.absent column hn⟩)
  · obtain ⟨i, hi⟩ := hr.present column hn
    exact ⟨i, hi.concat nofun⟩
  · exact hr.ordered_concat (List.Sublist.refl _) nofun
  · intro other found
    rw [last_concat, ← hr.group]
    by_cases hc : relation = other
    · subst hc
      have hget : (r.setRelated relation rows).related? relation = some rows :=
        Keyed.get?_insert_self relation rows r.related
      simp [hget, Change.target]
    · have hget : (r.setRelated relation rows).related? other = r.related? other :=
        Keyed.get?_insert_of_ne (Ne.symm hc) rows r.related
      simp [hget, hc, Change.target]

/-- Each change keeps the row in line with its history. -/
theorem Keeps.change (hr : Keeps h r) (k : Change) : Keeps (h ++ [k]) (r.change k) := by
  cases k with
  | set column v => exact hr.set column v
  | remove column =>
    have htake : r.change (.remove column) = r.remove column := by
      rw [Row.change, take_eq]
    exact htake ▸ hr.remove column
  | setRelated relation rows => exact hr.setRelated relation rows

theorem keeps_changes (h : List Change) : Keeps h (changes {} h) := by
  induction h using List.reverseRecOn with
  | nil => exact keeps_nil
  | append_singleton h k ih => exact changes_concat {} h k ▸ ih.change k

/-- Changes of the related collections do not show in the columns. -/
theorem columns_changes {r' : Row} (hr : r.columns = r'.columns) (h : List Change) :
    (r.changes h).columns = (r'.changes (h.filter Change.isColumn)).columns := by
  induction h generalizing r r' with
  | nil => exact hr
  | cons k h ih =>
    cases k with
    | set column v => exact ih (by simp [change, set, hr])
    | remove column => exact ih (by simp [change, take_eq, remove, hr])
    | setRelated relation rows => exact ih hr

/-- Changes of the columns do not show in the related collections. -/
theorem related_changes {r' : Row} (hr : r.related = r'.related) (h : List Change) :
    (r.changes h).related = (r'.changes (h.filter (!·.isColumn))).related := by
  induction h generalizing r r' with
  | nil => exact hr
  | cons k h ih =>
    cases k with
    | set column v => exact ih hr
    | remove column => exact ih (by simpa [change, take_eq, remove] using hr)
    | setRelated relation rows => exact ih (by simp [change, setRelated, hr])

/-- A row is an ordered map, whatever has been done to it since it was built from some columns. -/
theorem ordered_map_of_changes (columns : List (String × Value)) (calls : List Change) :
    let r := (ofColumns columns).changes calls
    let h := columns.map (fun p => .set p.1 p.2) ++ calls
    r.names.Nodup ∧
      (∀ column v, r.get? column = some v ↔ Last h (.set column v)) ∧
      (∀ column, column ∈ r.names ↔ ∃ i, Since h column i) ∧
      r.names.Pairwise (fun a b => ∀ i j, Since h a i → Since h b j → i < j) ∧
      (∀ column, r.take column =
        (r.get? column, { r with columns := r.columns.filter fun p => p.1 ≠ column })) ∧
      (∀ relation rows, r.related? relation = some rows ↔ Last h (.setRelated relation rows)) ∧
      r.columns = (changes {} (h.filter Change.isColumn)).columns ∧
      r.related = (changes {} (h.filter (!·.isColumn))).related := by
  intro r h
  have hr : r = changes {} h := by
    simp only [r, h, ofColumns_eq, changes, List.foldl_append]
  have hk : Keeps h r := hr ▸ keeps_changes h
  refine ⟨hk.distinct, hk.value, fun column => ⟨hk.present column, ?_⟩, ?_, fun column => ?_,
    hk.group, hr ▸ columns_changes rfl h, hr ▸ related_changes rfl h⟩
  · rintro ⟨i, hi⟩
    exact Classical.not_not.mp fun hn => hi.not_gone (hk.absent column hn)
  · refine hk.ordered.imp ?_
    rintro a b ⟨i, j, hij, hi, hj⟩ i' j' hi' hj'
    rwa [hi'.unique hi, hj'.unique hj]
  · rw [take_eq, Row.remove, Keyed.erase_eq_filter hk.distinct]

/-- A column that comes again after its removal comes last. -/
example : ((ofColumns [("a", .null), ("b", .null)]).changes
    [.set "b" (.boolean true), .remove "a", .set "a" (.boolean false)]).columns =
      [("b", .boolean true), ("a", .boolean false)] := rfl

end Row

end LiveQuery
