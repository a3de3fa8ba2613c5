import LiveQuery.Keyed
import Mathlib.Data.List.Nodup

/-! Lists of named entries after a change: what is found under each name, and in which order the
names stand. -/

namespace LiveQuery.Keyed

variable {α : Type} {name other : String} {a : α} {l : List (String × α)}

@[simp] theorem get?_put_self (name : String) (a : α) (l : List (String × α)) :
    get? name (put name a l) = some a := by
  induction l with
  | nil => simp [put, get?]
  | cons p l ih =>
    by_cases h : p.1 = name <;> simp [put, get?, h, ih]

theorem get?_put_of_ne (h : other ≠ name) (a : α) (l : List (String × α)) :
    get? other (put name a l) = get? other l := by
  induction l with
  | nil => simp [put, get?, h.symm]
  | cons p l ih =>
    by_cases hp : p.1 = name
    · simp [put, get?, hp, h.symm]
    · simp [put, get?, hp, ih]

@[simp] theorem erase_put_self (name : String) (a : α) (l : List (String × α)) :
    erase name (put name a l) = erase name l := by
  induction l with
  | nil => simp [put, erase]
  | cons p l ih =>
    by_cases h : p.1 = name <;> simp [put, erase, h, ih]

/-- A new name comes last, and a name that is there keeps its place. -/
theorem names_put (name : String) (a : α) (l : List (String × α)) :
    (put name a l).map Prod.fst =
      if name ∈ l.map Prod.fst then l.map Prod.fst else l.map Prod.fst ++ [name] := by
  induction l with
  | nil => rfl
  | cons p l ih =>
    by_cases hp : p.1 = name
    · rw [put, if_pos hp, List.map_cons, List.map_cons, if_pos (by simp [hp])]
    · rw [put, if_neg hp, List.map_cons, List.map_cons, ih]
      by_cases hl : name ∈ l.map Prod.fst
      · rw [if_pos hl, if_pos (List.mem_cons_of_mem _ hl)]
      · rw [if_neg hl, if_neg (by simpa [Ne.symm hp] using hl), List.cons_append]

theorem put_of_not_mem (h : name ∉ l.map Prod.fst) (a : α) : put name a l = l ++ [(name, a)] := by
  induction l with
  | nil => rfl
  | cons p l ih =>
    obtain ⟨hp, hl⟩ := not_or.mp (mt List.mem_cons.mpr h)
    rw [put, if_neg (Ne.symm hp), ih hl, List.cons_append]

theorem mem_put :
    other ∈ (put name a l).map Prod.fst ↔ other = name ∨ other ∈ l.map Prod.fst := by
  rw [names_put]
  split
  · rename_i hmem
    exact ⟨.inr, fun h => h.elim (fun he => he ▸ hmem) id⟩
  · rw [List.mem_append, List.mem_singleton, or_comm]

theorem nodup_put (h : (l.map Prod.fst).Nodup) (name : String) (a : α) :
    ((put name a l).map Prod.fst).Nodup := by
  rw [names_put]
  split
  · exact h
  · rename_i hmem
    exact List.concat_eq_append ▸ h.concat hmem

theorem get?_erase_of_ne (h : other ≠ name) (l : List (String × α)) :
    get? other (erase name l) = get? other l := by
  induction l with
  | nil => rfl
  | cons p l ih =>
    by_cases hp : p.1 = name
    · simp [erase, get?, hp, h.symm]
    · simp [erase, get?, hp, ih]

theorem get?_eq_none (h : name ∉ l.map Prod.fst) : get? name l = none := by
  induction l with
  | nil => rfl
  | cons p l ih =>
    obtain ⟨hp, hl⟩ := not_or.mp (mt List.mem_cons.mpr h)
    rw [get?, if_neg (Ne.symm hp), ih hl]

/-- Where no name comes twice, erasing the first entry of a name leaves none. -/
theorem erase_eq_filter (h : (l.map Prod.fst).Nodup) :
    erase name l = l.filter fun p => p.1 ≠ name := by
  induction l with
  | nil => rfl
  | cons p l ih =>
    obtain ⟨hp, hl⟩ := List.nodup_cons.mp h
    by_cases hname : p.1 = name
    · have hothers : ∀ q ∈ l, q.1 ≠ name := by
        rintro q hq rfl
        exact hp (hname ▸ List.mem_map_of_mem hq)
      rw [erase, if_pos hname, List.filter_cons_of_neg (by simp [hname]), eq_comm]
      exact List.filter_eq_self.mpr fun q hq => by simpa using hothers q hq
    · rw [erase, if_neg hname, List.filter_cons_of_pos (by simp [hname]), ih hl]

theorem not_mem_erase (h : (l.map Prod.fst).Nodup) : name ∉ (erase name l).map Prod.fst := by
  rw [erase_eq_filter h]
  simp

theorem take?_eq (name : String) (l : List (String × α)) :
    take? name l = (get? name l).map fun a => (a, erase name l) := by
  induction l with
  | nil => rfl
  | cons p l ih =>
    by_cases hp : p.1 = name
    · simp [take?, get?, erase, hp]
    · rw [take?, if_neg hp, ih, get?, if_neg hp, erase, if_neg hp, Option.map_map]
      rfl

theorem erase_of_get?_eq_none (h : get? name l = none) : erase name l = l := by
  induction l with
  | nil => rfl
  | cons p l ih =>
    by_cases hp : p.1 = name
    · simp [get?, hp] at h
    · rw [get?, if_neg hp] at h
      rw [erase, if_neg hp, ih h]

theorem get?_insert_self (name : String) (a : α) (l : List (String × α)) :
    get? name (insert name a l) = some a := by
  induction l with
  | nil => simp [insert, get?]
  | cons p l ih =>
    by_cases h : p.1 = name
    · simp [insert, get?, h]
    · by_cases hlt : name < p.1
      · simp [insert, get?, h, hlt]
      · simp [insert, get?, h, hlt, ih]

theorem get?_insert_of_ne (hne : other ≠ name) (a : α) (l : List (String × α)) :
    get? other (insert name a l) = get? other l := by
  induction l with
  | nil => simp [insert, get?, hne.symm]
  | cons p l ih =>
    by_cases h : p.1 = name
    · simp [insert, get?, h, hne.symm]
    · by_cases hlt : name < p.1
      · simp [insert, get?, h, hlt, hne.symm]
      · simp [insert, get?, h, hlt, ih]

end LiveQuery.Keyed
