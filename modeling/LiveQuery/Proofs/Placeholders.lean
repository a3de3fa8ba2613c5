import LiveQuery.Proofs.Pieces
import LiveQuery.Proofs.Names

/-! Placeholders of a statement: the `?` outside double quotes. Values are put into them
one after the other, and nothing that has been put in is looked at again. -/

namespace LiveQuery

/-- The text with a hole for each placeholder. Two quotes in a row change nothing, so a
quote written twice stays inside its name. -/
def holes (inside : Bool) : List Char → List (Option Char)
  | [] => []
  | c :: cs =>
    (if c = '?' ∧ inside = false then none else some c) ::
      holes (if c = '"' then !inside else inside) cs

/-- Fills the holes in order. There is no result if values are missing or left over. -/
def fill (print : Value → String) : List (Option Char) → List Value → Option (List Char)
  | [], [] => some []
  | [], _ :: _ => none
  | some c :: hs, vs => (c :: ·) <$> fill print hs vs
  | none :: hs, v :: vs => ((print v).toList ++ ·) <$> fill print hs vs
  | none :: _, [] => none

namespace Statement

def placeholders (s : Statement) : Nat := (holes false s.sql.toList).count none

/-- The statement with its values printed in the place of the placeholders. -/
def filled (print : Value → String) (s : Statement) : Option String :=
  String.ofList <$> fill print (holes false s.sql.toList) s.params

end Statement

/-- A text that neither has placeholders nor leaves a quote open. -/
def Quiet (s : String) : Prop :=
  ∀ rest, holes false (s.toList ++ rest) = s.toList.map some ++ holes false rest

def Plain (s : String) : Prop := '?' ∉ s.toList ∧ '"' ∉ s.toList

instance (s : String) : Decidable (Plain s) := by
  unfold Plain
  infer_instance

theorem Plain.append {s t : String} (hs : Plain s) (ht : Plain t) : Plain (s ++ t) := by
  simp only [Plain, String.toList_append, List.mem_append, not_or]
  exact ⟨⟨hs.1, ht.1⟩, hs.2, ht.2⟩

theorem Plain.join {ss : List String} (h : ∀ s ∈ ss, Plain s) : Plain (String.join ss) := by
  simp only [Plain, String.toList_join, List.mem_flatMap, not_exists, not_and]
  exact ⟨fun s hs => (h s hs).1, fun s hs => (h s hs).2⟩

theorem Plain.intercalate {s : String} {ss : List String} (hs : Plain s)
    (h : ∀ t ∈ ss, Plain t) : Plain (s.intercalate ss) := by
  induction ss with
  | nil => exact (show Plain "" by decide)
  | cons t ss ih =>
    have ht := h t List.mem_cons_self
    have hss : ∀ u ∈ ss, Plain u := fun u hu => h u (List.mem_cons_of_mem t hu)
    cases ss with
    | nil => exact ht
    | cons u ss =>
      rw [String.intercalate_cons_cons]
      exact (ht.append hs).append (ih hss)

theorem plain_toString (n : Nat) : Plain (toString n) := by
  have hdigit : ∀ c ∈ (toString n).toList, c.isDigit = true := by
    intro c hc
    rw [Nat.toString_eq_repr, Nat.toList_repr] at hc
    exact Nat.isDigit_of_mem_toDigits (by decide) (by decide) hc
  exact ⟨fun h => absurd (hdigit _ h) (by decide), fun h => absurd (hdigit _ h) (by decide)⟩

theorem Plain.quiet {s : String} (h : Plain s) : Quiet s := by
  intro rest
  obtain ⟨hp, hq⟩ := h
  generalize s.toList = cs at hp hq ⊢
  induction cs with
  | nil => rfl
  | cons c cs ih =>
    simp only [List.mem_cons, not_or] at hp hq
    have hc : c ≠ '?' := fun he => hp.1 he.symm
    have hc' : c ≠ '"' := fun he => hq.1 he.symm
    simp only [List.cons_append, holes, hc, hc', false_and, if_false, ih hp.2 hq.2, List.map_cons]

/-- Inside quotes nothing counts, up to the quote that is not followed by another. -/
theorem holes_quoted (segment rest : List Char) :
    holes false (quoted segment ++ rest) = (quoted segment).map some ++ holes false rest := by
  have hinside : ∀ cs : List Char,
      holes true (cs.flatMap (fun c => if c = '"' then ['"', '"'] else [c]) ++ '"' :: rest) =
        (cs.flatMap (fun c => if c = '"' then ['"', '"'] else [c]) ++ ['"']).map some ++
          holes false rest := by
    intro cs
    induction cs with
    | nil => rfl
    | cons c cs ih =>
      by_cases hc : c = '"'
      · subst hc
        simpa [holes] using ih
      · simpa [holes, hc] using ih
  have hopen := hinside segment
  simp only [quoted, List.cons_append, List.append_assoc, List.nil_append] at hopen ⊢
  rw [holes, if_neg (by decide)]
  simp only [if_true, Bool.not_false, hopen, List.map_cons, List.cons_append]

theorem quiet_quotedName (name : String) : Quiet (quotedName name) := by
  intro rest
  rw [quotedName, String.toList_ofList]
  generalize segments name.toList = segs
  induction segs with
  | nil => rfl
  | cons seg segs ih =>
    cases segs with
    | nil => simpa using holes_quoted seg rest
    | cons next segs =>
      rw [List.map_cons] at ih ⊢
      rw [List.map_cons, List.intercalate_cons_cons]
      simp only [List.append_assoc, holes_quoted]
      simp [holes, ih]

namespace Fragment

def printed (print : Value → String) (f : Fragment) : String :=
  String.join (f.map fun
    | .sql s => s
    | .bound v => print v)

def IsQuiet (f : Fragment) : Prop := ∀ s, .sql s ∈ f → Quiet s

variable {f g : Fragment} {print : Value → String}

@[simp] theorem printed_nil : printed print [] = "" := rfl

@[simp] theorem printed_sql (s : String) (f : Fragment) :
    printed print (.sql s :: f) = s ++ printed print f := by
  simp [printed]

@[simp] theorem printed_bound (v : Value) (f : Fragment) :
    printed print (.bound v :: f) = print v ++ printed print f := by
  simp [printed]

@[simp] theorem printed_append (f g : Fragment) :
    printed print (f ++ g) = printed print f ++ printed print g := by
  simp [printed, String.join_append]

theorem printed_joined (separator : String) (fs : List Fragment) :
    printed print (joined separator fs) = separator.intercalate (fs.map (printed print)) := by
  induction fs with
  | nil => rfl
  | cons f fs ih =>
    cases fs with
    | nil => rw [joined, List.map_cons, List.map_nil, String.intercalate_singleton]
    | cons g fs =>
      rw [joined, printed_append, printed_sql, ih]
      simp only [List.map_cons, String.intercalate_cons_cons, String.append_assoc]

theorem isQuiet_nil : IsQuiet [] := fun _ hs => absurd hs List.not_mem_nil

theorem IsQuiet.sql {s : String} (hs : Quiet s) (hf : IsQuiet f) : IsQuiet (.sql s :: f) := by
  intro t ht
  rcases List.mem_cons.mp ht with he | ht
  · cases he
    exact hs
  · exact hf t ht

theorem IsQuiet.bound (v : Value) (hf : IsQuiet f) : IsQuiet (.bound v :: f) := by
  intro t ht
  rcases List.mem_cons.mp ht with he | ht
  · cases he
  · exact hf t ht

theorem IsQuiet.append (hf : IsQuiet f) (hg : IsQuiet g) : IsQuiet (f ++ g) := by
  intro s hs
  rcases List.mem_append.mp hs with hs | hs
  · exact hf s hs
  · exact hg s hs

theorem isQuiet_of_plain {s : String} (h : Plain s) : IsQuiet [.sql s] :=
  isQuiet_nil.sql h.quiet

theorem isQuiet_joined {separator : String} {fs : List Fragment} (hs : Plain separator)
    (h : ∀ f ∈ fs, IsQuiet f) : IsQuiet (joined separator fs) := by
  induction fs with
  | nil => exact isQuiet_nil
  | cons f fs ih =>
    have hf := h f List.mem_cons_self
    have hfs : ∀ g ∈ fs, IsQuiet g := fun g hg => h g (List.mem_cons_of_mem f hg)
    cases fs with
    | nil => exact hf
    | cons g fs => exact hf.append ((ih hfs).sql hs.quiet)

theorem holes_text (h : f.IsQuiet) :
    holes false f.text.toList = f.flatMap fun
      | .sql s => s.toList.map some
      | .bound _ => [none] := by
  induction f with
  | nil => rfl
  | cons p f ih =>
    have hf : IsQuiet f := fun s hs => h s (List.mem_cons_of_mem p hs)
    cases p with
    | sql s =>
      rw [text_sql, String.toList_append, h s List.mem_cons_self, ih hf, List.flatMap_cons]
    | bound v =>
      rw [text_bound, String.toList_append, List.flatMap_cons, ← ih hf]
      rfl

theorem placeholders_statement (h : f.IsQuiet) : f.statement.placeholders = f.params.length := by
  rw [Statement.placeholders, statement, holes_text h]
  clear h
  induction f with
  | nil => rfl
  | cons p f ih =>
    cases p with
    | sql s =>
      rw [List.flatMap_cons, List.count_append, ih, params_sql]
      simp [List.count_eq_zero]
    | bound v =>
      rw [List.flatMap_cons, List.count_append, ih, params_bound]
      simp [Nat.add_comm]

theorem fill_some_append (cs : List Char) (hs : List (Option Char)) (vs : List Value) :
    fill print (cs.map some ++ hs) vs = (cs ++ ·) <$> fill print hs vs := by
  induction cs with
  | nil => simp
  | cons c cs ih => simp [fill, ih, Function.comp_def]

theorem filled_statement (h : f.IsQuiet) :
    f.statement.filled print = some (f.printed print) := by
  rw [Statement.filled, statement, holes_text h]
  clear h
  suffices hfill : ∀ f : Fragment, fill print (f.flatMap fun
      | .sql s => s.toList.map some
      | .bound _ => [none]) f.params = some (f.printed print).toList by
    simp [hfill]
  intro f
  induction f with
  | nil => rfl
  | cons p f ih =>
    cases p with
    | sql s => simp [fill_some_append, ih, printed]
    | bound v => simp [fill, ih, printed]

end Fragment

end LiveQuery
