import LiveQuery.Proofs.Readability

/-! Quoted names in the text of a tree. A reader of names stops at the first quote that is not
doubled, and goes on only behind a dot. What stands behind a column is never a quote nor a dot, so
the reader takes the segments of its name and nothing else. -/

namespace LiveQuery

/-- The inside of a quoted segment, up to the first quote that is not doubled, and what stands
behind that quote. -/
def closeQuote : List Char → Option (List Char × List Char)
  | [] => none
  | '"' :: '"' :: cs => (closeQuote cs).map fun (w, rest) => ('"' :: w, rest)
  | '"' :: cs => some ([], cs)
  | c :: cs => (closeQuote cs).map fun (w, rest) => (c :: w, rest)

theorem closeQuote_length {cs w rest : List Char} (h : closeQuote cs = some (w, rest)) :
    rest.length < cs.length := by
  fun_induction closeQuote cs generalizing w rest with
  | case1 => cases h
  | case2 cs ih =>
    obtain ⟨⟨w', rest'⟩, hc, he⟩ := Option.map_eq_some_iff.mp h
    cases he
    have hlt := ih hc
    simp only [List.length_cons]
    omega
  | case3 cs =>
    cases h
    simp
  | case4 c cs _ _ ih =>
    obtain ⟨⟨w', rest'⟩, hc, he⟩ := Option.map_eq_some_iff.mp h
    cases he
    have hlt := ih hc
    simp only [List.length_cons]
    omega

/-- The segments of the quoted name at the front of a text, and what stands behind it. -/
def readName : List Char → Option (List (List Char) × List Char)
  | '"' :: cs =>
    match _hc : closeQuote cs with
    | none => none
    | some (w, '.' :: rest) => (readName rest).map fun (ws, rest) => (w :: ws, rest)
    | some (w, rest) => some ([w], rest)
  | _ => none
termination_by cs => cs.length
decreasing_by
  have hlt := closeQuote_length _hc
  simp only [List.length_cons] at hlt ⊢
  omega

variable {w : List Char} {segs : List (List Char)} {rest : List Char}

theorem closeQuote_doubled (hr : ∀ c ∈ rest.head?, c ≠ '"') (w : List Char) :
    closeQuote (w.flatMap (fun c => if c = '"' then ['"', '"'] else [c]) ++ '"' :: rest) =
      some (w, rest) := by
  induction w with
  | nil =>
    cases rest with
    | nil => rfl
    | cons c rest =>
      have hc : c ≠ '"' := hr c rfl
      simp [closeQuote, hc]
  | cons c w ih =>
    by_cases hc : c = '"'
    · simp [hc, closeQuote, ih]
    · simp [closeQuote, hc, ih]

/-- What is read behind a segment, which is the rest of the name after a dot. -/
def readOn (w : List Char) : List Char → Option (List (List Char) × List Char)
  | '.' :: rest => (readName rest).map fun (ws, rest) => (w :: ws, rest)
  | rest => some ([w], rest)

theorem readOn_of_ne (hr : ∀ c ∈ rest.head?, c ≠ '.') (w : List Char) :
    readOn w rest = some ([w], rest) := by
  unfold readOn
  split
  · exact absurd rfl (hr '.' rfl)
  · rfl

theorem readName_of_close {cs : List Char} (h : closeQuote cs = some (w, rest)) :
    readName ('"' :: cs) = readOn w rest := by
  rw [readName]
  split
  · next hc => exact absurd (h.symm.trans hc) (by simp)
  · next v rest' hc =>
    obtain ⟨rfl, rfl⟩ : w = v ∧ rest = '.' :: rest' := by simpa using h.symm.trans hc
    rfl
  · next v rest' hdot hc =>
    obtain ⟨rfl, rfl⟩ : w = v ∧ rest = rest' := by simpa using h.symm.trans hc
    have hne : ∀ c ∈ rest.head?, c ≠ '.' := by
      rintro c hhead rfl
      obtain ⟨rest', rfl⟩ := List.head?_eq_some_iff.mp hhead
      exact hdot rest' rfl
    exact (readOn_of_ne hne w).symm

theorem readName_quoted (hr : ∀ c ∈ rest.head?, c ≠ '"') (w : List Char) :
    readName (quoted w ++ rest) = readOn w rest := by
  simp only [quoted, List.cons_append, List.append_assoc, List.nil_append]
  exact readName_of_close (closeQuote_doubled hr w)

theorem readName_dotted (hne : segs ≠ []) (hr : ∀ c ∈ rest.head?, c ≠ '"' ∧ c ≠ '.') :
    readName (['.'].intercalate (segs.map quoted) ++ rest) = some (segs, rest) := by
  induction segs with
  | nil => exact absurd rfl hne
  | cons w segs ih =>
    cases segs with
    | nil =>
      rw [List.map_singleton, List.intercalate_singleton, readName_quoted fun c hc => (hr c hc).1]
      exact readOn_of_ne (fun c hc => (hr c hc).2) w
    | cons v segs =>
      have hsegs := ih (List.cons_ne_nil v segs)
      rw [List.map_cons, List.map_cons, List.intercalate_cons_cons, List.append_assoc,
        List.append_assoc, List.singleton_append, readName_quoted (by simp), ← List.map_cons,
        readOn, hsegs]
      rfl

theorem readName_quotedName (hr : ∀ c ∈ rest.head?, c ≠ '"' ∧ c ≠ '.') (name : String) :
    readName ((quotedName name).toList ++ rest) = some (segments name.toList, rest) := by
  obtain ⟨w, ws, hs⟩ := segments_eq_cons name.toList
  rw [quotedName, String.toList_ofList]
  exact readName_dotted (by simp [hs]) hr

theorem dot_not_mem_segments {cs : List Char} : ∀ w ∈ segments cs, '.' ∉ w := by
  induction cs with
  | nil => simp [segments]
  | cons c cs ih =>
    by_cases hc : c = '.'
    · rw [segments, if_pos hc]
      simpa using ih
    · obtain ⟨w, ws, hs⟩ := segments_eq_cons cs
      rw [hs] at ih
      rw [segments, if_neg hc, hs, List.modifyHead_cons]
      simpa [Ne.symm hc] using ih

namespace Expression

/-- A tree in which one operand is missing. -/
inductive Place
  | here
  | left (op : BinaryOp) (p : Place) (r : Expression)
  | right (op : BinaryOp) (l : Expression) (p : Place)
  | operand (op : UnaryOp) (p : Place)
  | argument (name : String) (before : List Expression) (p : Place) (after : List Expression)
  | tested (negated : Bool) (p : Place) (items : List Expression)
  | item (negated : Bool) (e : Expression) (before : List Expression) (p : Place)
    (after : List Expression)

namespace Place

/-- The tree with `e` at the place. -/
def fill (e : Expression) : Place → Expression
  | here => e
  | left op p r => binary op (p.fill e) r
  | right op l p => binary op l (p.fill e)
  | operand op p => unary op (p.fill e)
  | argument name before p after => call name (before ++ p.fill e :: after)
  | tested negated p items => member negated (p.fill e) items
  | item negated t before p after => member negated t (before ++ p.fill e :: after)

/-- The operand of a membership in no items is not written, nor is anything in it. -/
def IsWritten : Place → Prop
  | here => True
  | left _ p _ => p.IsWritten
  | right _ _ p => p.IsWritten
  | operand _ p => p.IsWritten
  | argument _ _ p _ => p.IsWritten
  | tested _ p items => items ≠ [] ∧ p.IsWritten
  | item _ _ _ p _ => p.IsWritten

end Place

/-- The text of `f e` is that of `e` between two texts of its own, of which the second one begins
as what stands behind an expression does. -/
def Surrounds (f : Expression → Expression) : Prop :=
  ∃ before after, Ended after ∧ ∀ e, (f e).spelled = before ++ (e.spelled ++ after)

variable {f g : Expression → Expression} {m : Mark}

theorem Ended.append {cs ds : List Char} (hc : Ended cs) (hd : Ended ds) : Ended (cs ++ ds) := by
  cases cs with
  | nil => exact hd
  | cons c cs => exact hc

theorem Surrounds.comp (hg : Surrounds g) (hf : Surrounds f) : Surrounds fun e => g (f e) := by
  obtain ⟨before, after, hend, hg⟩ := hg
  obtain ⟨before', after', hend', hf⟩ := hf
  refine ⟨before ++ before', after' ++ after, hend'.append hend, fun e => ?_⟩
  rw [hg, hf]
  simp only [List.append_assoc]

theorem Surrounds.spelled_eq (hf : Surrounds f) {e e' : Expression} (h : e.spelled = e'.spelled) :
    (f e).spelled = (f e').spelled := by
  obtain ⟨before, after, -, hf⟩ := hf
  rw [hf, hf, h]

theorem exists_spelledAll (before after : List Expression) :
    ∃ cs ds, Ended ds ∧ ∀ e, spelledAll (before ++ e :: after) = cs ++ (e.spelled ++ ds) := by
  induction before with
  | nil =>
    cases after with
    | nil => exact ⟨[], [], by simp [Ended], fun e => by simp [spelledAll_singleton]⟩
    | cons a after => exact ⟨[], _, by simp [Ended], fun e => spelledAll_cons e a after⟩
  | cons b before ih =>
    obtain ⟨cs, ds, hend, hall⟩ := ih
    refine ⟨b.spelled ++ ',' :: ' ' :: cs, ds, hend, fun e => ?_⟩
    have hcons : spelledAll (b :: (before ++ e :: after)) =
        b.spelled ++ ',' :: ' ' :: spelledAll (before ++ e :: after) := by
      cases before with
      | nil => exact spelledAll_cons b e after
      | cons a before => exact spelledAll_cons b a _
    rw [List.cons_append, hcons, hall]
    simp

theorem ended_close (m : Mark) : Ended m.close := by
  obtain ⟨cs, hc⟩ := m.close_eq_cons
  simp [hc, Ended]

/-- An operand before the mark of its node. -/
theorem surrounds_before {after : List Expression} (h : ∀ e, Opened (f e) [e] m after) :
    Surrounds f := by
  refine ⟨['('], m.sql.toList ++ (spelledAll after ++ m.close),
    (h (literal .null)).ended (List.cons_ne_nil _ _) _, fun e => ?_⟩
  rw [(h e).spelled_eq, spelledAll_singleton]
  rfl

/-- An operand behind the mark of its node. -/
theorem surrounds_after {before : List Expression} (xs ys : List Expression)
    (h : ∀ e, Opened (f e) before m (xs ++ e :: ys)) : Surrounds f := by
  obtain ⟨cs, ds, hend, hall⟩ := exists_spelledAll xs ys
  refine ⟨'(' :: (spelledAll before ++ (m.sql.toList ++ cs)), ds ++ m.close,
    hend.append (ended_close m), fun e => ?_⟩
  rw [(h e).spelled_eq, hall]
  simp

theorem surrounds_argument (name : String) (before after : List Expression) :
    Surrounds fun e => call name (before ++ e :: after) := by
  obtain ⟨cs, ds, hend, hall⟩ := exists_spelledAll before after
  refine ⟨name.toList ++ '(' :: cs, ds ++ [')'], hend.append (by simp [Ended]), fun e => ?_⟩
  rw [spelled_call, hall]
  simp

theorem surrounds_operand (op : UnaryOp) : Surrounds (unary op) := by
  cases op with
  | not => exact surrounds_after [] [] .not
  | minus => exact surrounds_after [] [] .minus
  | isNull => exact surrounds_before .isNull
  | isNotNull => exact surrounds_before .isNotNull

theorem surrounds_tested (negated : Bool) {items : List Expression} (h : items ≠ []) :
    Surrounds fun e => member negated e items := by
  obtain ⟨item, items, rfl⟩ := List.exists_cons_of_ne_nil h
  exact surrounds_before fun e => .member negated e item items

theorem surrounds_item (negated : Bool) (t : Expression) (before after : List Expression) :
    Surrounds fun e => member negated t (before ++ e :: after) := by
  have hopened (e : Expression) : Opened (member negated t (before ++ e :: after)) [t]
      (.member negated) (before ++ e :: after) := by
    cases before with
    | nil => exact .member negated t e after
    | cons b before => exact .member negated t b _
  exact surrounds_after before after hopened

namespace Place

variable {p : Place}

theorem surrounds_of_isWritten (h : p.IsWritten) : Surrounds fun e => p.fill e := by
  induction p with
  | here => exact ⟨[], [], by simp [Ended], fun e => by simp [fill]⟩
  | left op p r ih => exact (surrounds_before fun e => .binary op e r).comp (ih h)
  | right op l p ih =>
    exact (surrounds_after [] [] fun e => .binary op l e).comp (ih h)
  | operand op p ih => exact (surrounds_operand op).comp (ih h)
  | argument name before p after ih => exact (surrounds_argument name before after).comp (ih h)
  | tested negated p items ih => exact (surrounds_tested negated h.1).comp (ih h.2)
  | item negated t before p after ih =>
    exact (surrounds_item negated t before after).comp (ih h)

/-- What is not written does not change the text. -/
theorem spelled_of_not_isWritten (h : ¬p.IsWritten) (e e' : Expression) :
    (p.fill e).spelled = (p.fill e').spelled := by
  induction p with
  | here => exact absurd trivial h
  | left op p r ih => exact (surrounds_before fun e => .binary op e r).spelled_eq (ih h)
  | right op l p ih =>
    exact (surrounds_after [] [] fun e => .binary op l e).spelled_eq (ih h)
  | operand op p ih => exact (surrounds_operand op).spelled_eq (ih h)
  | argument name before p after ih =>
    exact (surrounds_argument name before after).spelled_eq (ih h)
  | tested negated p items ih =>
    by_cases hi : items = []
    · simp [fill, hi, spelled, fragment]
    · exact (surrounds_tested negated hi).spelled_eq (ih fun hp => h ⟨hi, hp⟩)
  | item negated t before p after ih => exact (surrounds_item negated t before after).spelled_eq (ih h)

end Place

/-- A quoted name is read up to its own end before any text that begins with neither a quote nor
a dot, and such a text stands behind every column that is written in a tree. -/
theorem quoted_name_ends (name : String) (rest : List Char)
    (hr : ∀ c ∈ rest.head?, c ≠ '"' ∧ c ≠ '.') :
    readName ((quotedName name).toList ++ rest) = some (segments name.toList, rest) ∧
      ['.'].intercalate (segments name.toList) = name.toList ∧
      (∀ w ∈ segments name.toList, '.' ∉ w) ∧
      ∀ p : Place,
        (p.IsWritten → ∃ before after, Ended after ∧
          (∀ e, (p.fill e).spelled = before ++ (e.spelled ++ after)) ∧
          readName ((column name).spelled ++ after) = some (segments name.toList, after)) ∧
        (¬p.IsWritten → ∀ e e', (p.fill e).spelled = (p.fill e').spelled) := by
  refine ⟨readName_quotedName hr name, intercalate_segments name.toList, dot_not_mem_segments,
    fun p => ⟨fun hp => ?_, fun hp => p.spelled_of_not_isWritten hp⟩⟩
  obtain ⟨before, after, hend, htext⟩ := p.surrounds_of_isWritten hp
  refine ⟨before, after, hend, htext, ?_⟩
  rw [spelled_column]
  exact readName_quotedName hend.not_dotted name

theorem quoted_name_ends_in_member :
    (∀ c ∈ " IN (?)".toList.head?, c ≠ '"' ∧ c ≠ '.') ∧
      readName ((quotedName "a\"b..").toList ++ " IN (?)".toList) =
        some (["a\"b".toList, [], []], " IN (?)".toList) :=
  have hrest : ∀ c ∈ " IN (?)".toList.head?, c ≠ '"' ∧ c ≠ '.' := by simp
  ⟨hrest, (quoted_name_ends "a\"b.." " IN (?)".toList hrest).1⟩

end Expression

end LiveQuery
