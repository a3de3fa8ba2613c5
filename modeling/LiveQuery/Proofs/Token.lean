import LiveQuery.Proofs.Names

/-! Statements as a database reads them, first as tokens. A quoted name ends at the first
quote that is not followed by another, and words end where their letters end. -/

namespace LiveQuery

structure Part where
  quoted : Bool
  text : List Char
deriving DecidableEq

inductive Keyword
  | not | null | is | member | where | order | limit | offset
deriving DecidableEq

inductive Token
  | part (p : Part)
  | numeral (digits : List Char)
  | keyword (k : Keyword)
  | op (o : BinaryOp)
  | dot | comma | opening | closing | mark
  | unknown
deriving DecidableEq

def isWordChar (c : Char) : Bool := c.isAlphanum || c = '_'

/-- Words that are no names, in upper case. -/
def reserved : List (String × Token) :=
  [("AND", .op .and), ("OR", .op .or), ("LIKE", .op .like), ("NOT", .keyword .not),
    ("NULL", .keyword .null), ("IS", .keyword .is), ("IN", .keyword .member),
    ("WHERE", .keyword .where), ("ORDER", .keyword .order), ("LIMIT", .keyword .limit),
    ("OFFSET", .keyword .offset)]

/-- Case does not matter in a reserved word. -/
def Token.ofWord (w : List Char) : Token :=
  match reserved.lookup (String.ofList (w.map Char.toUpper)) with
  | some t => t
  | none => if w.head?.any Char.isDigit then numeral w else part ⟨false, w⟩

/-- What the characters read last may go on to be. -/
inductive Pending
  | nothing
  | word (w : List Char)
  | inside (w : List Char)
  /-- After a quote in a quoted segment. -/
  | leaving (w : List Char)
  | symbol (c : Char)

namespace Pending

/-- The token of two characters. Two minus signs begin a comment, which is not read. -/
def pair? (c d : Char) : Option Token :=
  match c, d with
  | '<', '=' => some (.op .le)
  | '>', '=' => some (.op .ge)
  | '!', '=' => some (.op .ne)
  | '<', '>' => some (.op .ne)
  | '|', '|' => some (.op .concat)
  | '-', '-' => some .unknown
  | _, _ => none

def flush : Pending → List Token
  | nothing => []
  | word w => [.ofWord w]
  | inside _ => [.unknown]
  | leaving w => [.part ⟨true, w⟩]
  | symbol '-' => [.op .sub]
  | symbol '<' => [.op .lt]
  | symbol '>' => [.op .gt]
  | symbol _ => [.unknown]

def first (c : Char) : List Token × Pending :=
  if isWordChar c then ([], word [c])
  else
    match c with
    | ' ' => ([], nothing)
    | '"' => ([], inside [])
    | '.' => ([.dot], nothing)
    | ',' => ([.comma], nothing)
    | '(' => ([.opening], nothing)
    | ')' => ([.closing], nothing)
    | '?' => ([.mark], nothing)
    | '=' => ([.op .eq], nothing)
    | '+' => ([.op .add], nothing)
    | '*' => ([.op .mul], nothing)
    | '/' => ([.op .div], nothing)
    | _ => ([], symbol c)

def restart (p : Pending) (c : Char) : List Token × Pending := (p.flush ++ (first c).1, (first c).2)

def next (p : Pending) (c : Char) : List Token × Pending :=
  match p with
  | nothing => first c
  | word w => if isWordChar c then ([], word (w ++ [c])) else p.restart c
  | inside w => if c = '"' then ([], leaving w) else ([], inside (w ++ [c]))
  | leaving w => if c = '"' then ([], inside (w ++ ['"'])) else p.restart c
  | symbol d =>
    match pair? d c with
    | some t => ([t], nothing)
    | none => p.restart c

end Pending

def lex (p : Pending) : List Char → List Token
  | [] => p.flush
  | c :: cs => (p.next c).1 ++ lex (p.next c).2 cs

def tokens (cs : List Char) : List Token := lex .nothing cs

theorem lex_cons (p : Pending) (c : Char) (cs : List Char) :
    lex p (c :: cs) = (p.next c).1 ++ lex (p.next c).2 cs := rfl

theorem lex_of_restart {p : Pending} {c : Char} (h : p.next c = p.restart c) (cs : List Char) :
    lex p (c :: cs) = p.flush ++ tokens (c :: cs) := by
  have hn : Pending.nothing.next c = Pending.first c := rfl
  rw [tokens, lex_cons, lex_cons, h, hn, Pending.restart, List.append_assoc]

/-- Where a word and a quoted name end. -/
def Apart (cs : List Char) : Prop := ∀ c ∈ cs.head?, isWordChar c = false ∧ c ≠ '"'

theorem apart_nil : Apart [] := by simp [Apart]

theorem Apart.append {s t : List Char} (hs : Apart s) (ht : Apart t) : Apart (s ++ t) := by
  cases s with
  | nil => exact ht
  | cons c s => exact hs

/-- The tokens of `s`, whatever follows apart from it. -/
def Lexes (s : String) (ts : List Token) : Prop :=
  ∀ rest, Apart rest → tokens (s.toList ++ rest) = ts ++ tokens rest

/-- The tokens of `s`, whatever follows. -/
def Stands (s : String) (ts : List Token) : Prop :=
  ∀ rest, tokens (s.toList ++ rest) = ts ++ tokens rest

variable {s t : String} {ts us : List Token}

def breaks (t : String) : Bool := t.toList.head?.any fun c => !isWordChar c && c != '"'

theorem apart_of_breaks (h : breaks t = true) (rest : List Char) : Apart (t.toList ++ rest) := by
  unfold breaks at h
  cases hc : t.toList with
  | nil => simp [hc] at h
  | cons c cs => simpa [Apart, hc] using h

theorem Stands.lexes (hs : Stands s ts) : Lexes s ts := fun rest _ => hs rest

theorem Stands.append (hs : Stands s ts) (ht : Stands t us) : Stands (s ++ t) (ts ++ us) := by
  intro rest
  rw [String.toList_append, List.append_assoc, hs, ht, List.append_assoc]

theorem Stands.append_lexes (hs : Stands s ts) (ht : Lexes t us) : Lexes (s ++ t) (ts ++ us) := by
  intro rest hr
  rw [String.toList_append, List.append_assoc, hs, ht rest hr, List.append_assoc]

theorem Lexes.append_stands (hs : Lexes s ts) (hb : breaks t = true) (ht : Stands t us) :
    Stands (s ++ t) (ts ++ us) := by
  intro rest
  rw [String.toList_append, List.append_assoc, hs _ (apart_of_breaks hb rest), ht,
    List.append_assoc]

theorem Lexes.append (hs : Lexes s ts) (ha : Apart t.toList) (ht : Lexes t us) :
    Lexes (s ++ t) (ts ++ us) := by
  intro rest hr
  rw [String.toList_append, List.append_assoc, hs _ (ha.append hr), ht rest hr, List.append_assoc]

def isIdentifier (w : List Char) : Bool :=
  w.all isWordChar && w.head?.any (fun c => !c.isDigit) &&
    (reserved.lookup (String.ofList (w.map Char.toUpper))).isNone

def IsName (s : String) : Prop := ∀ w ∈ segments s.toList, isIdentifier w = true

instance (s : String) : Decidable (IsName s) := by
  unfold IsName
  infer_instance

theorem ofWord_of_isIdentifier {w : List Char} (h : isIdentifier w = true) :
    Token.ofWord w = .part ⟨false, w⟩ := by
  simp only [isIdentifier, Bool.and_eq_true, Option.isNone_iff_eq_none] at h
  obtain ⟨⟨-, hd⟩, hr⟩ := h
  cases w with
  | nil => exact absurd hd (by simp)
  | cons c w =>
    have hc : c.isDigit = false := by simpa using hd
    rw [Token.ofWord, hr]
    simp [hc]

theorem lex_word {w rest : List Char} (hw : ∀ c ∈ w, isWordChar c = true) (hr : Apart rest)
    (u : List Char) : lex (.word u) (w ++ rest) = .ofWord (u ++ w) :: tokens rest := by
  induction w generalizing u with
  | nil =>
    cases rest with
    | nil => simp [lex, tokens, Pending.flush]
    | cons c rest =>
      have hc := (hr c (by simp)).1
      rw [List.nil_append, lex_of_restart (by simp [Pending.next, hc]), List.append_nil]
      rfl
  | cons c w ih =>
    have hc := hw c List.mem_cons_self
    have hrest := ih (fun d hd => hw d (List.mem_cons_of_mem c hd)) (u ++ [c])
    rw [List.cons_append, lex_cons]
    simpa [Pending.next, hc] using hrest

theorem tokens_identifier {w : List Char} (h : isIdentifier w = true) {rest : List Char}
    (hr : Apart rest) : tokens (w ++ rest) = .part ⟨false, w⟩ :: tokens rest := by
  rw [← ofWord_of_isIdentifier h]
  simp only [isIdentifier, Bool.and_eq_true, List.all_eq_true] at h
  obtain ⟨⟨hw, hd⟩, -⟩ := h
  cases w with
  | nil => exact absurd hd (by simp)
  | cons c w =>
    have hc := hw c List.mem_cons_self
    have hrest := lex_word (fun d hd => hw d (List.mem_cons_of_mem c hd)) hr [c]
    rw [tokens, List.cons_append, lex_cons]
    simpa [Pending.next, Pending.first, hc] using hrest

/-- In a quoted segment a quote is written twice, and only the last one ends it. -/
theorem lex_inside {rest : List Char} (hr : ∀ c ∈ rest.head?, c ≠ '"') (w u : List Char) :
    lex (.inside u) (w.flatMap (fun c => if c = '"' then ['"', '"'] else [c]) ++ '"' :: rest) =
      .part ⟨true, u ++ w⟩ :: tokens rest := by
  induction w generalizing u with
  | nil =>
    cases rest with
    | nil => simp [lex, tokens, Pending.next, Pending.flush]
    | cons c rest =>
      have hc := hr c (by simp)
      have hleave := lex_of_restart (p := .leaving u) (c := c) (by simp [Pending.next, hc]) rest
      rw [List.flatMap_nil, List.nil_append, lex_cons]
      simpa [Pending.next, Pending.flush] using hleave
  | cons c w ih =>
    have hrest := ih (u ++ [c])
    by_cases hc : c = '"'
    · subst hc
      simpa [lex, Pending.next] using hrest
    · simpa [lex, Pending.next, hc] using hrest

theorem tokens_quoted (w : List Char) {rest : List Char} (hr : ∀ c ∈ rest.head?, c ≠ '"') :
    tokens (quoted w ++ rest) = .part ⟨true, w⟩ :: tokens rest := by
  have hinside := lex_inside hr w []
  simp only [quoted, List.cons_append, List.append_assoc, List.nil_append]
  rw [tokens, lex_cons]
  simpa [Pending.next, Pending.first, isWordChar] using hinside

def nameTokens (parts : List Part) : List Token :=
  [Token.dot].intercalate (parts.map fun p => [.part p])

theorem tokens_dotted (write : List Char → List Char) (b : Bool) {segs : List (List Char)}
    (h : ∀ w ∈ segs, ∀ rest, Apart rest →
      tokens (write w ++ rest) = .part ⟨b, w⟩ :: tokens rest)
    {rest : List Char} (hr : Apart rest) :
    tokens (['.'].intercalate (segs.map write) ++ rest) =
      nameTokens (segs.map (Part.mk b)) ++ tokens rest := by
  induction segs with
  | nil => rfl
  | cons w segs ih =>
    have hsegs := ih fun v hv => h v (List.mem_cons_of_mem w hv)
    cases segs with
    | nil => simpa [nameTokens] using h w List.mem_cons_self rest hr
    | cons v segs =>
      have hw := h w List.mem_cons_self
      have hdot (cs : List Char) : tokens ('.' :: cs) = .dot :: tokens cs := rfl
      simp only [List.map_cons, nameTokens, List.intercalate_cons_cons, List.append_assoc]
        at hsegs ⊢
      rw [hw _ (by simp [Apart, isWordChar]), List.cons_append, List.nil_append, hdot, hsegs]
      rfl

theorem segments_eq_cons (cs : List Char) : ∃ w ws, segments cs = w :: ws := by
  induction cs with
  | nil => exact ⟨[], [], rfl⟩
  | cons c cs ih =>
    obtain ⟨w, ws, hs⟩ := ih
    by_cases hc : c = '.'
    · exact ⟨[], segments cs, if_pos hc⟩
    · exact ⟨c :: w, ws, by rw [segments, if_neg hc, hs, List.modifyHead_cons]⟩

theorem intercalate_segments (cs : List Char) : ['.'].intercalate (segments cs) = cs := by
  induction cs with
  | nil => rfl
  | cons c cs ih =>
    obtain ⟨w, ws, hs⟩ := segments_eq_cons cs
    rw [hs] at ih
    by_cases hc : c = '.'
    · subst hc
      rw [segments, if_pos rfl, hs, List.intercalate_cons_cons, ih]
      rfl
    · rw [segments, if_neg hc, hs, List.modifyHead_cons, List.intercalate_cons_cons_left, ih]

theorem segments_append_dot (cs ds : List Char) :
    segments (cs ++ '.' :: ds) = segments cs ++ segments ds := by
  induction cs with
  | nil => rfl
  | cons c cs ih =>
    obtain ⟨w, ws, hs⟩ := segments_eq_cons cs
    by_cases hc : c = '.'
    · rw [List.cons_append, segments, if_pos hc, segments, if_pos hc, ih]
      rfl
    · rw [List.cons_append, segments, if_neg hc, segments, if_neg hc, ih, hs]
      rfl

def bareParts (name : String) : List Part := (segments name.toList).map (Part.mk false)

def quotedParts (name : String) : List Part := (segments name.toList).map (Part.mk true)

theorem lexes_name {name : String} (h : IsName name) :
    Lexes name (nameTokens (bareParts name)) := by
  intro rest hr
  have hsegs := tokens_dotted id false (fun w hw rest hr => tokens_identifier (h w hw) hr) hr
  rwa [List.map_id, intercalate_segments] at hsegs

theorem lexes_quotedName (name : String) :
    Lexes (quotedName name) (nameTokens (quotedParts name)) := by
  intro rest hr
  rw [quotedName, String.toList_ofList]
  exact tokens_dotted quoted true (fun w _ rest hr => tokens_quoted w fun c hc => (hr c hc).2) hr

theorem IsName.dot {name column : String} (hn : IsName name) (hc : IsName column) :
    IsName (name ++ "." ++ column) := by
  have hdot : (name ++ "." ++ column).toList = name.toList ++ '.' :: column.toList := by simp
  intro w hw
  rw [hdot, segments_append_dot] at hw
  exact (List.mem_append.mp hw).elim (hn w) (hc w)

theorem IsName.qualified {table column : String} (ht : IsName table) (hc : IsName column) :
    IsName (qualified table column) := by
  unfold LiveQuery.qualified
  split
  · exact hc
  · exact ht.dot hc

end LiveQuery
