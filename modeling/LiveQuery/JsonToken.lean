import LiveQuery.JsonNumeral

/-! The tokens of a JSON text. Strings keep their escapes as character codes, so that a
lone surrogate stays visible, and numbers keep the digits they were written with. -/

namespace LiveQuery

inductive JsonToken
  | openArray | closeArray | openObject | closeObject | comma | colon
  | null
  | boolean (b : Bool)
  | number (n : JsonNumeral)
  | text (codes : List Nat)

namespace JsonToken

def isBlank (c : Char) : Bool :=
  c = ' ' || c = '\t' || c = '\n' || c = '\r'

def hexDigit? (c : Char) : Option Nat :=
  if '0' ≤ c ∧ c ≤ '9' then some (c.toNat - '0'.toNat)
  else if 'a' ≤ c ∧ c ≤ 'f' then some (c.toNat - 'a'.toNat + 10)
  else if 'A' ≤ c ∧ c ≤ 'F' then some (c.toNat - 'A'.toNat + 10)
  else none

def escape? : Char → Option Nat
  | '"' => some 34
  | '\\' => some 92
  | '/' => some 47
  | 'b' => some 8
  | 'f' => some 12
  | 'n' => some 10
  | 'r' => some 13
  | 't' => some 9
  | _ => none

/-- Reads a string after its opening quote: the character codes and what follows the
closing quote. -/
def string? : List Char → Option (List Nat × List Char)
  | [] => none
  | '"' :: rest => some ([], rest)
  | '\\' :: 'u' :: a :: b :: c :: d :: rest => do
    let code := (((← hexDigit? a) * 16 + (← hexDigit? b)) * 16 + (← hexDigit? c)) * 16 + (← hexDigit? d)
    let (codes, rest) ← string? rest
    some (code :: codes, rest)
  | '\\' :: c :: rest => do
    let code ← escape? c
    let (codes, rest) ← string? rest
    some (code :: codes, rest)
  | c :: rest =>
    if c.toNat < 32 ∨ c = '\\' then none
    else (string? rest).map fun (codes, rest) => (c.toNat :: codes, rest)

def run? (cs : List Char) : Option (List Char × List Char) :=
  let ds := cs.takeWhile Char.isDigit
  if ds.isEmpty then none else some (ds, cs.dropWhile Char.isDigit)

/-- The digits before a point: a leading zero stands alone. -/
def whole? : List Char → Option (List Char × List Char)
  | '0' :: rest => some (['0'], rest)
  | cs => run? cs

/-- The digits after a point, none where there is no point. -/
def places? : List Char → Option (List Char × List Char)
  | '.' :: cs => run? cs
  | cs => some ([], cs)

/-- The exponent that a text begins with, `none` where it begins with none. -/
def exponent? : List Char → Option (Option Int × List Char)
  | c :: cs =>
    if c = 'e' ∨ c = 'E' then
      match cs with
      | '-' :: cs => (run? cs).map fun (ds, rest) => (some (-(natural ds : Int)), rest)
      | '+' :: cs => (run? cs).map fun (ds, rest) => (some (natural ds : Int), rest)
      | cs => (run? cs).map fun (ds, rest) => (some (natural ds : Int), rest)
    else some (none, c :: cs)
  | [] => some (none, [])

def number? (negative : Bool) (cs : List Char) : Option (JsonNumeral × List Char) := do
  let (whole, rest) ← whole? cs
  let (places, rest) ← places? rest
  let (exponent, rest) ← exponent? rest
  some (⟨negative, whole, places, exponent⟩, rest)

/-- What follows `word` in a text that begins with it. -/
def word? : List Char → List Char → Option (List Char)
  | [], rest => some rest
  | w :: ws, c :: rest => if w = c then word? ws rest else none
  | _ :: _, [] => none

def symbol? : Char → Option JsonToken
  | '[' => some openArray
  | ']' => some closeArray
  | '\x7b' => some openObject
  | '\x7d' => some closeObject
  | ',' => some comma
  | ':' => some colon
  | _ => none

def next? (c : Char) (rest : List Char) : Option (JsonToken × List Char) :=
  match symbol? c with
  | some t => some (t, rest)
  | none =>
    if c = '"' then (string? rest).map fun (codes, rest) => (text codes, rest)
    else if c = 'n' then (word? ['u', 'l', 'l'] rest).map fun rest => (null, rest)
    else if c = 't' then (word? ['r', 'u', 'e'] rest).map fun rest => (boolean true, rest)
    else if c = 'f' then (word? ['a', 'l', 's', 'e'] rest).map fun rest => (boolean false, rest)
    else if c = '-' then (number? true rest).map fun (n, rest) => (number n, rest)
    else (number? false (c :: rest)).map fun (n, rest) => (number n, rest)

theorem string?_length {cs rest : List Char} {codes : List Nat}
    (h : string? cs = some (codes, rest)) : rest.length ≤ cs.length := by
  fun_induction string? cs generalizing codes rest with
  | case1 => cases h
  | case2 tail => cases h; exact Nat.le_succ _
  | case3 a b c d tail ih =>
    simp only [Option.bind_eq_bind, Option.bind_eq_some_iff, Option.some.injEq, Prod.mk.injEq] at h
    obtain ⟨_, _, _, _, _, _, _, _, ⟨_, r⟩, hr, -, rfl⟩ := h
    have := ih hr
    simp only [List.length_cons]; omega
  | case4 c tail _ ih =>
    simp only [Option.bind_eq_bind, Option.bind_eq_some_iff, Option.some.injEq, Prod.mk.injEq] at h
    obtain ⟨_, _, ⟨_, r⟩, hr, -, rfl⟩ := h
    have := ih hr
    simp only [List.length_cons]; omega
  | case5 => cases h
  | case6 c tail _ _ _ _ ih =>
    obtain ⟨⟨_, r⟩, hr, he⟩ := Option.map_eq_some_iff.1 h
    cases he
    exact Nat.le_succ_of_le (ih hr)

theorem run?_length {cs ds rest : List Char} (h : run? cs = some (ds, rest)) :
    rest.length < cs.length := by
  have hl := congrArg List.length (List.takeWhile_append_dropWhile (p := Char.isDigit) (l := cs))
  simp only [run?] at h
  split at h
  · cases h
  · next he =>
    cases h
    rw [List.isEmpty_iff] at he
    have := List.length_pos_iff.2 he
    rw [List.length_append] at hl
    omega

theorem whole?_length {cs ds rest : List Char} (h : whole? cs = some (ds, rest)) :
    rest.length < cs.length := by
  unfold whole? at h
  split at h
  · cases h; exact Nat.lt_succ_self _
  · exact run?_length h

theorem places?_length {cs ds rest : List Char} (h : places? cs = some (ds, rest)) :
    rest.length ≤ cs.length := by
  unfold places? at h
  split at h
  · exact Nat.le_succ_of_le (Nat.le_of_lt (run?_length h))
  · cases h; exact Nat.le_refl _

theorem exponent?_length {cs rest : List Char} {e : Option Int}
    (h : exponent? cs = some (e, rest)) : rest.length ≤ cs.length := by
  unfold exponent? at h
  split at h
  · split at h
    · split at h <;>
      · obtain ⟨⟨_, r⟩, hr, he⟩ := Option.map_eq_some_iff.1 h
        cases he
        have := run?_length hr
        simp only [List.length_cons] at *; omega
    · cases h; exact Nat.le_refl _
  · cases h; exact Nat.le_refl _

theorem number?_length {b : Bool} {cs rest : List Char} {n : JsonNumeral}
    (h : number? b cs = some (n, rest)) : rest.length < cs.length := by
  simp only [number?, Option.bind_eq_bind, Option.bind_eq_some_iff] at h
  obtain ⟨⟨_, r⟩, hw, ⟨_, s⟩, hp, ⟨_, t⟩, he, h⟩ := h
  cases h
  exact Nat.lt_of_le_of_lt (Nat.le_trans (exponent?_length he) (places?_length hp)) (whole?_length hw)

theorem word?_length {word cs rest : List Char} (h : word? word cs = some rest) :
    rest.length ≤ cs.length := by
  fun_induction word? word cs with
  | case1 => cases h; exact Nat.le_refl _
  | case2 _ _ _ ih => exact Nat.le_succ_of_le (ih h)
  | case3 => cases h
  | case4 => cases h

theorem next?_length {c : Char} {cs rest : List Char} {t : JsonToken}
    (h : next? c cs = some (t, rest)) : rest.length ≤ cs.length := by
  unfold next? at h
  split at h
  · cases h; exact Nat.le_refl _
  split at h
  · obtain ⟨_, hr, he⟩ := Option.map_eq_some_iff.1 h
    cases he
    exact string?_length hr
  split at h
  · obtain ⟨_, hr, he⟩ := Option.map_eq_some_iff.1 h
    cases he
    exact word?_length hr
  split at h
  · obtain ⟨_, hr, he⟩ := Option.map_eq_some_iff.1 h
    cases he
    exact word?_length hr
  split at h
  · obtain ⟨_, hr, he⟩ := Option.map_eq_some_iff.1 h
    cases he
    exact word?_length hr
  split at h
  · obtain ⟨_, hr, he⟩ := Option.map_eq_some_iff.1 h
    cases he
    exact Nat.le_of_lt (number?_length hr)
  · obtain ⟨_, hr, he⟩ := Option.map_eq_some_iff.1 h
    cases he
    exact Nat.le_of_lt_succ (number?_length hr)

def all? : List Char → Option (List JsonToken)
  | [] => some []
  | c :: cs =>
    if isBlank c then all? cs
    else
      match _h : next? c cs with
      | none => none
      | some (t, rest) => (all? rest).map (t :: ·)
termination_by cs => cs.length
decreasing_by
  · simp
  · have := next?_length _h
    simp only [List.length_cons]; omega

end JsonToken

end LiveQuery
