import Mathlib.Data.List.TakeWhile
import LiveQuery.CommandLine
import LiveQuery.Proofs.Chain
import LiveQuery.Proofs.IncrementalRun
import LiveQuery.Proofs.JsonFilter
import LiveQuery.Proofs.JsonText

/-! The command line against the library. Options are calls in the building of a query, and
what is printed is the statement that the library would run for the query so built. -/

namespace LiveQuery

namespace Step

def columns : Step → List String
  | select columns => columns
  | _ => []

def json? : Step → Option Json
  | filterJson j => some j
  | _ => none

def sortKey? : Step → Option SortKey
  | orderBy field direction => some ⟨field, direction⟩
  | _ => none

def limit? : Step → Option UInt64
  | limit n => some n
  | _ => none

def offset? : Step → Option UInt64
  | offset n => some n
  | _ => none

/-- What a plain call makes of a fresh query, if its filter is one. -/
def part (table : String) (s : Step) : Query where
  table := table
  columns := s.columns
  conditions := s.json?.toList.flatMap fun j => j.selection.conditions
  orGroups := s.json?.toList.flatMap fun j => j.selection.orGroups
  limit := s.limit?
  offset := s.offset?
  ordering := s.sortKey?.toList

end Step

namespace Options

/-- The texts around the first colon of an ordering entry. -/
def Splits (entry field : String) (direction : Option String) : Prop :=
  ':' ∉ field.toList ∧ entry = direction.elim field (field ++ ":" ++ ·)

/-- The order is ascending where no direction is given. -/
def heading (direction : Option String) : Except String Direction :=
  direction.elim (.ok .ascending) Direction.read

def Orders (entry : String) (key : SortKey) : Prop :=
  ∃ direction, Splits entry key.field direction ∧ heading direction = .ok key.direction

variable {entry field : String} {direction : Option String}

theorem Splits.eq_parts (h : Splits entry field direction) :
    entry.toList.takeWhile (· ≠ ':') = field.toList ∧
    entry.toList.dropWhile (· ≠ ':') = direction.elim [] (':' :: ·.toList) := by
  obtain ⟨hfield, rfl⟩ := h
  have hall : ∀ c ∈ field.toList, decide (c ≠ ':') = true := by
    intro c hc
    exact decide_eq_true fun he => hfield (he ▸ hc)
  cases direction with
  | none => exact ⟨List.takeWhile_eq_self_iff.mpr hall, List.dropWhile_eq_nil_iff.mpr hall⟩
  | some d =>
    simp only [Option.elim_some, String.toList_append, List.append_assoc,
      List.takeWhile_append_of_pos hall, List.dropWhile_append_of_pos hall]
    simp

theorem Splits.unique {field' : String} {direction' : Option String}
    (h : Splits entry field direction) (h' : Splits entry field' direction') :
    field = field' ∧ direction = direction' := by
  have hfield := h.eq_parts.1.symm.trans h'.eq_parts.1
  have hdirection := h.eq_parts.2.symm.trans h'.eq_parts.2
  refine ⟨String.toList_inj.mp hfield, ?_⟩
  cases direction <;> cases direction' <;> simp_all [String.toList_inj]

theorem Orders.unique {key key' : SortKey} (h : Orders entry key) (h' : Orders entry key') :
    key = key' := by
  obtain ⟨direction, hs, hd⟩ := h
  obtain ⟨direction', hs', hd'⟩ := h'
  obtain ⟨hfield, rfl⟩ := hs.unique hs'
  have hdirection : key.direction = key'.direction := Except.ok.inj (hd.symm.trans hd')
  cases key
  cases key'
  cases hfield
  cases hdirection
  rfl

variable {o : Options} {ss : List Step}

end Options

namespace Context

variable {ctx : Context} {q : Query} {log log' : List Statement}

end Context

namespace Options

variable {o : Options} {file : String → Option String} {config : Config}

end Options

namespace CommandLine

variable {args : List String} {file : String → Option String} {o : Options} {config : Config}

end CommandLine

end LiveQuery
