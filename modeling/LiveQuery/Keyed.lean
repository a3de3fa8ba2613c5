/-! Lists of named entries. A name is looked up at its first occurrence, and an entry
put under a present name takes its place. -/

namespace LiveQuery.Keyed

variable {α : Type}

def get? (name : String) : List (String × α) → Option α
  | [] => none
  | (n, a) :: rest => if n = name then some a else get? name rest

def put (name : String) (value : α) : List (String × α) → List (String × α)
  | [] => [(name, value)]
  | (n, a) :: rest => if n = name then (n, value) :: rest else (n, a) :: put name value rest

def erase (name : String) : List (String × α) → List (String × α)
  | [] => []
  | (n, a) :: rest => if n = name then rest else (n, a) :: erase name rest

/-- Takes the entry of a name out of the list. -/
def take? (name : String) : List (String × α) → Option (α × List (String × α))
  | [] => none
  | (n, a) :: rest =>
    if n = name then some (a, rest)
    else (take? name rest).map fun (b, others) => (b, (n, a) :: others)

/-- Puts an entry into a list in ascending order of names, by character codes. -/
def insert (name : String) (value : α) : List (String × α) → List (String × α)
  | [] => [(name, value)]
  | (n, a) :: rest =>
    if n = name then (n, value) :: rest
    else if name < n then (name, value) :: (n, a) :: rest
    else (n, a) :: insert name value rest

end LiveQuery.Keyed
