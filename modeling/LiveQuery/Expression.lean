import LiveQuery.Fragment
import LiveQuery.Identifier

/-! Filter expressions as trees, and their SQL. Every operator is written in
parentheses, so the text shows the tree whatever the precedence of the operators. -/

namespace LiveQuery

inductive BinaryOp
  | add | sub | mul | div
  | eq | ne | lt | le | gt | ge
  | and | or
  | concat | like
deriving DecidableEq

def BinaryOp.sql : BinaryOp → String
  | add => "+"
  | sub => "-"
  | mul => "*"
  | div => "/"
  | eq => "="
  | ne => "!="
  | lt => "<"
  | le => "<="
  | gt => ">"
  | ge => ">="
  | and => "AND"
  | or => "OR"
  | concat => "||"
  | like => "LIKE"

inductive UnaryOp
  | not | isNull | isNotNull | minus
deriving DecidableEq

inductive Expression
  | column (name : String)
  | literal (v : Value)
  | binary (op : BinaryOp) (left right : Expression)
  | unary (op : UnaryOp) (operand : Expression)
  | call (name : String) (args : List Expression)
  | member (negated : Bool) (operand : Expression) (items : List Expression)

namespace Expression

def like (e : Expression) (pattern : String) : Expression := binary .like e (literal (.text pattern))

def inValues (e : Expression) (values : List Value) : Expression :=
  member false e (values.map literal)

/-- Combines the trees from the left; there is nothing to combine in an empty list. -/
def reduce? (op : BinaryOp) : List Expression → Option Expression
  | [] => none
  | e :: es => some (es.foldl (binary op) e)

def all? : List Expression → Option Expression := reduce? .and

def any? : List Expression → Option Expression := reduce? .or

mutual

def isConstant : Expression → Bool
  | column _ => false
  | literal _ => true
  | binary _ l r => l.isConstant && r.isConstant
  | unary _ e => e.isConstant
  | call _ args => areConstant args
  | member _ e items => e.isConstant && areConstant items

def areConstant : List Expression → Bool
  | [] => true
  | e :: es => e.isConstant && areConstant es

end

mutual

/-- Literals are bound as they stand. Membership in an empty list is a constant
comparison, and its operand disappears. -/
def fragment : Expression → Fragment
  | column name => quotedName name
  | literal v => [.bound v]
  | binary op l r => "(" ++ l.fragment ++ (" " ++ op.sql ++ " " : String) ++ r.fragment ++ ")"
  | unary .not e => "(NOT " ++ e.fragment ++ ")"
  | unary .minus e => "(-" ++ e.fragment ++ ")"
  | unary .isNull e => "(" ++ e.fragment ++ " IS NULL)"
  | unary .isNotNull e => "(" ++ e.fragment ++ " IS NOT NULL)"
  | call name args => (name ++ "(" : String) ++ Fragment.joined ", " (fragments args) ++ ")"
  | member negated _ [] => if negated then "(1 = 1)" else "(1 = 0)"
  | member negated e (item :: items) =>
    "(" ++ e.fragment ++ (if negated then " NOT IN (" else " IN (") ++
      Fragment.joined ", " (fragments (item :: items)) ++ "))"

def fragments : List Expression → List Fragment
  | [] => []
  | e :: es => e.fragment :: fragments es

end

end Expression

end LiveQuery
