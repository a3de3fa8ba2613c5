import LiveQuery.Criteria
import LiveQuery.JsonReader
import LiveQuery.Query
import LiveQuery.Config

/-! The command line: flags describe a query, and the statement it stands for is
printed with its parameters. Flags are taken in order, and the first thing that is
wrong, or asks for the version, decides. -/

namespace LiveQuery

inductive Mode
  | select | one | count | fingerprint | incremental
deriving DecidableEq

def Mode.ofName? : String → Option Mode
  | "select" => some select
  | "one" => some one
  | "count" => some count
  | "fingerprint" => some fingerprint
  | "incremental" => some incremental
  | _ => none

inductive Flag
  | table | select | filter | order | limit | offset | mode | watermark | config
deriving DecidableEq

inductive Switch
  | debug | version | help
deriving DecidableEq

def longFlag? : String → Option (Flag ⊕ Switch)
  | "table" => some (.inl .table)
  | "select" => some (.inl .select)
  | "filter" => some (.inl .filter)
  | "order" => some (.inl .order)
  | "limit" => some (.inl .limit)
  | "offset" => some (.inl .offset)
  | "mode" => some (.inl .mode)
  | "watermark" => some (.inl .watermark)
  | "config" => some (.inl .config)
  | "debug" => some (.inr .debug)
  | "version" => some (.inr .version)
  | "help" => some (.inr .help)
  | _ => none

def shortFlag? : Char → Option (Flag ⊕ Switch)
  | 't' => some (.inl .table)
  | 's' => some (.inl .select)
  | 'f' => some (.inl .filter)
  | 'o' => some (.inl .order)
  | 'l' => some (.inl .limit)
  | 'm' => some (.inl .mode)
  | 'w' => some (.inl .watermark)
  | 'c' => some (.inl .config)
  | 'd' => some (.inr .debug)
  | 'V' => some (.inr .version)
  | 'h' => some (.inr .help)
  | _ => none

structure Options where
  table : Option String := none
  select : List String := []
  filter : Option String := none
  order : List String := []
  limit : Option UInt64 := none
  offset : Option UInt64 := none
  mode : Option Mode := none
  watermark : Option Int64 := none
  config : Option String := none
  debug : Bool := false

inductive Stop
  | usage | version | help
deriving DecidableEq

namespace Options

def once {α : Type} (slot : Option α) (value : Option α) : Except Stop (Option α) :=
  match slot, value with
  | none, some a => .ok (some a)
  | _, _ => .error .usage

def pieces : List Char → List (List Char)
  | [] => [[]]
  | c :: cs => if c = ',' then [] :: pieces cs else (pieces cs).modifyHead (c :: ·)

/-- Takes a flag with its value. A configuration path may not be empty. -/
def take (o : Options) (value : String) : Flag → Except Stop Options
  | .table => return { o with table := ← once o.table (some value) }
  | .select => return { o with select := o.select ++ (pieces value.toList).map String.ofList }
  | .filter => return { o with filter := ← once o.filter (some value) }
  | .order => return { o with order := o.order ++ [value] }
  | .limit => return { o with limit := ← once o.limit (unsigned? value) }
  | .offset => return { o with offset := ← once o.offset (unsigned? value) }
  | .mode => return { o with mode := ← once o.mode (Mode.ofName? value) }
  | .watermark => return { o with watermark := ← once o.watermark (signed? value) }
  | .config => return { o with config := ← once o.config (if value = "" then none else some value) }

def switch (o : Options) : Switch → Except Stop Options
  | .debug => if o.debug then .error .usage else .ok { o with debug := true }
  | .version => .error .version
  | .help => .error .help

/-- Takes letters behind one dash: switches, and at most one flag whose value is the
rest, after an equals sign if there is one. Without a rest the flag waits for the next
argument. -/
def cluster (o : Options) : List Char → Except Stop (Options × Option Flag)
  | [] => .ok (o, none)
  | c :: cs =>
    match shortFlag? c with
    | none => .error .usage
    | some (.inr s) => do (← o.switch s).cluster cs
    | some (.inl f) =>
      match cs with
      | [] => .ok (o, some f)
      | '=' :: value => do return (← o.take (String.ofList value) f, none)
      | value => do return (← o.take (String.ofList value) f, none)

def long (o : Options) (cs : List Char) : Except Stop (Options × Option Flag) :=
  let value := (cs.dropWhile (· ≠ '=')).tail?
  match longFlag? (String.ofList (cs.takeWhile (· ≠ '='))), value with
  | some (.inl f), some value => do return (← o.take (String.ofList value) f, none)
  | some (.inl f), none => .ok (o, some f)
  | some (.inr s), none => do return (← o.switch s, none)
  | _, _ => .error .usage

/-- Reads all arguments. `waiting` is a flag whose value has not come yet; an argument
that begins with a dash is no value, except the dash alone. -/
def read (o : Options) (waiting : Option Flag) : List String → Except Stop Options
  | [] => if waiting.isNone && o.table.isSome then .ok o else .error .usage
  | arg :: args =>
    match arg.toList, waiting with
    | '-' :: '-' :: [], none =>
      if args.isEmpty && o.table.isSome then .ok o else .error .usage
    | '-' :: '-' :: cs, none => do
      let (o, waiting) ← o.long cs
      o.read waiting args
    | '-' :: c :: cs, none => do
      let (o, waiting) ← o.cluster (c :: cs)
      o.read waiting args
    | '-' :: _ :: _, some _ => .error .usage
    | _, some f => do (← o.take arg f).read none args
    | _, none => .error .usage

end Options

inductive CommandError
  | configUnread (path : String)
  | configUnparsed
  | filterNotJson
  | query (e : QueryError)
  | emptyField (entry : String)
  | unknownDirection (text : String)
deriving DecidableEq

def CommandError.message : CommandError → String
  | configUnread path => "Failed to read config " ++ path
  | configUnparsed => "Failed to parse config"
  | filterNotJson => "Filter is not valid JSON"
  | query e => e.message
  | emptyField entry => "Empty field in ordering '" ++ entry ++ "'"
  | unknownDirection text => Direction.unknown text

namespace Options

/-- An ordering entry `field` or `field:direction`, split at the first colon. -/
def ordering (entry : String) : Except CommandError SortKey :=
  let cs := entry.toList
  let field := String.ofList (cs.takeWhile (· ≠ ':'))
  let direction :=
    match cs.dropWhile (· ≠ ':') with
    | _ :: text => Direction.read (String.ofList text)
    | [] => .ok .ascending
  if field = "" then .error (.emptyField entry)
  else
    match direction with
    | .ok d => .ok ⟨field, d⟩
    | .error text => .error (.unknownDirection text)

def selection (o : Options) : Except CommandError Selection :=
  match o.filter with
  | none => .ok {}
  | some text =>
    match Json.read? text with
    | none => .error .filterNotJson
    | some j =>
      match Criteria.ofJson j >>= Criteria.resolve with
      | .ok s => .ok s
      | .error e => .error (.query e)

def query (o : Options) : Except CommandError Query := do
  let s ← o.selection
  let ordering ← o.order.mapM Options.ordering
  return {
    table := o.table.getD ""
    columns := o.select
    conditions := s.conditions
    orGroups := s.orGroups
    limit := o.limit
    offset := o.offset
    ordering := ordering }

def settings (o : Options) (file : String → Option String) : Except CommandError Config :=
  match o.config with
  | none => .ok {}
  | some path =>
    match file path with
    | none => .error (.configUnread path)
    | some text =>
      match Config.read? text with
      | none => .error .configUnparsed
      | some c => .ok c

def statement (o : Options) (config : Config) (q : Query) : Statement :=
  match o.mode.getD .select with
  | .select => q.select
  | .one => q.selectFirst
  | .count => q.count
  | .fingerprint => q.fingerprint config.idColumn
  | .incremental => q.incremental config.idColumn (o.watermark.getD 0)

/-- The statement to print. `file` gives the text of a file that can be read. -/
def run (o : Options) (file : String → Option String) : Except CommandError Statement := do
  let config ← o.settings file
  return o.statement config (← o.query)

end Options

namespace CommandLine

def version : String := "livesql 0.1.0"

/-- The SQL and the parameters as a JSON array, a line each. -/
def output (s : Statement) : String :=
  s.sql ++ "\n" ++ jsonArray (s.params.map Value.toJson) ++ "\n"

def usage : String :=
  "Usage: livesql [OPTIONS] --table <TABLE>\n"

structure Outcome where
  exit : UInt8
  stdout : String := ""
  message : Option String := none

def run (args : List String) (file : String → Option String) : Outcome :=
  match Options.read {} none args with
  | .error .usage => { exit := 2 }
  | .error .version => { exit := 0, stdout := version ++ "\n" }
  | .error .help => { exit := 0, stdout := usage }
  | .ok o =>
    match o.run file with
    | .ok s => { exit := 0, stdout := output s }
    | .error e => { exit := 1, message := some e.message }

end CommandLine

end LiveQuery
