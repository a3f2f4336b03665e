/-!
# Documents of settings

A **document** in the format TOML is a table of values by key, and a value can be a table again. A
table remembers how it was written, since that decides what may still be added to it:

- a table with a header of its own, `[a.b]`, is defined once;
- a table that such a header implies, as `a` here, may still get a header;
- a table made by dotted keys, `a.b = 1`, grows by more such keys in the same place;
- a table in braces is closed;
- a header `[[a]]` adds one more table to a list.
-/

namespace Patchbay.Toml

/-- How a table was written. -/
inductive Origin where
  | header
  | implied
  | dotted
  | braces
deriving DecidableEq

/-- A value in a document. -/
inductive Value where
  | string (text : String)
  | integer (value : Int)
  | float (value : Float)
  | boolean (value : Bool)
  /-- A date or a time. No setting is one, so which one it is is not kept. -/
  | moment
  | array (elements : List Value)
  | table (origin : Origin) (entries : List (String × Value))
  /-- A list of tables, each with a header. -/
  | tables (elements : List (List (String × Value)))

/-- The entries of a table, in the order in which they were written. -/
abbrev Entries := List (String × Value)

namespace Entries

/-- The value of a key. -/
def get? (entries : Entries) (key : String) : Option Value :=
  (entries.find? (·.1 == key)).map (·.2)

/-- Changes the value of a key, or adds the key. -/
def update (key : String) (f : Option Value → Option Value) : Entries → Option Entries
  | [] => do return [(key, ← f none)]
  | (k, v) :: rest =>
    if k = key then do return (k, ← f (some v)) :: rest
    else do return (k, v) :: (← update key f rest)

/-- Changes the last table of a list. -/
def changeLast (f : Entries → Option Entries) : List Entries → Option (List Entries)
  | [] => none
  | [last] => do return [← f last]
  | first :: rest => do return first :: (← changeLast f rest)

/-- Adds a value under a key that is new. -/
def add (key : String) (value : Value) : Entries → Option Entries :=
  update key fun
    | none => some value
    | some _ => none

/-- Adds a value under a dotted key. Each part but the last names a table made by such keys, or
leads on through a table that was written otherwise. -/
def addDotted (value : Value) : List String → Entries → Option Entries
  | [] => fun _ => none
  | [key] => add key value
  | key :: next :: rest =>
    let inner := addDotted value (next :: rest)
    update key fun
      | none => .table .dotted <$> inner []
      | some (.table .dotted entries) => .table .dotted <$> inner entries
      | some (.table .implied entries) =>
        if rest.isEmpty then none else .table .implied <$> inner entries
      | some (.tables elements) =>
        if rest.isEmpty then none else .tables <$> changeLast inner elements
      | some _ => none

/-- Works on the table at the end of a path of headers. In a list the last table is meant. -/
def within (f : Entries → Option Entries) : List String → Entries → Option Entries
  | [] => f
  | key :: rest =>
    let inner := within f rest
    update key fun
      | none => .table .implied <$> inner []
      | some (.table .braces _) => none
      | some (.table origin entries) => .table origin <$> inner entries
      | some (.tables elements) => .tables <$> changeLast inner elements
      | some _ => none

/-- Defines a table by a header. -/
def define (key : String) : Entries → Option Entries :=
  update key fun
    | none => some (.table .header [])
    | some (.table .implied entries) => some (.table .header entries)
    | some _ => none

/-- Adds a table to a list by a header. -/
def extend (key : String) : Entries → Option Entries :=
  update key fun
    | none => some (.tables [[]])
    | some (.tables elements) => some (.tables (elements ++ [[]]))
    | some _ => none

end Entries

/-- A line of a document that means something. -/
inductive Statement where
  /-- A value under a dotted key. -/
  | assign (path : List String) (value : Value)
  /-- A header `[path]`. -/
  | define (path : List String)
  /-- A header `[[path]]`. -/
  | extend (path : List String)

/-- A document in the making, and the path of its last header. -/
structure Draft where
  entries : Entries := []
  path : List String := []

/-- Carries out a statement. It is refused if it redefines what is there. -/
def Draft.apply? (d : Draft) : Statement → Option Draft
  | .assign path value => do
    return { d with entries := ← Entries.within (Entries.addDotted value path) d.path d.entries }
  | .define path => do
    let key ← path.getLast?
    return { entries := ← Entries.within (Entries.define key) path.dropLast d.entries, path }
  | .extend path => do
    let key ← path.getLast?
    return { entries := ← Entries.within (Entries.extend key) path.dropLast d.entries, path }

/-- The table that statements define, one after another. -/
def ofStatements? (statements : List Statement) : Option Entries :=
  (statements.foldlM Draft.apply? {}).map Draft.entries

end Patchbay.Toml
