import C1Lang.Toml.Moment

/-!
# Configuration values

A configuration text sets keys to values and groups keys into tables. A table remembers how it
came to be, because that decides what may still be added to it: a table with a header of its own,
or written inline, is complete; one that is only mentioned in a longer header can get its header
later; one that dotted keys made takes more dotted keys. A list of tables grows by one table with
each of its headers, and headers below it belong to its last table.
-/

namespace C1Lang.Toml

inductive Origin
  | header
  | mentioned
  | dotted
  | inline
deriving DecidableEq, Repr, Inhabited

inductive Value
  | string (text : String)
  | number (text : String)
  | bool (value : Bool)
  | moment (moment : Moment)
  | array (items : List Value)
  | table (origin : Origin) (entries : List (String × Value))
  | tables (elements : List (List (String × Value)))
deriving Inhabited

abbrev Entries := List (String × Value)

def Entries.replace (es : Entries) (key : String) (v : Value) : Entries :=
  es.map fun e => if e.1 == key then (key, v) else e

def Origin.takesDotted : Origin → List String → Bool
  | dotted, _ => true
  | mentioned, rest => !rest.isEmpty
  | header, _ | inline, _ => false

/-- Sets the key at the end of a path; none when it is set already, or when the path leads through
something that takes no dotted keys. -/
def Entries.assign? (es : Entries) : List String → String → Value → Option Entries
  | [], key, v =>
    match es.lookup key with
    | none => some (es ++ [(key, v)])
    | some _ => none
  | first :: path, key, v =>
    match es.lookup first with
    | none => do
      let inner ← Entries.assign? [] path key v
      some (es ++ [(first, .table .dotted inner)])
    | some (.table origin inner) =>
      if origin.takesDotted path then do
        let inner ← Entries.assign? inner path key v
        some (es.replace first (.table origin inner))
      else none
    | some (.tables ts) =>
      if path.isEmpty then none
      else do
        let inner ← Entries.assign? (← ts.getLast?) path key v
        some (es.replace first (.tables (ts.dropLast ++ [inner])))
    | some _ => none

def Entries.open? (es : Entries) (key : String) : Option Entries :=
  match es.lookup key with
  | none => some (es ++ [(key, .table .header [])])
  | some (.table .mentioned inner) => some (es.replace key (.table .header inner))
  | some _ => none

def Entries.extend? (es : Entries) (key : String) : Option Entries :=
  match es.lookup key with
  | none => some (es ++ [(key, .tables [[]])])
  | some (.tables ts) => some (es.replace key (.tables (ts ++ [[]])))
  | some _ => none

/-- Changes the table at the end of a path of headers, which mentions the tables on its way; none
when it leads through something other than those. -/
def Entries.within? (es : Entries) (change : Entries → Option Entries) :
    List String → Option Entries
  | [] => change es
  | key :: path =>
    match es.lookup key with
    | none => do
      let inner ← Entries.within? [] change path
      some (es ++ [(key, .table .mentioned inner)])
    | some (.table .inline _) => none
    | some (.table origin inner) => do
      let inner ← Entries.within? inner change path
      some (es.replace key (.table origin inner))
    | some (.tables ts) => do
      let inner ← Entries.within? (← ts.getLast?) change path
      some (es.replace key (.tables (ts.dropLast ++ [inner])))
    | some _ => none

inductive Entry
  | header (path : List String) (key : String)
  | element (path : List String) (key : String)
  | assign (path : List String) (key : String) (value : Value)
deriving Inhabited

structure Document where
  root : Entries := []
  current : List String := []
deriving Inhabited

def Document.add? (d : Document) : Entry → Option Document
  | .header path key => do
    let root ← d.root.within? (·.open? key) path
    some ⟨root, path ++ [key]⟩
  | .element path key => do
    let root ← d.root.within? (·.extend? key) path
    some ⟨root, path ++ [key]⟩
  | .assign path key v => do
    let root ← d.root.within? (·.assign? path key v) d.current
    some { d with root }

def Document.ofEntries? (lines : List Entry) : Option Entries :=
  (lines.foldlM Document.add? {}).map Document.root

end C1Lang.Toml
