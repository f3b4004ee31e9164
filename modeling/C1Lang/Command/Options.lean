/-!
# Options of the command line

An option has a long name, and some have a letter too. Its value, if it takes one, follows an
equals sign or is the next word; a letter may have its value right behind it. Letters of options
without a value can be written together. After `--` everything is a word.
-/

namespace C1Lang.Command

inductive Level
  | top
  | build
  | check
deriving DecidableEq, Repr, Inhabited

inductive OptionName
  | dump
  | dumpDir
  | debug
  | debugTrace
  | quiet
  | verbose
  | help
  | version
  | outputDir
  | emit
  | noVerify
deriving DecidableEq, Repr, Inhabited

namespace OptionName

def common : List OptionName :=
  [dump, dumpDir, debug, debugTrace, quiet, verbose, help, version]

def at_ : Level → List OptionName
  | .top | .check => common
  | .build => common ++ [outputDir, emit, noVerify]

def long : OptionName → String
  | dump => "dump"
  | dumpDir => "dump-dir"
  | debug => "debug"
  | debugTrace => "debug-trace"
  | quiet => "quiet"
  | verbose => "verbose"
  | help => "help"
  | version => "version"
  | outputDir => "output-dir"
  | emit => "emit"
  | noVerify => "no-verify"

def letter? : OptionName → Option Char
  | quiet => some 'q'
  | verbose => some 'v'
  | help => some 'h'
  | version => some 'V'
  | outputDir => some 'o'
  | _ => none

def takesValue : OptionName → Bool
  | dump | dumpDir | debugTrace | outputDir | emit => true
  | _ => false

end OptionName

/-- A piece of the command line: an option with its value (empty when it takes none), or a word. -/
inductive Item
  | option (name : OptionName) (value : String)
  | word (text : String)
deriving DecidableEq, Repr, Inhabited

def isValue (arg : String) : Bool := !arg.startsWith "-" || arg == "-"

def takeValue (name : OptionName) : List String → Option (Item × List String)
  | value :: rest => if isValue value then some (.option name value, rest) else none
  | [] => none

def splitEquals (cs : List Char) : List Char × Option (List Char) :=
  (cs.takeWhile (· ≠ '='), (cs.dropWhile (· ≠ '=')).tail?)

def longOption (level : Level) (cs : List Char) (rest : List String) :
    Option (Item × List String) := do
  let (name, value?) := splitEquals cs
  let option ← (OptionName.at_ level).find? (·.long == String.ofList name)
  match option.takesValue, value? with
  | true, some value => some (.option option (String.ofList value), rest)
  | true, none => takeValue option rest
  | false, none => some (.option option "", rest)
  | false, some _ => none

/-- The text behind a letter as a value: an equals sign in front does not belong to it. -/
def attached : List Char → List Char
  | '=' :: cs => cs
  | cs => cs

def letters (level : Level) : List Char → List String → Option (List Item × List String)
  | [], rest => some ([], rest)
  | c :: cs, rest => do
    let option ← (OptionName.at_ level).find? (·.letter? == some c)
    if option.takesValue then
      if cs.isEmpty then
        let (item, rest) ← takeValue option rest
        some ([item], rest)
      else some ([.option option (String.ofList (attached cs))], rest)
    else
      let (items, rest) ← letters level cs rest
      some (.option option "" :: items, rest)

def items (level : Level) (arg : String) (rest : List String) :
    Option (List Item × List String) :=
  match arg.toList with
  | '-' :: '-' :: cs => (longOption level cs rest).map fun (item, rest) => ([item], rest)
  | '-' :: c :: cs => letters level (c :: cs) rest
  | _ => some ([.word arg], rest)

/-- All pieces of a command line; none when an option is unknown or lacks its value. The fuel is
the number of arguments. -/
def scan (level : Level) : Nat → List String → Option (List Item)
  | _, [] => some []
  | 0, _ => some []
  | fuel + 1, arg :: rest =>
    if arg == "--" then some (rest.map .word)
    else do
      let (found, rest) ← items level arg rest
      let more ← scan level fuel rest
      some (found ++ more)

def scanTop : Nat → List String → Option (List Item × Option (String × List String))
  | _, [] => some ([], none)
  | 0, _ => some ([], none)
  | fuel + 1, arg :: rest =>
    if arg == "--" then none
    else do
      match ← items .top arg rest with
      | ([.word command], rest) => some ([], some (command, rest))
      | (found, rest) =>
        let (more, command) ← scanTop fuel rest
        some (found ++ more, command)

end C1Lang.Command
