import QueryEngine.Chunk.Basic

/-! Reading a command line.

Options may stand before the command and behind it. Those that set up the engine are
known in both places, and one behind the command wins. An option takes its value
from behind an equals sign or from the next argument, which then must not look like
an option. No option may be given twice in one place. -/
namespace QueryEngine.Cli

inductive Flag where
  | config
  | chunkCapacity
  | memoryLimit
  | rows
  | limit
  | seed
  | withNull
  | help
  deriving DecidableEq

inductive CommandName where
  | run
  | explain
  | markJoin
  | help
  deriving DecidableEq

namespace Flag

def long : Flag → String
  | config => "config"
  | chunkCapacity => "chunk-capacity"
  | memoryLimit => "memory-limit"
  | rows => "rows"
  | limit => "limit"
  | seed => "seed"
  | withNull => "with-null"
  | help => "help"

def short? : Flag → Option Char
  | config => some 'c'
  | rows => some 'r'
  | limit => some 'l'
  | seed => some 's'
  | help => some 'h'
  | _ => none

def takesValue : Flag → Bool
  | withNull | help => false
  | _ => true

end Flag

namespace CommandName

def ofText? : String → Option CommandName
  | "run" => some run
  | "explain" => some explain
  | "mark-join" => some markJoin
  | "help" => some help
  | _ => none

/-- The options known behind a command, besides those known everywhere. -/
def flags : CommandName → List Flag
  | run => [.rows, .limit, .seed]
  | explain => [.limit]
  | markJoin => [.withNull]
  | help => []

end CommandName

def sharedFlags : List Flag := [.config, .chunkCapacity, .memoryLimit, .help]

/-- Decimal digits, perhaps behind a plus sign, of a number below 2^64. -/
def count? (s : String) : Option Nat :=
  let digits := match s.toList with
    | '+' :: ds => ds
    | ds => ds
  if digits.isEmpty || !digits.all Char.isDigit then none
  else
    let n := digits.foldl (fun n c => 10 * n + (c.toNat - '0'.toNat)) 0
    if n ≤ maxCount then some n else none

def Flag.accepts (f : Flag) (value : String) : Bool :=
  match f with
  | .config => value ≠ ""
  | .withNull | .help => true
  | _ => (count? value).isSome

/-- Why there is nothing to run. -/
inductive Stop where
  | usage
  | help

/-- An option with its value, if that comes with it. -/
structure Written where
  flag : Flag
  value : Option String

inductive Argument where
  | option (written : Written)
  | unknownOption
  /-- Two hyphens: no options from here on. -/
  | noMoreOptions
  | word (text : String)

namespace Argument

/-- An option by its long name, with what stands behind an equals sign. -/
def ofLong (known : List Flag) (body : List Char) : Argument :=
  let name := body.takeWhile (· ≠ '=')
  let value := match body.dropWhile (· ≠ '=') with
    | _ :: v => some (String.ofList v)
    | [] => none
  match known.find? fun f => f.long.toList = name with
  | some f => option ⟨f, value⟩
  | none => unknownOption

/-- An option by its letter, with what is attached to it. -/
def ofShort (known : List Flag) (letter : Char) (rest : List Char) : Argument :=
  match known.find? fun f => f.short? = some letter with
  | none => unknownOption
  | some f =>
    match rest with
    | [] => option ⟨f, none⟩
    | '=' :: v => option ⟨f, some (String.ofList v)⟩
    | v => if f.takesValue then option ⟨f, some (String.ofList v)⟩ else option ⟨f, none⟩

def ofText (known : List Flag) (s : String) : Argument :=
  match s.toList with
  | ['-', '-'] => noMoreOptions
  | '-' :: '-' :: body => ofLong known body
  | '-' :: letter :: rest => ofShort known letter rest
  | _ => word s

end Argument

/-- The options given in one place. -/
abbrev Given := List (Flag × String)

/-- Adds an option, unless it was given before or its value does not fit. -/
def Given.add (g : Given) (f : Flag) (value : String) : Except Stop Given :=
  if (g.lookup f).isSome || !f.accepts value then .error .usage else .ok ((f, value) :: g)

/-- Reads options up to the first word, which is left with what stands behind it. -/
def readOptions (known : List Flag) (g : Given) : List String → Except Stop (Given × List String)
  | [] => .ok (g, [])
  | arg :: rest =>
    match Argument.ofText known arg with
    | .word _ => .ok (g, arg :: rest)
    | .unknownOption => .error .usage
    | .noMoreOptions => if rest.isEmpty then .ok (g, []) else .error .usage
    | .option ⟨f, attached⟩ =>
      if f.takesValue then
        match attached, rest with
        | some value, rest => do readOptions known (← g.add f value) rest
        | none, [] => .error .usage
        | none, value :: rest =>
          if value.startsWith "-" && value ≠ "-" then .error .usage
          else do readOptions known (← g.add f value) rest
      else if attached.isSome then .error .usage
      else if f = .help then .error .help
      else do readOptions known (← g.add f "") rest

/-- A command and the options in front of it and behind it. -/
structure CommandLine where
  command : CommandName
  outer : Given
  inner : Given

namespace CommandLine

/-- The help command takes the names of commands to explain. -/
def readHelp (names : List String) : Stop :=
  match names with
  | [] => .help
  | [name] => if (CommandName.ofText? name).isSome then .help else .usage
  | _ => .usage

def ofArgs (args : List String) : Except Stop CommandLine := do
  let (outer, rest) ← readOptions sharedFlags [] args
  match rest with
  | [] => throw .usage
  | name :: rest =>
    match CommandName.ofText? name with
    | none => throw .usage
    | some .help => throw (readHelp rest)
    | some command =>
      let (inner, rest) ← readOptions (sharedFlags ++ command.flags) [] rest
      if rest.isEmpty then return ⟨command, outer, inner⟩ else throw .usage

/-- An option's value; the one behind the command wins. -/
def value? (l : CommandLine) (f : Flag) : Option String := (l.inner.lookup f).or (l.outer.lookup f)

def count? (l : CommandLine) (f : Flag) : Option Nat := (l.value? f).bind Cli.count?

def has (l : CommandLine) (f : Flag) : Bool := (l.value? f).isSome

end CommandLine
end QueryEngine.Cli
