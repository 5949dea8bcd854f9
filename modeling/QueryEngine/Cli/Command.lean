import QueryEngine.Cli.Args
import QueryEngine.Cli.Report
import QueryEngine.Config.Text

/-! Commands: what a command line prints, and how it ends.

Every command works on tables of its own. `run` sorts a table of made-up rows by its
second column and keeps the first two; `explain` shows the plan of that; `mark-join`
shows which texts are in a list and which are not. -/
namespace QueryEngine.Cli

/-- What a command line has printed, and its exit code. -/
structure Outcome where
  exit : Nat
  output : String
  errors : String

def joinLines (lines : List String) : String := String.join (lines.map (· ++ "\n"))

/-! ### Tables -/

/-- The next number of a sequence. -/
def nextRandom (n : UInt64) : UInt64 := n * 6364136223846793005 + 1442695040888963407

/-- So many numbers of the sequence that starts behind `seed`. -/
def randoms : Nat → UInt64 → List UInt64
  | 0, _ => []
  | rows + 1, n => nextRandom n :: randoms rows (nextRandom n)

/-- A table of an id, a score below one hundred, a name and a weight below one. -/
def randomTable (rows : Nat) (seed : UInt64) : Except QueryError Provider := do
  let numbers := randoms rows seed
  let scores := numbers.map fun (n : UInt64) => (n >>> 33) % 100
  let weights := numbers.map fun (n : UInt64) => (Double.ofInt64 (n >>> 11).toInt64).div (Double.ofInt64 0x20000000000000)
  let columns := [
    Column.ofInts ((List.range rows).map Int64.ofNat),
    Column.ofInts (scores.map UInt64.toInt64),
    Column.ofSlots .varchar ((List.range rows).map fun i => ⟨.varchar ("row-" ++ toString i), .inr rfl⟩),
    Column.ofSlots .double (weights.map fun w => ⟨.double w, .inr rfl⟩)]
  return ⟨0, ← Table.ofArrays "random" (columns.map HostArray.column), 0⟩

def textTable (id : Nat) (name : String) (texts : List (Option String)) : Except QueryError Provider := do
  let column := Column.ofSlots .varchar (texts.map fun
    | some s => ⟨.varchar s, .inr rfl⟩
    | none => Slot.null .varchar)
  return ⟨id, ← Table.ofArrays name [column], 0⟩

/-! ### Queries -/

/-- Sorts a table by its second column and keeps the first rows, if so many are wanted,
and the first two columns. -/
def sortedPlan (table : Provider) (limit : Option Nat) : Except QueryError LogicalPlan := do
  let plan ← LogicalPlan.scan table
  let plan ← (← plan.prune 4).order [⟨.column 1 .bigInt, false, true⟩]
  let plan := match limit with
    | some n => plan.limit (some n) 0
    | none => plan
  plan.prune 2

/-- Which of some texts, a NULL among them, are in a list that may have one too. -/
def markPlan (withNull : Bool) : Except QueryError LogicalPlan := do
  let texts ← LogicalPlan.scan (← textTable 0 "probe" [some "A", some "B", some "C", none])
  let list ← LogicalPlan.scan (← textTable 1 "build" (some "A" :: if withNull then [none] else []))
  texts.join list .mark [(.column 0 .varchar, .column 0 .varchar)]

/-! ### Commands -/

/-- The settings of a command line: those of the file, then those of its options. -/
def settings (l : CommandLine) (read : String → Except FileError String) : Except QueryError Config := do
  let config ← match l.value? .config with
    | some path =>
      match read path with
      | .ok text => Config.ofText text
      | .error e => throw (.io e)
    | none => pure Config.standard
  let config := (l.count? .chunkCapacity).elim config config.withCapacity
  return (l.count? .memoryLimit).elim config config.withMemoryLimit

def executed (config : Config) (plan : LogicalPlan) : Except Failure (List String) := do
  let context := Context.ofConfig config
  resultLines (← (context.execute plan context.session).1)

/-- The lines that a command prints. -/
def commandLines (l : CommandLine) (config : Config) : Except Failure (List String) := do
  match l.command with
  | .run =>
    let table ← randomTable ((l.count? .rows).getD 20) (UInt64.ofNat ((l.count? .seed).getD 42))
    executed config (← sortedPlan table (l.count? .limit))
  | .explain =>
    let plan ← sortedPlan (← randomTable 4 0) (l.count? .limit)
    return ["Logical Plan:", plan.toText, "Physical Plan:", ← Context.explain plan]
  | .markJoin => executed config (← markPlan (l.has .withNull))
  | .help => return []

def usage : List String :=
  ["Usage: [OPTIONS] <COMMAND>", "",
   "Commands:",
   "  run        Sort a random table by its second column and keep the first two columns",
   "             [-r ROWS] [-l LIMIT] [-s SEED]",
   "  explain    Print the physical plan of the run query",
   "             [-l LIMIT]",
   "  mark-join  Show IN / NOT IN results computed by a mark join",
   "             [--with-null]", "",
   "Options:",
   "  -c, --config FILE         JSON execution config (chunk_capacity, memory_limit, verify_chunks)",
   "      --chunk-capacity ROWS Override the number of rows per chunk",
   "      --memory-limit BYTES  Override the memory pool limit in bytes",
   "  -h, --help                Print help"]

def failureText : Failure → String
  | .error e => "Error: " ++ e.message
  | .crash => "Error: row outside a column"
  | .stalled => "Error: out of rounds"

/-- What a command line does, given how files read. -/
def outcome (args : List String) (read : String → Except FileError String) : Outcome :=
  match CommandLine.ofArgs args with
  | .error .usage => ⟨2, "", joinLines usage⟩
  | .error .help => ⟨0, joinLines usage, ""⟩
  | .ok l =>
    match (do commandLines l (← settings l read) : Except Failure (List String)) with
    | .ok lines => ⟨0, joinLines lines, ""⟩
    | .error e => ⟨1, "", joinLines [failureText e]⟩

end QueryEngine.Cli
