import CallByNeed.Output

/- The command: reads a program and runs its outputs. -/
namespace CallByNeed

namespace CommandLine

structure Options where
  program : Option String := none
  maxConcurrency : Option Nat := none
  stackSize : Option Nat := none
  verbosity : Nat := 0
  listBuiltins : Bool := false

inductive Command where
  /-- At most `permits` outputs are performed at once. -/
  | run (program : String) (permits : Nat)
  | listBuiltins
  | version
  | help
  /-- The arguments make no command. -/
  | misuse

/-- Options that take a value, without their dashes. -/
def valued : List String := ["max-concurrency", "stack-size"]

/-- A count that fits 64 bits; a plus sign may go before it. -/
def readCount (text : String) : Option Nat :=
  let digits :=
    match text.toList with
    | '+' :: rest => rest
    | cs => cs
  if digits.isEmpty || !digits.all Char.isDigit then none
  else
    let count := digits.foldl (fun n c => n * 10 + (c.toNat - '0'.toNat)) 0
    if count < 1 <<< 64 then some count else none

/-- Sets a valued option that was not set before. -/
def setValue (o : Options) (name value : String) : Option Options := do
  let count ← readCount value
  if name == "max-concurrency" then
    if o.maxConcurrency.isSome then none else some { o with maxConcurrency := some count }
  else if o.stackSize.isSome then none else some { o with stackSize := some count }

def setProgram (o : Options) (name : String) : Option Options :=
  if o.program.isSome || name.isEmpty then none else some { o with program := some name }

/-- What a cluster of short options does. -/
inductive Short where
  | options (o : Options)
  | command (c : Command)

def readShort (o : Options) : List Char → Short
  | [] => .options o
  | 'v' :: rest => readShort { o with verbosity := o.verbosity + 1 } rest
  | 'h' :: _ => .command .help
  | 'V' :: _ => .command .version
  | _ :: _ => .command .misuse

def defaultPermits : Nat := 256

def finish (o : Options) : Command :=
  if o.listBuiltins then .listBuiltins
  else
    match o.program with
    | some program => .run program (o.maxConcurrency.getD defaultPermits)
    | none => .misuse

/-- Everything after two dashes is a program. -/
def readPrograms (o : Options) : List String → Command
  | [] => finish o
  | name :: rest =>
    match setProgram o name with
    | some o => readPrograms o rest
    | none => .misuse

/-- Reads arguments from the left; help and version answer at once. -/
def read (o : Options) : List String → Command
  | [] => finish o
  | "--" :: rest => readPrograms o rest
  | "--help" :: _ => .help
  | "--version" :: _ => .version
  | "--list-builtins" :: rest =>
    if o.listBuiltins then .misuse else read { o with listBuiltins := true } rest
  | "--verbose" :: rest => read { o with verbosity := o.verbosity + 1 } rest
  | argument :: rest =>
    match argument.toList with
    | '-' :: '-' :: cs =>
      let name := String.ofList (cs.takeWhile (· != '='))
      if !valued.contains name then .misuse
      else
        match cs.dropWhile (· != '=') with
        | _ :: value =>
          match setValue o name (String.ofList value) with
          | some o => read o rest
          | none => .misuse
        | [] =>
          match rest with
          | value :: rest =>
            if value.toList.head? = some '-' && value != "-" then .misuse
            else
              match setValue o name value with
              | some o => read o rest
              | none => .misuse
          | [] => .misuse
    | '-' :: c :: cs =>
      match readShort o (c :: cs) with
      | .options o => read o rest
      | .command command => command
    | _ =>
      match setProgram o argument with
      | some o => read o rest
      | none => .misuse

def parse (arguments : List String) : Command := read {} arguments

/-- Steps and loop rounds an evaluation may take; more than any machine gets through. -/
def limit : Nat := Nat.pow 10 18

def engine : Engine := { bound := limit }

section
variable {m : Type → Type} [Monad m] [Host m]

def print (sink : Sink) (text : String) : m Unit := do
  let _ ← Host.answer (.write sink text)

/-- Loads and runs a program; the exit code. -/
def runProgram (path : String) (permits : Nat) : m Nat := do
  let source : Source := if path == "-" then .stdin else .file path
  match ← Host.answer (.read source) with
  | .error e => do
    print .stderr s!"tisp: {path}: {e.message}\n"
    pure 1
  | .ok text =>
    match Program.loadText text {} with
    | .error e => do
      print .stderr s!"tisp: {e.message}\n"
      pure 1
    | .ok (module, heap) => do
      match ← Output.runAll engine limit permits module.outputs { heap } with
      | some (.ok ()) => pure 0
      | some (.error e) => do
        print .stderr e.report
        pure 1
      | none => pure 134

/-- The exit code of a command. -/
def execute : Command → m Nat
  | .run program permits => runProgram program permits
  | .listBuiltins => do
    print .stdout (String.join (Predefined.names.map (· ++ "\n")))
    pure 0
  | .version => do
    print .stdout "tisp 0.1.0\n"
    pure 0
  | .help => do
    print .stdout "Usage: tisp [OPTIONS] <PROGRAM>\n"
    pure 0
  | .misuse => do
    print .stderr "Usage: tisp [OPTIONS] <PROGRAM>\n"
    pure 2

end
end CommandLine
end CallByNeed
