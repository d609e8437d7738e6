import CallByNeed.Fault

/- The outside: streams and files. A program asks, a host answers. `World` is the host as a value:
   two output streams, an input stream that is read once, and one directory of files. -/
namespace CallByNeed

inductive Source where
  | stdin
  | file (path : String)
  deriving DecidableEq, Repr

inductive Sink where
  | stdout
  | stderr
  /-- Emptied, or created with these permission bits, and then written. -/
  | file (path : String) (mode : Nat)
  deriving DecidableEq, Repr

inductive Request where
  | read (source : Source)
  | write (sink : Sink) (text : String)
  deriving DecidableEq, Repr

@[reducible] def Request.Answer : Request → Type
  | .read _ => Except FileError String
  | .write _ _ => Except FileError Unit

class Host (m : Type → Type) where
  answer : (q : Request) → m q.Answer

structure File where
  name : String
  mode : Nat
  content : ByteArray

structure World where
  stdin : ByteArray := .empty
  stdout : String := ""
  stderr : String := ""
  files : List File := []

/-- What a path names in the world's one directory. -/
inductive Place where
  | directory
  | nowhere (e : FileError)
  | file (name : String)

def decodeText (bytes : ByteArray) : Except FileError String :=
  match String.fromUTF8? bytes with
  | some s => .ok s
  | none => .error .notText

namespace World

def file? (w : World) (name : String) : Option File := w.files.find? fun f => f.name == name

/-- Empty and single-dot components do not move. -/
def place (w : World) (path : String) : Place :=
  if path.toList.contains '\x00' then .nowhere .nulInName
  else if path.isEmpty then .nowhere .notFound
  else
    let parts := path.toList.splitOn '/'
    let steps := parts.filter fun part => part ≠ [] ∧ part ≠ ['.']
    let isRooted := parts.head? = some []
    let endsInSlash := parts.getLast? = some []
    match steps with
    | [] => .directory
    | [['.', '.']] => .directory
    | [name] =>
      if isRooted then .nowhere .notFound
      else
        let name := String.ofList name
        if !endsInSlash then .file name
        else if (w.file? name).isSome then .nowhere .notDirectory else .nowhere .notFound
    | first :: _ =>
      if !isRooted && (w.file? (String.ofList first)).isSome then .nowhere .notDirectory
      else .nowhere .notFound

/-- Reading standard input takes all of it, readable or not. -/
def read (w : World) : Source → Except FileError String × World
  | .stdin => (decodeText w.stdin, { w with stdin := .empty })
  | .file path =>
    match w.place path with
    | .directory => (.error .isDirectory, w)
    | .nowhere e => (.error e, w)
    | .file name =>
      match w.file? name with
      | some f => (decodeText f.content, w)
      | none => (.error .notFound, w)

/-- A file that exists keeps its permission bits. -/
def store (w : World) (name : String) (mode : Nat) (content : ByteArray) : World :=
  if (w.file? name).isSome then
    { w with files := w.files.map fun f => if f.name == name then { f with content } else f }
  else { w with files := w.files ++ [{ name, mode := mode % 0o10000, content }] }

def write (w : World) (text : String) : Sink → Except FileError Unit × World
  | .stdout => (.ok (), { w with stdout := w.stdout ++ text })
  | .stderr => (.ok (), { w with stderr := w.stderr ++ text })
  | .file path mode =>
    match w.place path with
    | .directory => (.error .isDirectory, w)
    | .nowhere e => (.error e, w)
    | .file name => (.ok (), w.store name mode text.toUTF8)

def answer : (q : Request) → World → q.Answer × World
  | .read source, w => w.read source
  | .write sink text, w => w.write text sink

end World

instance : Host (StateM World) where
  answer q w := World.answer q w

end CallByNeed
