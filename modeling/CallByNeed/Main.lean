import CallByNeed.CommandLine

/- The command as a program, on the streams and files of the system. -/
namespace CallByNeed
namespace CommandLine

def systemError : IO.Error → FileError
  | .alreadyExists _ code text | .otherError code text | .resourceBusy code text
  | .resourceVanished code text | .unsupportedOperation code text | .hardwareFault code text
  | .unsatisfiedConstraints code text | .illegalOperation code text | .protocolError code text
  | .timeExpired code text | .interrupted _ code text | .noFileOrDirectory _ code text
  | .invalidArgument _ code text | .permissionDenied _ code text
  | .resourceExhausted _ code text | .inappropriateType _ code text
  | .noSuchThing _ code text => .other s!"{text} (os error {code})"
  | .unexpectedEof => .other "unexpected end of file"
  | .userError text => .other text

/-- What the system answers, or its refusal. -/
def tried {α : Type} (act : IO α) : IO (Except FileError α) := do
  match ← act.toBaseIO with
  | .ok a => pure (.ok a)
  | .error e => pure (.error (systemError e))

def accessRight (bits : Nat) : IO.AccessRight :=
  { read := bits.testBit 2, write := bits.testBit 1, execution := bits.testBit 0 }

def fileRight (mode : Nat) : IO.FileRight :=
  { user := accessRight (mode / 0o100), group := accessRight (mode / 0o10),
    other := accessRight mode }

def readSystem (source : Source) : IO (Except FileError String) := do
  let bytes ← match source with
    | .stdin => tried do (← IO.getStdin).readBinToEnd
    | .file path =>
      if path.contains '\x00' then pure (.error .nulInName)
      else tried do (← IO.FS.Handle.mk path .read).readBinToEnd
  pure (do decodeText (← bytes))

/-- A file that does not exist is created with the permission bits of the sink. -/
def writeFile (path : String) (mode : Nat) (text : String) : IO (Except FileError Unit) := do
  match ← (IO.FS.Handle.mk path .writeNew).toBaseIO with
  | .ok file => tried do
    IO.setAccessRights path (fileRight mode)
    file.putStr text
  | .error (.alreadyExists _ _ _) => tried do (← IO.FS.Handle.mk path .write).putStr text
  | .error e => pure (.error (systemError e))

def writeSystem (sink : Sink) (text : String) : IO (Except FileError Unit) :=
  match sink with
  | .stdout => tried do
    let stream ← IO.getStdout
    stream.putStr text
    stream.flush
  | .stderr => tried do (← IO.getStderr).putStr text
  | .file path mode =>
    if path.contains '\x00' then pure (.error .nulInName) else writeFile path mode text

instance : Host IO where
  answer
    | .read source => readSystem source
    | .write sink text => writeSystem sink text

end CommandLine
end CallByNeed

def main (arguments : List String) : IO UInt32 := do
  let code ← CallByNeed.CommandLine.execute (CallByNeed.CommandLine.parse arguments)
  pure code.toUInt32
