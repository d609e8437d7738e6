import CallByNeed.Builtin.Arithmetic
import CallByNeed.Value.Text

/- Reading and writing. All forcing comes before the one request to the host. -/
namespace CallByNeed
namespace Builtin

/-- Writes the texts of the arguments between separators, and then the end. -/
def writeTo (bound : Nat) (arguments separator ending file mode : Ref) : Script Outcome := do
  let separator ← forceString separator
  let parts ← (← forceList arguments).walk (fun parts r => do
    pure (.yield ((← (← force r).text bound) :: parts))) bound []
  let ending ← forceString ending
  let text := separator.intercalate parts.reverse ++ ending
  let sink : Sink ← match ← force file with
    | .number x =>
      if x.same .one then pure .stdout
      else if x.same (.ofDyadic false 2 0) then pure .stderr
      else fail .badSink
    | .string path => do
      pure (.file path ((← forceNumber mode).saturate 0xFFFFFFFF))
    | _ => fail .badSink
  .ask (.write sink text) fun
    | .ok () => answer (.list .nil)
    | .error e => fail (.file e)

def readFrom (file : Ref) : Script Outcome := do
  let source : Source ← match ← force file with
    | .number x => if x.isZero then pure .stdin else fail .badSource
    | .string path => pure (.file path)
    | _ => fail .badSource
  .ask (.read source) fun
    | .ok text => answer (.string text)
    | .error e => fail (.file e)

end Builtin
end CallByNeed
