import FieldFormula.Command

/-!
The program `formula`.
-/
namespace FieldFormula.Command

partial def readBytes (stream : IO.FS.Stream) (bytes : ByteArray) : IO ByteArray := do
  let more ← stream.read 65536
  if more.isEmpty then return bytes else readBytes stream (bytes ++ more)

def readInput : IO (Option ByteArray) := do
  let stdin ← IO.getStdin
  if ← stdin.isTty then return none
  return some (← readBytes stdin .empty)

end FieldFormula.Command

open FieldFormula

def main (words : List String) : IO UInt32 := do
  let outcome ← match Command.ofWords {} words with
    | .error stop => pure stop.outcome
    | .ok c => do
      let input ← if c.readsInput then Command.readInput else pure none
      pure (c.run input)
  IO.print outcome.stdout
  IO.eprint outcome.stderr
  return outcome.code.toUInt32
