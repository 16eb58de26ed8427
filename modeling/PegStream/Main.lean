import PegStream.Calculator

/-!
# The calculator as a program

Reads expressions from standard input, one per line, and prints the value of each.
-/

namespace PegStream

/-- All bytes up to the end of a stream. -/
partial def readAll (stream : IO.FS.Stream) (acc : ByteArray) : IO ByteArray := do
  let block ← stream.read 65536
  if block.isEmpty then return acc else readAll stream (acc ++ block)

end PegStream

open PegStream

def main : IO UInt32 := do
  let input ← readAll (← IO.getStdin) .empty
  let transcript := Calculator.session Machine.ampleFuel input.toList
  for line in transcript.lines do
    IO.println line
  if transcript.aborted then
    IO.eprintln "error: input is not valid UTF-8"
    return 1
  return 0
