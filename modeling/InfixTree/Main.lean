import InfixTree.Command

/-!
The program: the log and the error go to the standard error, the rest to the standard output.
-/

def main (arguments : List String) : IO UInt32 := do
  let outcome := InfixTree.Command.run arguments
  for line in outcome.log do
    IO.eprintln line
  if let some message := outcome.error? then
    IO.eprintln s!"error: {message}"
  IO.print outcome.output
  return outcome.code.toUInt32
