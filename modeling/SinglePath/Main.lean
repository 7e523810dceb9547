import SinglePath.CommandLine

def main (args : List String) : IO UInt32 := do
  let transcript := SinglePath.CommandLine.run args
  IO.print transcript.output
  return UInt32.ofNat transcript.code
