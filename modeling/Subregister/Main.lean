import Subregister.LaneHash

def main (args : List String) : IO UInt32 := do
  match Subregister.LaneHash.report args.head? with
  | .ok text =>
    IO.print text
    return 0
  | .error fault =>
    IO.eprintln fault.message
    return 1
