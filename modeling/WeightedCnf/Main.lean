import WeightedCnf.Run.Command
/-!
The program: the command in the file system, with events and complaints on the standard error output.
-/

namespace WeightedCnf.Main

def systemError (e : IO.Error) : SystemError :=
  match e with
  | .noFileOrDirectory .. => ⟨"No such file or directory", 2⟩
  | .inappropriateType .. => ⟨"Is a directory", 21⟩
  | .permissionDenied .. => ⟨"Permission denied", 13⟩
  | e => ⟨toString e, 5⟩

def attempt (action : IO Unit) : IO (Except SystemError Unit) := do
  try
    action
    return .ok ()
  catch e => return .error (systemError e)

/-- The bytes up to the end of a stream, and whether it was reached. -/
partial def readAll (h : IO.FS.Stream) (bytes : ByteArray) : IO Source := do
  let more ← try some <$> h.read (USize.ofNat BufferedStream.usualCapacity) catch _ => pure none
  match more with
  | none => return { content := bytes.toList, ending := .failure }
  | some more =>
    if more.isEmpty then return { content := bytes.toList }
    else readAll h (bytes ++ more)

def host : Host IO where
  find path := attempt do discard <| IO.FS.Handle.mk path .read
  create path := attempt do discard <| IO.FS.Handle.mk path .write
  source path := do
    match path with
    | none => readAll (← IO.getStdin) .empty
    | some path =>
      try readAll (.ofHandle (← IO.FS.Handle.mk path .read)) .empty
      catch _ => return { content := [], ending := .failure }
  write path text := do
    match path with
    | none =>
      let out ← IO.getStdout
      out.putStr (String.ofList text)
      out.flush
    | some path => IO.FS.writeFile path (String.ofList text)
  note event := do
    let fields := event.fields.map fun (name, value) => " " ++ name ++ "=" ++ value
    IO.eprintln (event.level.name ++ " " ++ event.message ++ String.join fields)
  complain text := IO.eprint text
  timed f := do
    let start ← IO.monoNanosNow
    let a ← IO.lazyPure f
    let stop ← IO.monoNanosNow
    return (a, (stop - start) / 1000)

end WeightedCnf.Main

def main (arguments : List String) : IO UInt32 := do
  let exit ← WeightedCnf.Command.run WeightedCnf.Main.host arguments
  return exit.code.toUInt32
