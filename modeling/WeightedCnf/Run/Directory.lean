import WeightedCnf.Run.Command
/-!
A directory of files kept in memory, in which a command can run.
-/

namespace WeightedCnf

/-- Files by their path from the directory, and what a command reads and shows besides. -/
structure Directory where
  files : List (String × List Char) := []
  standardInput : List Char := []
  standardOutput : List Char := []
  events : Log := #[]
  complaints : List String := []

namespace Directory

def missing : SystemError := ⟨"No such file or directory", 2⟩

def notADirectory : SystemError := ⟨"Not a directory", 20⟩

def isADirectory : SystemError := ⟨"Is a directory", 21⟩

/-- What a path leads to. -/
inductive Place where
  /-- A file, by its name in the directory. -/
  | file (name : String)
  | directory
  /-- Nothing, though something could be created there. -/
  | free (name : String)
  | none (reason : SystemError)

def nameOf (parts : List String) : String :=
  "/".intercalate parts

def isFile (d : Directory) (parts : List String) : Bool :=
  d.files.any fun (name, _) => name == nameOf parts

/-- Whether some file is below these parts. -/
def isDirectory (d : Directory) (parts : List String) : Bool :=
  parts.isEmpty || d.files.any fun (name, _) => (nameOf parts ++ "/").isPrefixOf name

def follow (d : Directory) (path : String) : Place :=
  let parts := path.splitOn "/"
  if path.isEmpty || parts.head? == some "" then .none missing
  else
    let slash := parts.getLast? == some "" || parts.getLast? == some "."
    let parts := parts.filter fun part => part != "" && part != "."
    if d.isDirectory parts then .directory
    else if (List.range parts.length).any fun n => d.isFile (parts.take n) then .none notADirectory
    else if d.isFile parts then if slash then .none notADirectory else .file (nameOf parts)
    else if d.isDirectory parts.dropLast then
      if slash then .none isADirectory else .free (nameOf parts)
    else .none missing

def put (d : Directory) (name : String) (content : List Char) : Directory :=
  if d.files.any (·.1 == name) then
    { d with files := d.files.map fun (n, c) => (n, if n == name then content else c) }
  else { d with files := d.files ++ [(name, content)] }

def get (d : Directory) (name : String) : List Char :=
  ((d.files.find? (·.1 == name)).map (·.2)).getD []

/-- The directory as a place where a command runs. Writing starts at the beginning of a file and leaves what
is beyond the end of the text; time does not pass. -/
def host : Host (StateM Directory) where
  find path := do
    match (← MonadState.get).follow path with
    | .file _ | .directory => return .ok ()
    | .free _ => return .error missing
    | .none reason => return .error reason
  create path := do
    match (← MonadState.get).follow path with
    | .file name | .free name =>
      modify (·.put name [])
      return .ok ()
    | .directory => return .error isADirectory
    | .none reason => return .error reason
  source path := do
    let d ← MonadState.get
    match path with
    | none => return { content := Text.Utf8.encode d.standardInput }
    | some path => match d.follow path with
      | .file name => return { content := Text.Utf8.encode (d.get name) }
      | _ => return { content := [], ending := .failure }
  write path text :=
    match path with
    | none => modify fun d => { d with standardOutput := d.standardOutput ++ text }
    | some path => modify fun d => match d.follow path with
      | .file name => d.put name (text ++ (d.get name).drop text.length)
      | _ => d
  note event := modify fun d => { d with events := d.events.push event }
  complain text := modify fun d => { d with complaints := d.complaints ++ [text] }
  timed f := return (f (), 0)

def run (d : Directory) (arguments : List String) : Exit × Directory :=
  (Command.run host arguments).run d

end Directory

end WeightedCnf
