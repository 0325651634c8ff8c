import StepBinding.Command

/-! The program. It takes the files that its arguments name, and the settings files of the
directories around them, into a file tree, runs the command on the tree, and writes what
changed. The paths of the files below a directory are taken from standard input, one in
each line. -/

namespace StepBinding.Main

def pathText (place : List String) : String := Path.text { parts := place, isAbsolute := true }

/-- The text of a file, if it can be read. -/
def textAt? (place : List String) : IO (Option String) := do
  try
    return some (← IO.FS.readFile (pathText place))
  catch _ => return none

/-- The settings files that may apply to a place. -/
def settingsPlaces (place : List String) : List (List String) :=
  (List.range (place.length + 1)).map fun n => place.take n ++ [Settings.fileName]

/-- The files at some places that can be read. -/
def readAll (places : List (List String)) : IO (List (List String × String)) := do
  let found ← places.mapM fun place => do
    return (← textAt? place).map fun text => (place, text)
  return found.filterMap id

/-- Places named on standard input. -/
partial def namedPlaces (t : FileTree) (input : IO.FS.Stream) : IO (List (List String)) := do
  let line ← input.getLine
  if line.isEmpty then return []
  return (t.resolved? (Path.ofText line.trimAscii.toString)).toList ++ (← namedPlaces t input)

/-- Whether a request is about all files below a directory, none of which its arguments name. -/
def isAboutDirectory (t : FileTree) : Option Command.Request → Bool
  | some (.lower _ path ..) | some (.check _ path) => t.find? path != some false
  | _ => false

/-- The tree that a command works on. -/
def treeFor (args : List String) : IO FileTree := do
  let root := (Path.ofText ((← IO.getEnv "PWD").getD "/")).parts
  let places := args.filterMap fun arg => FileTree.resolved? { root } (Path.ofText arg)
  let files ← readAll ((places ++ places.flatMap settingsPlaces).eraseDups)
  let t : FileTree := { root, files }
  if isAboutDirectory t (Command.request? args) then
    let more ← readAll (← namedPlaces t (← IO.getStdin))
    return { t with files := (more ++ files).eraseDups }
  else return t

/-- Makes the directories and writes the files of a tree that differ from those of another. -/
def writeChanged (before after : FileTree) : IO Unit := do
  for place in after.made.reverse do
    IO.FS.createDirAll (pathText place)
  for (place, text) in after.files do
    if before.content? place != some text then
      IO.FS.createDirAll (pathText place.dropLast)
      IO.FS.writeFile (pathText place) text

end StepBinding.Main

def main (args : List String) : IO UInt32 := do
  let t ← StepBinding.Main.treeFor args
  let result := StepBinding.Command.execute t args
  StepBinding.Main.writeChanged t result.console.tree
  IO.print result.console.out
  IO.eprint result.console.err
  return result.exit.toUInt32
