import CssHints.Command.Run

/-!
# `CssHints.Main`: the program

Collects the files that the arguments can name, runs the command, writes the files that it
changes and prints what it says.
-/

set_option autoImplicit false

namespace CssHints.Program

/-- The names on a path. -/
def namesOf (path : Text) : List Text := (Text.splitOn '/' path).filter (· ≠ [])

/-- The names in an argument, read as a path as a whole, behind a short switch and behind an
equals sign. -/
def namesIn (arg : Text) : List Text :=
  [arg, arg.drop 2, (arg.dropWhile (· ≠ '=')).drop 1].flatMap namesOf

/-- The path of a file in the tree. -/
def pathOf (names : List Text) : String := String.ofList ('/' :: Text.join "/" names)

/-- The tree with the directory `here` and what is below it, as far as only known names stand on
the way. What cannot be opened is passed over. -/
partial def collect (known here : List Text) (tree : FileTree) : IO FileTree := do
  let mut found := { tree with directories := tree.directories ++ [here] }
  let directory := IO.FS.DirEntry.mk (pathOf here) ""
  for entry in ← directory.root.readDir do
    let name := entry.fileName.toList
    if known.contains name then
      try
        if ← entry.path.isDir then
          found ← collect known (here ++ [name]) found
        else
          let content ← IO.FS.readBinFile entry.path
          found := found.put (here ++ [name]) content.toList
      catch _ => pure ()
  return found

/-- Writes the files whose content is not what it was. -/
def writeChanges (before after : FileTree) : IO Unit := do
  for (names, content) in after.files do
    if before.content? names ≠ some content then
      IO.FS.writeBinFile (pathOf names) ⟨content.toArray⟩

end CssHints.Program

open CssHints in
def main (args : List String) : IO UInt32 := do
  let args := args.map String.toList
  let working := Program.namesOf (← IO.currentDir).toString.toList
  let tree ← Program.collect (working ++ args.flatMap Program.namesIn) [] { working }
  let stdin ← if args.contains ['-'] then (← IO.getStdin).readBinToEnd else pure .empty
  let outcome := Command.run args tree stdin.toList
  Program.writeChanges tree outcome.files
  IO.print (String.ofList outcome.stdout)
  IO.eprint (String.ofList outcome.stderr)
  match outcome.ending with
  | .unreadable fault => IO.eprintln (String.ofList fault.message)
  | .exceeded excess => IO.eprintln (String.ofList excess.message)
  | _ => pure ()
  return outcome.ending.exitCode.toUInt32
