import CssHints.PlainPath
import CssHints.Text.Utf8

/-!
# `CssHints.FileTree`: files and the paths to them

A tree of files is a list of files, each with the names on the way to it from the root, a list of
directories and the working directory. A directory is there if it is listed or on the way to a
file, to a listed directory or to the working directory. A path is looked up name by name, from
the root if it starts with a slash and else from the working directory: `.` and empty names stay,
`..` goes up, and every name but the last must lead to a directory.
-/

set_option autoImplicit false

namespace CssHints

/-- Files by the names on the way to them, directories that may be empty, and the working
directory. -/
structure FileTree where
  files : List (List Text × Bytes) := []
  directories : List (List Text) := []
  working : List Text := []
  deriving DecidableEq, Repr

namespace FileTree

/-- Why a file cannot be opened, or a directory not be made. -/
inductive OpenError
  | noSuchFile
  | fileExists
  | notDirectory
  | isDirectory
  | nameTooLong
  deriving DecidableEq, Repr

/-- The words for an error. -/
def OpenError.message : OpenError → Text
  | .noSuchFile => "No such file or directory"
  | .fileExists => "File exists"
  | .notDirectory => "Not a directory"
  | .isDirectory => "Is a directory"
  | .nameTooLong => "File name too long"

/-- The number by which systems know the error. -/
def OpenError.number : OpenError → Nat
  | .noSuchFile => 2
  | .fileExists => 17
  | .notDirectory => 20
  | .isDirectory => 21
  | .nameTooLong => 36

/-- What a path leads to. -/
inductive Lookup
  | file (names : List Text) (content : Bytes)
  | directory
  /-- Nothing, but a file can be made there. -/
  | absent (names : List Text)
  /-- No directory, though the path ends with a slash. -/
  | noDirectory (e : OpenError)
  /-- Nothing, since a name on the way leads nowhere. -/
  | unreachable (e : OpenError)
  deriving DecidableEq, Repr

/-- The most bytes that a name can have. -/
def nameLimit : Nat := 255

/-- The most bytes that a path can have. -/
def pathLimit : Nat := 4095

/-- The content of the file at the given names. -/
def content? (tree : FileTree) (names : List Text) : Option Bytes :=
  (tree.files.find? fun f => f.1 = names).map Prod.snd

/-- The names lead to a directory. -/
def isDirectory (tree : FileTree) (names : List Text) : Bool :=
  (tree.working :: tree.directories).any names.isPrefixOf ||
    tree.files.any fun f => names.isPrefixOf f.1 && f.1 ≠ names

/-- What a path leads to if one of its names leads to no directory and `names` follow it. If all
of them are empty, it is the last name, with slashes after it. -/
def stopBefore (names : List Text) (e : OpenError) : Lookup :=
  if names ≠ [] ∧ names.all (· = []) then .noDirectory e else .unreachable e

/-- What further names lead to from the directory `here`. -/
def lookupFrom (tree : FileTree) (here : List Text) : List Text → Lookup
  | [] => .directory
  | name :: names =>
    if name = [] ∨ name = ['.'] then lookupFrom tree here names
    else if name = ['.', '.'] then lookupFrom tree here.dropLast names
    else
      let there := here ++ [name]
      match tree.content? there with
      | some content => if names = [] then .file there content else stopBefore names .notDirectory
      | none =>
        if tree.isDirectory there then lookupFrom tree there names
        else if nameLimit < (Utf8.encode name).length then stopBefore names .nameTooLong
        else if names = [] then .absent there
        else stopBefore names .noSuchFile

/-- What a path leads to. An empty path leads nowhere. -/
def lookup (tree : FileTree) (path : Text) : Lookup :=
  match path with
  | [] => .unreachable .noSuchFile
  | c :: _ =>
    if pathLimit < (Utf8.encode path).length then .unreachable .nameTooLong
    else lookupFrom tree (if c = '/' then [] else tree.working) (Text.splitOn '/' path)

/-- The content of a file. -/
def read (tree : FileTree) (path : Text) : Except OpenError Bytes :=
  match tree.lookup path with
  | .file _ content => .ok content
  | .directory => .error .isDirectory
  | .absent _ => .error .noSuchFile
  | .noDirectory e => .error e
  | .unreachable e => .error e

/-- The files with one content changed, in the place of the file or else at the end. -/
def putFile (names : List Text) (content : Bytes) :
    List (List Text × Bytes) → List (List Text × Bytes)
  | [] => [(names, content)]
  | f :: fs => if f.1 = names then (names, content) :: fs else f :: putFile names content fs

/-- The tree with the content in the file at the given names. -/
def put (tree : FileTree) (names : List Text) (content : Bytes) : FileTree :=
  { tree with files := putFile names content tree.files }

/-- The tree after a file has been written. A path that ends with a slash asks for a directory,
whatever it leads to. -/
def write (tree : FileTree) (path : Text) (content : Bytes) : Except OpenError FileTree :=
  match tree.lookup path with
  | .file names _ => .ok (tree.put names content)
  | .absent names => .ok (tree.put names content)
  | .directory => .error .isDirectory
  | .noDirectory _ => .error .isDirectory
  | .unreachable e => .error e

/-- The tree with a directory at the path, which is made if its parent is there. -/
def makeDirectory (tree : FileTree) (path : PlainPath) : Except OpenError FileTree :=
  match tree.lookup path.toText with
  | .directory => .ok tree
  | .absent names => .ok { tree with directories := tree.directories ++ [names] }
  | .file _ _ => .error .fileExists
  | .noDirectory e => .error e
  | .unreachable e => .error e

/-- The tree with a directory at the path, which is made with all directories on the way to it.
An error comes with the path at which it arises. -/
def makeDirectories (tree : FileTree) (path : PlainPath) :
    Except (PlainPath × OpenError) FileTree :=
  match tree.makeDirectory path with
  | .ok made => .ok made
  | .error e =>
    if h : e = .noSuchFile ∧ path.names ≠ [] then do
      have := path.length_parent_lt h.2
      let above ← makeDirectories tree path.parent
      (above.makeDirectory path).mapError (path, ·)
    else .error (path, e)
termination_by path.names.length

end FileTree

end CssHints
