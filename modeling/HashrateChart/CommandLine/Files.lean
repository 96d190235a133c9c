/-
Where a path leads among the files of a folder.

Parts of a path that are empty or a single point are dropped first, so that a
path may end in a slash, and an empty path is the folder itself. Two points lead
to the folder above. Above the folder nothing is known, and at the root only the
folders that every system has there, and the empty device.

The names of files are bytes. A path whose text has no bytes leads nowhere.
-/
import HashrateChart.Text.Half

namespace HashrateChart

/-- What is found under a path. -/
inductive Found where
  | file (text : String)
  | missing
  /-- Something that is no file, or a name that no file system takes. -/
  | trouble
  deriving DecidableEq

/-- The texts of the files of a folder, by their names. -/
abbrev Files := List (String × String)

namespace Files

/-- A name takes this many bytes at most. -/
def maxName : Nat := 255

/-- A path takes fewer bytes than this. -/
def maxPath : Nat := 4096

/-- The parts of a path that count. -/
def parts (path : String) : List String :=
  (path.splitOn "/").filter fun p => p ≠ "" ∧ p ≠ "."

/-- The name of a file or folder. -/
abbrev Name := List UInt8

/-- The names that a path leads along. -/
def names? (path : String) : Option (List Name) := (parts path).mapM Text.bytes?

/-- The name of the folder above. -/
def folderAbove : Name := [46, 46]

/-- How many bytes names take with a slash between them. -/
def size (names : List Name) : Nat := names.foldl (fun n name => n + name.length + 1) 0 - 1

/-- How many slashes stay at the front of a path; two stay two, but more are one. -/
def rootSize (path : String) : Nat :=
  if path.startsWith "//" && !path.startsWith "///" then 2 else if path.startsWith "/" then 1 else 0

/-- A place in the file system: inside the folder or at the root, by the names that lead there
with the last one first, or in a folder that holds the given one. -/
inductive Place where
  | inside (names : List Name)
  | above
  | rooted (names : List Name)

/-- The folders that stand at the root of every system. -/
def rootFolders : List String :=
  ["bin", "boot", "dev", "etc", "home", "lib", "media", "mnt", "opt", "proc", "root", "run", "sbin",
    "srv", "sys", "tmp", "usr", "var"]

/-- The texts of the files that are known from a place on, by the names that lead there. -/
def known (files : Files) (p : Place) : List (List Name × String) :=
  let files := match p with
    | .inside _ => files
    | .above => []
    | .rooted _ => [("dev/null", "")]
  files.filterMap fun (path, text) => (names? path).map (·, text)

def Place.names : Place → List Name
  | inside ns | rooted ns => ns.reverse
  | above => []

def Place.down (name : Name) : Place → Place
  | inside ns => inside (name :: ns)
  | rooted ns => rooted (name :: ns)
  | above => above

def Place.up : Place → Place
  | inside (_ :: ns) => inside ns
  | inside [] | above => above
  | rooted ns => rooted ns.tail

/-- Whether a place is a folder. -/
def isFolder (files : Files) (p : Place) : Bool :=
  match p with
  | .rooted [name] => rootFolders.any fun folder => Text.bytes? folder = some name
  | p => p.names.isEmpty || (files.known p).any fun (names, _) =>
    p.names.isPrefixOf names && p.names.length < names.length

/-- The text of the file at a place. -/
def textAt? (files : Files) (p : Place) : Option String :=
  ((files.known p).reverse.find? fun (names, _) => names = p.names).map (·.2)

/-- Follows the names of a path. -/
def follow (files : Files) (p : Place) : List Name → Found
  | [] =>
    match files.textAt? p with
    | some text => if p.names.isEmpty then .trouble else .file text
    | none => if files.isFolder p then .trouble else .missing
  | name :: rest =>
    if !files.isFolder p then .missing
    else if name = folderAbove then files.follow p.up rest
    else if maxName < name.length then .trouble
    else
      match p with
      | .above => .missing
      | p => files.follow (p.down name) rest

/-- What is found under a path. -/
def find (files : Files) (path : String) : Found :=
  if path.toList.contains '\x00' then .missing
  else
    match names? path with
    | none => .missing
    | some names =>
      if maxPath ≤ size names + rootSize path then .trouble
      else files.follow (if path.startsWith "/" then .rooted [] else .inside []) names

end Files

end HashrateChart
