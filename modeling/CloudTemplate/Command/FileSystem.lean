import CloudTemplate.Command.Files

/-!
# File systems

A file system is a tree of directories with files and devices.  A location is the list of names that
lead to an entry from the root, and a path is followed name by name from the root or from the
working directory: an empty name or one dot stays, two dots lead up, and any other name must be that
of an entry.  All names but the last one must lead to directories; a path that ends in a slash asks
for a directory.

Names are rows of bytes, as paths are, and both have a greatest length.
-/

namespace CloudTemplate.Command

/-- A device: one that takes whatever is written and one that takes nothing.  Nothing can be read
from either. -/
inductive Device where
  | null
  | full
  deriving DecidableEq, Repr

/-- What stands at a location. -/
inductive Entry where
  | directory
  | file (bytes : List UInt8)
  | device (d : Device)
  deriving DecidableEq

/-- The names that lead to an entry from the root. -/
abbrev Whereabouts := List (List UInt8)

/-- A file system with a working directory. -/
structure FileSystem where
  entries : List (Whereabouts × Entry)
  working : Whereabouts

namespace FileSystem

/-- The most bytes that a name has. -/
def nameLimit : Nat := 255

/-- The most bytes that a path has. -/
def pathLimit : Nat := 4095

/-- What stands between the names of a path. -/
def slash : UInt8 := 0x2F

/-- What the names that stay or lead up are made of. -/
def dot : UInt8 := 0x2E

/-- The entry at a location. -/
def entry? (fs : FileSystem) (l : Whereabouts) : Option Entry := fs.entries.lookup l

/-- Follow names from a location on. -/
def follow (fs : FileSystem) (l : Whereabouts) :
    List (List UInt8) → Except FileFault Whereabouts
  | [] => .ok l
  | name :: rest =>
    if fs.entry? l ≠ some .directory then .error .notDirectory
    else if name = [] || name = [dot] then fs.follow l rest
    else if name = [dot, dot] then fs.follow l.dropLast rest
    else if nameLimit < name.length then .error .nameTooLong
    else if (fs.entry? (l ++ [name])).isNone then .error .noEntry
    else fs.follow (l ++ [name]) rest

/-- The location at which a path begins. -/
def start (fs : FileSystem) (path : Path) : Whereabouts :=
  if path.head? = some slash then [] else fs.working

/-- Refuse a path that is empty or too long. -/
def checkLength (path : Path) : Except FileFault Unit :=
  if path.isEmpty then .error .noEntry
  else if pathLimit < path.length then .error .nameTooLong
  else .ok ()

/-- The entry to which a path leads. -/
def find (fs : FileSystem) (path : Path) : Except FileFault Entry := do
  checkLength path
  let l ← fs.follow (fs.start path) (path.splitOn slash)
  match fs.entry? l with
  | some entry => return entry
  | none => .error .noEntry

/-- The location of the file that is written under a path.  All names but the last one must exist;
the last one must not lead to a directory or ask for one. -/
def target (fs : FileSystem) (path : Path) : Except FileFault Whereabouts := do
  checkLength path
  let names := path.splitOn slash
  let named := (names.reverse.dropWhile List.isEmpty).reverse
  match named.getLast? with
  | none => .error .isDirectory
  | some last =>
    let parent ← fs.follow (fs.start path) named.dropLast
    if fs.entry? parent ≠ some .directory then .error .notDirectory
    else if last = [dot] || last = [dot, dot] || named.length < names.length then
      .error .isDirectory
    else if nameLimit < last.length then .error .nameTooLong
    else
      match fs.entry? (parent ++ [last]) with
      | some .directory => .error .isDirectory
      | some (.device .full) => .error .noSpace
      | _ => return parent ++ [last]

/-- What a path leads to. -/
def lookUp (fs : FileSystem) (path : Path) : Place :=
  match fs.find path with
  | .error _ => .nothing
  | .ok .directory => .directory
  | .ok (.file bytes) => .file bytes
  | .ok (.device _) => .file []

/-- The file system as a command sees it. -/
def files (fs : FileSystem) : Files where
  lookUp := fs.lookUp
  writeFault? path := match fs.target path with
    | .error fault => some fault
    | .ok _ => none

/-- Write a file.  What is written to a device is gone. -/
def write (fs : FileSystem) (path : Path) (bytes : List UInt8) : FileSystem :=
  match fs.target path with
  | .error _ => fs
  | .ok l =>
    match fs.entry? l with
    | some (.device _) => fs
    | _ => { fs with entries := (l, .file bytes) :: fs.entries }

/-- The directories below the root. -/
def rootDirectories : List String :=
  ["bin", "boot", "dev", "etc", "home", "lib", "media", "mnt", "opt", "proc", "root", "run", "sbin",
    "srv", "sys", "tmp", "usr", "var"]

/-- The location to which names lead. -/
def location (names : List String) : Whereabouts := names.map Path.ofString

/-- A usual file system whose working directory is a temporary one that holds the given files.  Of
two with the same name the later one is there. -/
def ofFiles (given : List (Path × List UInt8)) : FileSystem :=
  let working := location ["tmp", "work"]
  { working
    entries := given.reverse.map (fun file => (working ++ [file.1], .file file.2)) ++
      [([], .directory), (working, .directory),
        (location ["dev", "null"], .device .null), (location ["dev", "full"], .device .full)] ++
      rootDirectories.map fun name => (location [name], .directory) }

end FileSystem

end CloudTemplate.Command
