import Verilog.Text.Path

/-!
# Files

The files a run can see, as a value: directories, regular files with their bytes, and one device
that takes no writes. A path is followed component by component from the working directory or from
the root; every component but the last must be a directory.
-/

namespace Verilog

/-- What stands under a path. -/
inductive FileEntry where
  | directory
  | file (content : ByteArray)
  /-- A device that can be opened but is always full. -/
  | full

/-- The components of a path from the working directory, or from the root if a slash comes first.
Two dots stand only at the beginning, for the directories above the working directory. -/
abbrev FileLocation := List String

namespace FileLocation

/-- The location one directory up. -/
def up (loc : FileLocation) : FileLocation :=
  match loc.getLast? with
  | none | some ".." => loc ++ [".."]
  | some "/" => loc
  | some _ => loc.dropLast

/-- The location one component further on. -/
def next (loc : FileLocation) (piece : List Char) : FileLocation :=
  if Path.isVoid piece then loc
  else if piece == ['.', '.'] then up loc
  else loc ++ [String.ofList piece]

/-- The location where a path begins. -/
def start (path : List Char) : FileLocation := if Path.isAbsolute path then ["/"] else []

/-- Is the location in the working directory or in a directory there? -/
def isBelow (loc : FileLocation) : Bool := loc.head?.all fun first => first != "/" && first != ".."

/-- The path to a location. -/
def path (loc : FileLocation) : String :=
  match loc with
  | "/" :: rest => "/" ++ "/".intercalate rest
  | _ => "/".intercalate loc

end FileLocation

/-- The files and directories there are. -/
structure FileStore where
  entries : List (FileLocation × FileEntry)

namespace FileStore

/-- The store with an empty working directory. -/
def empty : FileStore :=
  ⟨[(["/"], .directory), (["/", "dev"], .directory), (["/", "dev", "full"], .full)]⟩

/-- What stands at a location. -/
def find? (s : FileStore) (loc : FileLocation) : Option FileEntry :=
  if loc.all (· == "..") then some .directory else (s.entries.find? (·.1 == loc)).map (·.2)

/-- Is there a directory at a location? -/
def isDirectory (s : FileStore) (loc : FileLocation) : Bool :=
  match s.find? loc with
  | some .directory => true
  | _ => false

/-- The location one component further on, if it goes on from a directory. -/
def step (s : FileStore) (loc : FileLocation) (piece : List Char) : Option FileLocation :=
  if s.isDirectory loc then some (loc.next piece) else none

/-- The location a path leads to, whether there is something or not. -/
def locate (s : FileStore) (path : String) : Option FileLocation :=
  let path := path.toList
  if path.isEmpty then none
  else (Path.pieces path).foldl (fun loc piece => loc.bind (s.step · piece))
    (some (FileLocation.start path))

/-- The location of what a path leads to. -/
def canonical? (s : FileStore) (path : String) : Option FileLocation :=
  (s.locate path).filter fun loc => (s.find? loc).isSome

/-- The bytes of the file a path leads to. -/
def bytes? (s : FileStore) (path : String) : Option ByteArray :=
  match (s.locate path).bind s.find? with
  | some (.file content) => some content
  | _ => none

/-- Does the path lead to a regular file? -/
def isFile (s : FileStore) (path : String) : Bool := (s.bytes? path).isSome

/-- The text of the file a path leads to, if it is a text. -/
def text? (s : FileStore) (path : String) : Option String :=
  (s.bytes? path).bind String.fromUTF8?

/-- Puts something at a location. -/
def put (s : FileStore) (loc : FileLocation) (e : FileEntry) : FileStore :=
  if s.entries.any (·.1 == loc) then
    ⟨s.entries.map fun x => if x.1 == loc then (loc, e) else x⟩
  else ⟨s.entries ++ [(loc, e)]⟩

/-- Opens a file to add to its end; a file that is not there is made. -/
def openAppend (s : FileStore) (path : String) : Option (FileLocation × FileStore) :=
  match s.locate path with
  | none => none
  | some loc =>
    match s.find? loc with
    | none => some (loc, s.put loc (.file .empty))
    | some .directory => none
    | some _ => some (loc, s)

/-- Adds a text to the end of a file. -/
def append (s : FileStore) (loc : FileLocation) (text : String) : Option FileStore :=
  match s.find? loc with
  | some (.file content) => some (s.put loc (.file (content ++ text.toUTF8)))
  | _ => none

/-- Writes a file anew. -/
def write (s : FileStore) (path text : String) : Option FileStore :=
  match s.locate path with
  | none => none
  | some loc =>
    match s.find? loc with
    | none | some (.file _) => some (s.put loc (.file text.toUTF8))
    | some .directory => none
    | some .full => if text.isEmpty then some s else none

/-- Makes a directory, unless there is something. -/
def makeDirectory (s : FileStore) (loc : FileLocation) : FileStore :=
  if (s.find? loc).isSome then s else s.put loc .directory

/-- Goes along the pieces of a path and makes the directories that are missing on the way. -/
def makeWay (s : FileStore) (loc : FileLocation) :
    List (List Char) → FileStore × FileLocation
  | [] => (s, loc)
  | piece :: more =>
    let loc := loc.next piece
    (s.makeDirectory loc).makeWay loc more

/-- Makes a directory and all those above it, where they are missing. -/
def makeDirectories (s : FileStore) (path : String) : FileStore :=
  (s.makeWay (FileLocation.start path.toList) (Path.pieces path.toList)).1

/-- Puts a file under a path, with the directories on the way. -/
def insert (s : FileStore) (path : String) (content : ByteArray) : FileStore :=
  let pieces := Path.pieces path.toList
  let (s, loc) := s.makeWay (FileLocation.start path.toList) pieces.dropLast
  s.put (loc.next (pieces.getLast?.getD [])) (.file content)

/-- The files that are new or changed since an earlier state, with their bytes. -/
def changedSince (s before : FileStore) : List (FileLocation × ByteArray) :=
  s.entries.filterMap fun
    | (loc, .file content) =>
      match before.find? loc with
      | some (.file old) => if old == content then none else some (loc, content)
      | _ => some (loc, content)
    | _ => none

end FileStore

end Verilog
