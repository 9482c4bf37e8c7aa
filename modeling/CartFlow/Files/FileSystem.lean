import CartFlow.Failure
import CartFlow.Files.Path

/-!
# Files

A file system is a map from places to contents. A place is the list of names that lead
to it from the working directory, where two dots at its start lead to the directories
above; every list of names in front of it is a directory. Of what stands outside of the
working directory only the directories above it are known, and the root, in which nothing
can be placed. Texts of paths may have detours, so they are followed name by name.
-/
namespace CartFlow

open Files

/-- Files by their places. -/
structure FileSystem where
  files : List (List String × Array UInt8) := []
  deriving DecidableEq, Repr

inductive FileEntry
  | file
  | directory (names : List String)
  deriving DecidableEq, Repr

namespace FileSystem

def contents? (fs : FileSystem) (place : List String) : Option (Array UInt8) :=
  fs.files.lookup place

def put (fs : FileSystem) (place : List String) (bytes : Array UInt8) : FileSystem :=
  ⟨(place, bytes) :: fs.files.filter (·.1 != place)⟩

def ofFiles (files : List (String × Array UInt8)) : FileSystem :=
  files.foldl (fun fs (path, bytes) =>
    fs.put ((components path).foldl step []).reverse bytes) {}

@[simp] theorem contents?_put_self (fs : FileSystem) (place : List String) (bytes : Array UInt8) :
    (fs.put place bytes).contents? place = some bytes := by
  simp [contents?, put]

theorem contents?_put_of_ne (fs : FileSystem) {place other : List String} (bytes : Array UInt8)
    (h : other ≠ place) : (fs.put place bytes).contents? other = fs.contents? other := by
  have hne : (other == place) = false := by simpa using h
  simp only [contents?, put, List.lookup_cons, hne]
  induction fs.files with
  | nil => rfl
  | cons f rest ih =>
    obtain ⟨name, contents⟩ := f
    by_cases hf : name = place
    · subst hf
      simpa [List.lookup_cons, hne] using ih
    · simp [hf, List.lookup_cons, ih]

def isDirectory (fs : FileSystem) (place : List String) : Bool :=
  fs.files.any fun f => place.isPrefixOf f.1 && place.length < f.1.length

def names (fs : FileSystem) (place : List String) : List String :=
  let below := fs.files.filterMap fun f =>
    if place.isPrefixOf f.1 then f.1[place.length]? else none
  (below.filter (· != "..")).eraseDups.mergeSort fun a b => !(b < a)

def above (place : List String) : List String :=
  if place.getLast?.all (· == "..") then place ++ [".."] else place.dropLast

/-- Where a path ends. A path is slashed if slashes follow its last name, like that of a
directory. -/
inductive Place
  | file (place : List String) (contents : Array UInt8) (slashed : Bool)
  /-- A directory; the root has no place. -/
  | directory (place : Option (List String))
  /-- Nothing, in a directory that exists. -/
  | vacant (place : List String) (slashed : Bool)
  /-- A name that is too long, in a directory that exists. -/
  | overlong (slashed : Bool)
  | missing
  /-- A file stands where a directory has to be. -/
  | blocked
  /-- The text is no path. -/
  | invalid

def nameLimit : Nat := 255

def pathLimit : Nat := 4095

/-- Follows names from a directory. -/
def walk (fs : FileSystem) : Option (List String) → List String → Place
  | here, [] => .directory here
  | here, name :: rest =>
    if name == "" || name == "." then walk fs here rest
    else if name == ".." then walk fs (here.map above) rest
    else
      let isLast := rest.all (· == "")
      let slashed := isLast && !rest.isEmpty
      if nameLimit < name.utf8ByteSize then .overlong slashed
      else
        match here with
        | none => .missing
        | some directory =>
          let place := directory ++ [name]
          match fs.contents? place with
          | some bytes => if isLast then .file place bytes slashed else .blocked
          | none =>
            if fs.isDirectory place then walk fs (some place) rest
            else if isLast then .vacant place slashed
            else .missing

def locate (fs : FileSystem) (path : String) : Place :=
  if path.toList.contains '\x00' then .invalid
  else if pathLimit < path.utf8ByteSize then .overlong false
  else if path.isEmpty then .missing
  else fs.walk (if path.startsWith "/" then none else some []) (components path)

def read (fs : FileSystem) (path : String) : Except Failure (Array UInt8) :=
  match fs.locate path with
  | .file _ bytes false => .ok bytes
  | .file _ _ true | .blocked => fail (.unusableFile "open" path "not a directory")
  | .directory _ => fail (.unusableFile "read" path "is a directory")
  | .overlong _ => fail (.unusableFile "open" path "file name too long")
  | .vacant .. | .missing => fail (.missingFile "open" path)
  | .invalid => fail (.unusableFile "open" path "invalid argument")

def write (fs : FileSystem) (path : String) (bytes : Array UInt8) : Except Failure FileSystem :=
  match fs.locate path with
  | .file place _ false | .vacant place false => .ok (fs.put place bytes)
  | .file _ _ true | .vacant _ true | .overlong true | .directory _ =>
    fail (.unusableFile "open" path "is a directory")
  | .overlong false => fail (.unusableFile "open" path "file name too long")
  | .blocked => fail (.unusableFile "open" path "not a directory")
  | .missing => fail (.missingFile "open" path)
  | .invalid => fail (.unusableFile "open" path "invalid argument")

def look (fs : FileSystem) (path : String) : Option FileEntry :=
  match fs.locate path with
  | .file _ _ false => some .file
  | .directory (some place) => some (.directory (fs.names place))
  | .directory none => some (.directory [])
  | _ => none

end FileSystem

end CartFlow
