import AsmIndex.Files
import AsmIndex.OrderedMap
import AsmIndex.Text

/-!
A tree of directories and files as a value. Paths are looked up name by name, as an operating system
does it: `..` leads to the directory above wherever it stands, and only a directory can be passed
through.
-/

namespace AsmIndex

/-- What a name stands for. -/
inductive DiskNode
  | directory
  | file (bytes : List UInt8)

/-- A tree, as a map from the names on the way down from its root, and the directory in which
relative paths start. -/
structure Disk where
  nodes : OrderedMap (List String) DiskNode := OrderedMap.empty
  start : List String := []

namespace Disk

instance : Inhabited Disk := ⟨{}⟩

/-- The longest name, in bytes. -/
def nameLimit : Nat := 255

/-- The bytes that a path must not reach. -/
def pathLimit : Nat := 4096

/-- What is at the end of names; the root is a directory. -/
def node? (d : Disk) (names : List String) : Option DiskNode :=
  if names.isEmpty then some .directory else d.nodes.get? names

/-- The beginnings of a list, from the shortest; the whole is the last one. -/
def beginnings (names : List String) : List (List String) :=
  (List.range names.length).map fun n => names.take (n + 1)

/-- Make a directory and those above it. -/
def addDirectory (d : Disk) (names : List String) : Disk :=
  { d with
    nodes := (beginnings names).foldl
      (fun m n => if m.contains n then m else m.insert n .directory) d.nodes }

/-- Make a file and the directories above it. -/
def addFile (d : Disk) (names : List String) (bytes : List UInt8) : Disk :=
  let d := d.addDirectory names.dropLast
  { d with nodes := d.nodes.insert names (.file bytes) }

/-- Go from a place along the pieces of a path. -/
def go (d : Disk) (place : List String) : List (List Char) → Except FileError (List String)
  | [] => .ok place
  | s :: rest =>
    match d.node? place with
    | none => .error .notFound
    | some (.file _) => .error .notDirectory
    | some .directory =>
      match Path.component? s with
      | none => d.go place rest
      | some .parent => d.go place.dropLast rest
      | some _ =>
        let next := place ++ [String.ofList s]
        if nameLimit < Text.width s then .error .nameTooLong
        else if (d.node? next).isSome then d.go next rest
        else .error .notFound

/-- The place that a path leads to. -/
def locate (d : Disk) (p : Path) : Except FileError (List String) :=
  let cs := p.text.toList
  if cs.isEmpty then .error .notFound
  else if cs.contains '\x00' then .error .invalidName
  else if pathLimit ≤ Text.width cs then .error .nameTooLong
  else d.go (if p.isAbsolute then [] else d.start) (Path.segments cs)

/-- What a path leads to. -/
def find (d : Disk) (p : Path) : Except FileError DiskNode :=
  match d.locate p with
  | .error e => .error e
  | .ok names =>
    match d.node? names with
    | some node => .ok node
    | none => .error .notFound

/-- Whether a path leads to a directory. -/
def isDirectory (d : Disk) (p : Path) : Bool :=
  match d.find p with
  | .ok .directory => true
  | _ => false

/-- The absolute path of a place. -/
def pathOf (names : List String) : Path := Path.ofComponents (.root :: names.map .name)

/-- The text of a file. -/
def read (d : Disk) (p : Path) : Except FileError String :=
  match d.find p with
  | .error e => .error e
  | .ok .directory => .error .isDirectory
  | .ok (.file bytes) =>
    match String.fromUTF8? ⟨bytes.toArray⟩ with
    | some text => .ok text
    | none => .error .invalidText

/-- The texts of all files. -/
def texts (d : Disk) : List String :=
  d.nodes.values.filterMap fun
    | .directory => none
    | .file bytes => String.fromUTF8? ⟨bytes.toArray⟩

/-- The files as a pass sees them. Nothing ever changes here, so there is one time for all. -/
def view (d : Disk) : FileView where
  isFile p :=
    match d.find p with
    | .ok (.file _) => true
    | _ => false
  modified p := (d.find p).map fun _ => 0
  read := d.read

/-- The names of the files below a directory, from there. -/
def filesBelow (d : Disk) (directory : List String) : List (List String) :=
  d.nodes.entries.filterMap fun (names, node) =>
    match node with
    | .file _ => if directory.isPrefixOf names then some (names.drop directory.length) else none
    | .directory => none

end Disk

end AsmIndex
