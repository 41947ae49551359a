/-! Files under one directory. A directory exists as long as it has a file somewhere below it; the
top directory always exists, and nothing outside it can be reached. -/
namespace TreeAsm

structure Workspace where
  /-- The bytes of each file, by the names on the way to it, the last one its own. -/
  files : List (List String × ByteArray)

namespace Workspace

/-- What stands between the slashes of a path. -/
def parts (path : String) : List String := (path.toList.splitOn '/').map String.ofList

/-- Files of text given by paths that begin at the top directory. -/
def ofFiles (files : List (String × String)) : Workspace :=
  ⟨files.map fun (path, content) =>
    ((parts path).filter fun p => p != "" && p != ".", content.toUTF8)⟩

/-- What a path leads to. -/
inductive Place where
  | directory (path : List String)
  /-- A name in an existing directory, taken or not. -/
  | entry (directory : List String) (name : String)
deriving DecidableEq

def isDirectory (w : Workspace) (path : List String) : Bool :=
  path = [] || w.files.any fun f => path.isPrefixOf f.1 && f.1 != path

def parent? : List String → Option (List String)
  | [] => none
  | path => some path.dropLast

/-- Follows the parts of a path from a directory. All but the last have to be directories. -/
def walk (w : Workspace) : List String → List String → Option Place
  | dir, [] => some (.directory dir)
  | dir, part :: rest =>
    if part = "" ∨ part = "." then walk w dir rest
    else if part = ".." then (parent? dir).bind fun dir => walk w dir rest
    else if rest = [] then some (.entry dir part)
    else if w.isDirectory (dir ++ [part]) then walk w (dir ++ [part]) rest
    else none

def locate (w : Workspace) (path : String) : Option Place :=
  if path = "" ∨ path.toList.head? = some '/' then none else w.walk [] (parts path)

/-- The bytes of a file. -/
def content? (w : Workspace) (path : String) : Option ByteArray :=
  match w.locate path with
  | some (.entry dir name) => w.files.lookup (dir ++ [name])
  | _ => none

/-- The text of a file, if its bytes are UTF-8. -/
def read? (w : Workspace) (path : String) : Option String :=
  (w.content? path).bind String.fromUTF8?

def put (w : Workspace) (path : List String) (content : ByteArray) : Workspace :=
  ⟨(path, content) :: w.files.filter (·.1 != path)⟩

/-- An empty file where the path leads to, in place of a file that is there, and where that is. -/
def create? (w : Workspace) (path : String) : Option (List String × Workspace) :=
  match w.locate path with
  | some (.entry dir name) =>
    if w.isDirectory (dir ++ [name]) then none
    else some (dir ++ [name], w.put (dir ++ [name]) .empty)
  | _ => none

/-- More text at the end of a file. -/
def append (w : Workspace) (place : List String) (text : String) : Workspace :=
  w.put place ((w.files.lookup place).getD .empty ++ text.toUTF8)

end Workspace
end TreeAsm
