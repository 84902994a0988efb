import CodeCensus.Files.Tree

/-! Writing files into a tree: where a written file comes to stand, and the directories made for it. -/

namespace CodeCensus.Files

inductive WriteFault where
  | access (fault : AccessFault)
  | occupied
  deriving DecidableEq, Repr

namespace Node

/-- The place at which a file is written that a path leads to: that of the file if it is there, else one in a
directory that is there. -/
def writingPlace (top : Node) (place : Place) (path : String) : Except AccessFault Place :=
  match top.locate place path with
  | .ok found =>
    match top.at? found with
    | some (.dir _) => .error .isDirectory
    | _ => .ok found
  | .error .missing =>
    match top.resolve place path with
    | none => .error .linkCycle
    | some found =>
      match top.at? found.dropLast with
      | some (.dir _) => .ok found
      | some _ => .error .notDirectory
      | none => .error .missing
  | .error fault => .error fault

def bytesAt (top : Node) (place : Place) : List UInt8 :=
  match top.at? place with
  | some (.file bytes) => bytes
  | _ => []

def write (top : Node) (place : Place) (path : String) (bytes : List UInt8) : Except AccessFault Node :=
  (top.writingPlace place path).map fun found => insert (.file bytes) found top

def append (top : Node) (place : Place) (path : String) (bytes : List UInt8) : Except AccessFault Node :=
  (top.writingPlace place path).map fun found => insert (.file (top.bytesAt found ++ bytes)) found top

/-- One step on the way to a directory that is to be there: the step is made if nothing is there yet. -/
def makeStep (way : Node × Place) (name : String) : Except WriteFault (Node × Place) :=
  let (top, place) := way
  match top.locate place name with
  | .ok found => .ok (top, found)
  | .error .missing =>
    match top.at? (place ++ [name]) with
    | some _ => .error .occupied
    | none => .ok (insert (.dir []) (place ++ [name]) top, place ++ [name])
  | .error fault => .error (.access fault)

def makeDir (top : Node) (place : Place) (path : String) : Except WriteFault Node := do
  let (top, found) ← (steps path).foldlM makeStep (top, startOf place path)
  match top.at? found with
  | some (.dir _) => .ok top
  | _ => .error .occupied

end Node

end CodeCensus.Files
