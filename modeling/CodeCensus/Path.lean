import CodeCensus.Text.Class
import CodeCensus.Text.Trim

/-! Slash-separated paths as texts: their components, the name at the end, and its extension. -/

namespace CodeCensus.Path

open Text

def unify (path : String) : String := path.map fun c => if c == '\\' then '/' else c

def components (path : String) : List (List Char) :=
  -- empty components and single dots do not count
  (fields '/' path.toList).filter fun part => part != [] && part != ['.']

def name (path : String) : String := String.ofList ((components path).getLast?.getD [])

/-- The extension of a name: what its last dot begins, unless that dot stands first or last. -/
def extensionOfName (name : List Char) : List Char :=
  match cutLast ['.'] name with
  | none => []
  | some (stem, ext) => if stem.isEmpty || ext.isEmpty then [] else '.' :: ext

def extension (path : String) : String :=
  String.ofList (lower (extensionOfName (name (unify path)).toList))

def lowerName (path : String) : String := lowercase (name (unify path))

/-- The slashes with which a normal path begins that begins as this one: two are kept, but not more. -/
def rootOf (path : String) : List Char :=
  match path.toList.takeWhile fun c => c == '/' with
  | [] => []
  | ['/', '/'] => ['/', '/']
  | _ => ['/']

def join (root : List Char) (parts : List (List Char)) : String :=
  match root ++ List.intercalate ['/'] parts with
  | [] => "."
  | path => String.ofList path

def normal (path : String) : String := join (rootOf path) (components path)

def parent (path : String) : String := join (rootOf path) (components path).dropLast

def mentions (path needle : String) : Bool := occurs needle.toList path.toList

end CodeCensus.Path
