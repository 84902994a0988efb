import CodeCensus.Files.Listing
import CodeCensus.Survey.Run

/-! A directory on disk as a repository. Nothing outside it is read, whatever the paths and links in it say. -/

namespace CodeCensus.Files

open Text

/-- A directory that is read as a repository: the tree it stands in, and a path that leads to it. -/
structure Checkout where
  top : Node
  place : Place
  path : String
  options : ListingOptions := {}

inductive ReadFault where
  | escapes
  | access (place : Place) (fault : AccessFault)
  | linkCycle (path : String)
  | invalidPath
  deriving DecidableEq, Repr

def ReadFault.failure (path : String) : ReadFault → Failure
  | .escapes => .fetch path "path escapes the repository root"
  | .access place fault => .fetch path (fault.message place.text)
  | .linkCycle link => .other ("Symlink loop from " ++ Quoted.ofText link)
  | .invalidPath => .other "embedded null byte"

namespace Checkout

/-- The text of bytes: ill-formed ones replaced, and every line ended by a line feed. -/
def textOf (bytes : List UInt8) : String := String.ofList (unifyLines (Utf8.decode bytes))

def read (c : Checkout) (path : String) : Except ReadFault String :=
  if path.toList.contains '\x00' then .error .invalidPath
  else
    match c.top.resolve c.place c.path with
    | none => .error (.linkCycle (c.top.realPlace c.place c.path).text)
    | some root =>
      match c.top.resolve root path with
      | none => .error (.linkCycle (c.top.realPlace root path).text)
      | some target =>
        if !root.isPrefixOf target then .error .escapes
        else
          match c.top.read [] target.text with
          | .ok bytes => .ok (textOf bytes)
          | .error fault => .error (.access target fault)

def list (c : Checkout) : Except ListingFault (List Entry) := listing c.top c.place c.path c.options

def source (c : Checkout) : Source where
  list := c.list.mapError fun f => .other f.message
  fetch := fun path => (c.read path).mapError (ReadFault.failure path)

end Checkout

end CodeCensus.Files
