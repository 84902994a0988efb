import CodeCensus.Path
import CodeCensus.Text.Quoted

/-! Trees of files, directories and symbolic links, and how paths lead through them. A place is the list of the
names that lead to it from the top, none of them a link. -/

namespace CodeCensus.Files

inductive Node where
  | file (content : List UInt8)
  | link (target : String)
  | dir (entries : List (String × Node))

instance : Inhabited Node := ⟨.dir []⟩

abbrev Place := List String

inductive AccessFault where
  | missing
  | notDirectory
  | isDirectory
  | linkCycle
  | nameTooLong
  deriving DecidableEq, Repr

def AccessFault.message (path : String) (f : AccessFault) : String :=
  (match f with
    | .missing => "[Errno 2] No such file or directory: "
    | .notDirectory => "[Errno 20] Not a directory: "
    | .isDirectory => "[Errno 21] Is a directory: "
    | .linkCycle => "[Errno 40] Too many levels of symbolic links: "
    | .nameTooLong => "[Errno 36] File name too long: ") ++ Text.Quoted.ofText path

def Place.text (place : Place) : String := "/" ++ String.intercalate "/" place

def isAbsolute (path : String) : Bool := path.toList.head? == some '/'

def steps (path : String) : List String := (Text.fields '/' path.toList).map String.ofList

def startOf (place : Place) (path : String) : Place := if isAbsolute path then [] else place

/-- The steps of a path that lead anywhere. -/
def parts (path : String) : List String := (Path.components path).map String.ofList

/-- The steps of a path from a place, all the way from the top. -/
def partsFrom (place : Place) (path : String) : List String :=
  if isAbsolute path then parts path else place ++ parts path

def isName (name : String) : Bool := name != "" && name != "." && name != ".."

/-- One step by its name alone, whatever is there. -/
def plainStep (place : Place) (name : String) : Place :=
  if isName name then place ++ [name] else if name == ".." then place.dropLast else place

/-- Where steps lead by their names alone; those that begin with a slash begin at the top. -/
def plainRest (place : Place) : List String → Place
  | "" :: name :: rest => (name :: rest).foldl plainStep []
  | names => names.foldl plainStep place

namespace Node

def isDir : Node → Bool
  | .dir _ => true
  | _ => false

def isLink : Node → Bool
  | .link _ => true
  | _ => false

def child? (name : String) : Node → Option Node
  | .dir entries => entries.lookup name
  | _ => none

def at? (top : Node) (place : Place) : Option Node := place.foldlM (fun node name => node.child? name) top

mutual

/-- The places of the links in a tree. -/
def linkPlaces : Node → List Place
  | .file _ => []
  | .link _ => [[]]
  | .dir entries => linkPlacesAmong entries

def linkPlacesAmong : List (String × Node) → List Place
  | [] => []
  | (name, node) :: rest => node.linkPlaces.map (name :: ·) ++ linkPlacesAmong rest

end

/-! ## Following paths -/

/-- The target of the link that a name stands for in a place, if it stands for one. -/
def linkAt? (top : Node) (place : Place) (name : String) : Option String :=
  if isName name then
    match top.at? (place ++ [name]) with
    | some (.link target) => some target
    | _ => none
  else none

/-- How the steps of a path are followed from a place while some links are being followed. They lead to a place,
or else, if a link leads back to one of those, they end in error where they stand. -/
abbrev Follow := List Place → Place → List String → Except Place Place

/-- Follows steps one by one; `follow` goes along the target of a link. What is not there, or is no directory, is
passed as if it were an empty directory. Behind a link that leads back to itself the rest of the steps goes by
the names alone. -/
def followFrom (top : Node) (follow : Follow) (opened : List Place) : Place → List String → Except Place Place
  | place, [] => .ok place
  | place, name :: rest =>
    match top.linkAt? place name with
    | none => followFrom top follow opened (plainStep place name) rest
    | some target =>
      if opened.contains (place ++ [name]) then .error (plainRest (place ++ [name]) rest)
      else
        match follow ((place ++ [name]) :: opened) (startOf place target) (steps target) with
        | .error stuck => .error (plainRest stuck rest)
        | .ok next => followFrom top follow opened next rest

def followWithin (top : Node) : Nat → Follow
  | 0 => fun _ place names => .error (plainRest place names)
  | depth + 1 => top.followFrom (followWithin top depth)

/-- Where a path from a place leads, whether or not anything is there. Links within links are never more than
there are links. -/
def arrive (top : Node) (place : Place) (path : String) : Except Place Place :=
  top.followWithin (top.linkPlaces.length + 1) [] [] (partsFrom place path)

def realPlace (top : Node) (place : Place) (path : String) : Place :=
  match top.arrive place path with
  | .ok found => found
  | .error stuck => stuck

/-! ## What has to be there -/

def maxNameSize : Nat := 255

/-- How many links are followed on one path. -/
def maxLinks : Nat := 40

/-- Follows the steps of a path on which everything has to be there; `next` goes on behind a link. -/
def strictFrom (top : Node) (next : Place → List String → Except AccessFault Place) :
    Place → List String → Except AccessFault Place
  | place, [] => .ok place
  | place, name :: rest =>
    match top.at? place with
    | none => .error .missing
    | some (.dir _) =>
      if maxNameSize < name.utf8ByteSize then .error .nameTooLong
      else
        match top.linkAt? place name with
        | some target => next (startOf place target) (steps target ++ rest)
        | none =>
          if (top.at? (plainStep place name)).isSome then strictFrom top next (plainStep place name) rest
          else .error .missing
    | some _ => .error .notDirectory

def strictWithin (top : Node) : Nat → Place → List String → Except AccessFault Place
  | 0 => fun _ _ => .error .linkCycle
  | links + 1 => top.strictFrom (strictWithin top links)

def locate (top : Node) (place : Place) (path : String) : Except AccessFault Place :=
  top.strictWithin (maxLinks + 1) (startOf place path) (steps path)

def find (top : Node) (place : Place) (path : String) : Except AccessFault Node := do
  let found ← top.locate place path
  match top.at? found with
  | some node => .ok node
  | none => .error .missing

def content : Node → Except AccessFault (List UInt8)
  | .file content => .ok content
  | .dir _ => .error .isDirectory
  | .link _ => .error .linkCycle

def read (top : Node) (place : Place) (path : String) : Except AccessFault (List UInt8) :=
  (top.find place path).bind content

def file? (top : Node) (place : Place) (path : String) : Option (List UInt8) :=
  (top.read place path).toOption

def fault? (top : Node) (place : Place) (path : String) : Option AccessFault :=
  match top.find place path with
  | .ok _ => none
  | .error fault => some fault

def isDirAt (top : Node) (place : Place) (path : String) : Bool :=
  match top.find place path with
  | .ok node => node.isDir
  | .error _ => false

/-- The place that a path leads to, unless the system finds that the links there have no end. -/
def resolve (top : Node) (place : Place) (path : String) : Option Place :=
  let found := top.realPlace place path
  if top.fault? [] found.text == some .linkCycle then none else some found

/-! ## Building trees -/

def setEntry (name : String) (node : Node) : List (String × Node) → List (String × Node)
  -- in place if it is there, else at the end
  | [] => [(name, node)]
  | (other, old) :: rest =>
    if other == name then (other, node) :: rest else (other, old) :: setEntry name node rest

def insert (node : Node) : Place → Node → Node
  -- directories on the way are made where they are missing
  | [], _ => node
  | name :: rest, .dir entries =>
    .dir (setEntry name (insert node rest ((entries.lookup name).getD (.dir []))) entries)
  | name :: rest, _ => .dir [(name, insert node rest (.dir []))]

end Node

end CodeCensus.Files
