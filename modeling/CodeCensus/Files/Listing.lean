import CodeCensus.Data
import CodeCensus.Entry
import CodeCensus.Files.Ignore
import CodeCensus.Files.Tree
import CodeCensus.Text.Lines
import CodeCensus.Text.Utf8

/-! The listing of a directory and all below it: in each directory the directories come before the files, both
in the order of their names, and below them in turn what the directories hold. Links are never listed, and
what is left out is not entered. -/

namespace CodeCensus.Files

open Text

structure ListingOptions where
  includeHidden : Bool := false
  excludedDirs : Data := .null
  excludedNames : Data := .null

inductive ListingFault where
  | root (path : String) (fault : AccessFault)
  /-- The path of that place holds a character that no name has. -/
  | invalidPath
  | ignoreBytes (fault : Utf8.Fault)
  | ignoreRule (fault : IgnoreFault)
  /-- A value stands where names or globs should that is not made of parts. -/
  | notParts (found : String)
  /-- A value of a type that no key has stands where a name should. -/
  | notKey (found : String)
  | notGlob (found : String)
  | bytesGlob
  deriving DecidableEq, Repr

def ListingFault.message : ListingFault → String
  | .root path .nameTooLong => AccessFault.message path .nameTooLong
  | .root path .linkCycle => "Symlink loop from " ++ Quoted.ofText path
  | .root path _ => path
  | .invalidPath => "embedded null byte"
  | .ignoreBytes fault => fault.message
  | .ignoreRule fault => fault.message
  | .notParts found => Quoted.ofText found ++ " object is not iterable"
  | .notKey found => "unhashable type: " ++ Quoted.ofText found
  | .notGlob found => "expected str, bytes or os.PathLike object, not " ++ found
  | .bytesGlob => "cannot use a bytes pattern on a string-like object"

/-! ## Names that are left out -/

def neverListed : List String := ["node_modules", ".git", "__pycache__"]

def ignoreFileName : String := ".gitignore"

def isHidden (name : String) : Bool := name.toList.head? == some '.'

/-- The parts of a value: the items of a list, a pair or a set, the characters of a text, the numbers of bytes,
the keys of a table. -/
def partsOf : Data → Except ListingFault (List Data)
  | .list items => .ok items
  | .pair k v => .ok [k, v]
  | .set items => .ok items
  | .text s => .ok (s.toList.map fun c => .text (String.singleton c))
  | .broken codes => .ok (codes.map fun n => .ofCodes [n])
  | .bytes content => .ok (content.map fun byte => .int byte.toNat)
  | .table entries => .ok (entries.map Prod.fst)
  | other => .error (.notParts other.typeName)

def isKey : Data → Bool
  | .list _ => false
  | .set _ => false
  | .table _ => false
  | .pair k v => isKey k && isKey v
  | _ => true

def nameOf? (value : Data) : Except ListingFault (Option String) :=
  -- a value that is no text is the name of nothing
  if isKey value then .ok value.text? else .error (.notKey value.typeName)

def ListingOptions.dirNames (o : ListingOptions) : Except ListingFault (List String) :=
  if o.excludedDirs.isTruthy then do (← partsOf o.excludedDirs).filterMapM nameOf? else .ok []

/-- Whether a name fits the glob that a value is. A code point that no character has is in no name. -/
def fitsValue (name : String) : Data → Except ListingFault Bool
  | .text glob => .ok (Glob.fits glob.toList name.toList)
  | .broken codes => .ok (Glob.fits (codes.map Char.ofNat) name.toList)
  | .bytes _ => .error .bytesGlob
  | .moment m => .error (.notGlob m.typeName)
  | other => .error (.notGlob other.typeName)

def fitsSome (name : String) : List Data → Except ListingFault Bool
  | [] => .ok false
  | glob :: rest => do
    if ← fitsValue name glob then return true
    fitsSome name rest

def ListingOptions.excludesFile (o : ListingOptions) (name : String) : Except ListingFault Bool :=
  if o.excludedNames.isTruthy then (partsOf o.excludedNames).bind (fitsSome name) else .ok false

/-! ## The listing -/

/-- What a listing is made with: the place where it starts, the options, the names of directories that are left
out, what is ignored, and which places lead to directories. -/
structure Lister where
  root : Place
  options : ListingOptions
  excludedDirs : List String
  ignores : Place → Except ListingFault Bool
  leadsToDir : Place → Bool

/-- The path of what the names lead to from the directory where a listing starts. -/
def pathOf (names : List String) : String := String.intercalate "/" names

namespace Lister

def hides (l : Lister) (name : String) : Bool := !l.options.includeHidden && isHidden name

def keepsDir (l : Lister) (dir : List String) (name : String) : Except ListingFault Bool :=
  if neverListed.contains name || l.excludedDirs.contains name || l.hides name then .ok false
  else (l.ignores (l.root ++ dir ++ [name])).map not

def keepsFile (l : Lister) (dir : List String) (name : String) : Except ListingFault Bool :=
  if l.hides name then .ok false
  else do
    if ← l.ignores (l.root ++ dir ++ [name]) then return false
    return !(← l.options.excludesFile name)

def byName {α : Type} (l : List (String × α)) : List (String × α) :=
  l.mergeSort fun (a, _) (b, _) => !decide (b < a)

/-- What is to be listed of one entry of a directory. -/
inductive Item where
  | dir (below : Unit → Except ListingFault (List Entry))
  /-- A file or something that looks like one; only files have a size. -/
  | file (size? : Option Nat)
  | skipped

def Item.below? : Item → Option (Unit → Except ListingFault (List Entry))
  | .dir below => some below
  | _ => none

def Item.size? : Item → Option (Option Nat)
  | .file size? => some size?
  | _ => none

/-- What is picked from an item of one kind, if its name is kept. -/
def keepItem {α : Type} (pick : Item → Option α) (keeps : String → Except ListingFault Bool) :
    String × Item → Except ListingFault (Option (String × α))
  | (name, item) =>
    match pick item with
    | some picked => (keeps name).map fun isKept => if isKept then some (name, picked) else none
    | none => .ok none

def keptOf {α : Type} (pick : Item → Option α) (keeps : String → Except ListingFault Bool)
    (items : List (String × Item)) : Except ListingFault (List (String × α)) :=
  (items.filterMapM (keepItem pick keeps)).map byName

def dirsOf (l : Lister) (dir : List String) :
    List (String × Item) → Except ListingFault (List (String × (Unit → Except ListingFault (List Entry)))) :=
  keptOf Item.below? (l.keepsDir dir)

def filesOf (l : Lister) (dir : List String) (items : List (String × Item)) :
    Except ListingFault (List (String × Nat)) :=
  (keptOf Item.size? (l.keepsFile dir) items).map fun kept =>
    kept.filterMap fun (name, size?) => size?.map fun size => (name, size)

def dirEntry (dir : List String) (name : String) : Entry := ⟨pathOf (dir ++ [name]), name, .dir, 0, none⟩

def fileEntry (dir : List String) (name : String) (size : Nat) : Entry :=
  ⟨pathOf (dir ++ [name]), name, .file, size, none⟩

/-- The listing of a directory's entries: directories, files, and what the directories hold. -/
def listItems (l : Lister) (dir : List String) (items : List (String × Item)) :
    Except ListingFault (List Entry) := do
  let dirs ← l.dirsOf dir items
  let files ← l.filesOf dir items
  let below ← dirs.mapM fun (_, below) => below ()
  return dirs.map (fun (name, _) => dirEntry dir name) ++
    files.map (fun (name, size) => fileEntry dir name size) ++ below.flatten

mutual

def itemOf (l : Lister) (names : List String) : Node → Item
  | .file content => .file (some content.length)
  | .link _ => if l.leadsToDir (l.root ++ names) then .skipped else .file none
  | .dir entries => .dir fun _ => l.listItems names (l.itemsOf names entries)

def itemsOf (l : Lister) (dir : List String) : List (String × Node) → List (String × Item)
  | [] => []
  | (name, node) :: rest => (name, l.itemOf (dir ++ [name]) node) :: l.itemsOf dir rest

end

end Lister

def ignoreFileAt (top : Node) (place : Place) : Except ListingFault IgnoreFile :=
  match top.file? [] (Place.text (place ++ [ignoreFileName])) with
  | none => .ok .empty
  | some bytes =>
    match Utf8.decode? bytes with
    | none => .error (.ignoreBytes ((Utf8.fault? bytes).getD (.unfinished 0 0)))
    | some text => (IgnoreFile.ofText (unifyLines text)).mapError .ignoreRule

/-- What the ignore file of a directory says about the places below it. -/
def ignoreRules (top : Node) (root : Place) : Except ListingFault (Place → Except ListingFault Bool) :=
  (ignoreFileAt top root).map fun file place =>
    (file.ignores (pathOf (place.drop root.length))).mapError .ignoreRule

/-- The listing of the directory that a path leads to; `rulesOf` gives for that directory what is ignored. -/
def listingBy (rulesOf : Place → Except ListingFault (Place → Except ListingFault Bool)) (top : Node)
    (place : Place) (path : String) (o : ListingOptions) : Except ListingFault (List Entry) :=
  if path.toList.contains '\x00' then .error .invalidPath
  else
    match top.resolve place path with
    | none => .error (.root (top.realPlace place path).text .linkCycle)
    | some root =>
      match top.find [] root.text with
      | .error .nameTooLong => .error (.root root.text .nameTooLong)
      | .error _ => .error (.root root.text .missing)
      | .ok (.dir entries) => do
        let ignores ← rulesOf root
        let lister : Lister := ⟨root, o, ← o.dirNames, ignores, fun found => top.isDirAt [] found.text⟩
        lister.listItems [] (lister.itemsOf [] entries)
      | .ok _ => .error (.root root.text .notDirectory)

def listing (top : Node) : Place → String → ListingOptions → Except ListingFault (List Entry) :=
  listingBy (ignoreRules top) top

end CodeCensus.Files
