import CodeCensus.Journal.Basic
import CodeCensus.Record.Lax
import CodeCensus.Survey.Run
import CodeCensus.Text.Base64
import CodeCensus.Text.Quoted
import CodeCensus.Text.Trim
import CodeCensus.Text.Utf8

/-! Repositories on GitHub, read through its REST interface: what is asked, and what the replies mean. A listing
comes from one recursive tree; the content of a file comes in base64. A repository has an id: its owner and its name
with a slash between them, or a link to it. -/

namespace CodeCensus

structure RepoId where
  owner : String
  name : String
  deriving DecidableEq, Repr

namespace RepoId

open Text

def isIdChar (c : Char) : Bool := c.isAlphanum || ['_', '.', '-'].contains c

def hosts : List (List Char) := ["http://github.com/".toList, "https://github.com/".toList]

def withoutHost (text : List Char) : List Char :=
  match hosts.find? fun host => host.isPrefixOf text with
  | some host => text.drop host.length
  | none => text

def withoutEnding (ending text : List Char) : List Char :=
  if ending.isSuffixOf text && ending.length < text.length then text.take (text.length - ending.length)
  else text

def isIdWord (text : List Char) : Bool := !text.isEmpty && text.all isIdChar

/-- The repository that an id names. A link's host, a last slash and the ending of a clone's address do not
belong to the name. -/
def parse? (id : String) : Option RepoId := do
  let (owner, rest) ← cutFirst ['/'] (withoutHost (trim id.toList))
  let name := withoutEnding ".git".toList (withoutEnding ['/'] rest)
  if isIdWord owner && isIdWord name then some ⟨String.ofList owner, String.ofList name⟩ else none

def refusalOf (quoted : String) : String := "Expected 'owner/repo', got " ++ quoted

def refusal (id : String) : String := refusalOf (Quoted.ofText id)

end RepoId

end CodeCensus

namespace CodeCensus.Remote

open Text

structure Api where
  base : String := "https://api.github.com"
  ref : String := "HEAD"

structure Request where
  url : String
  params : List (String × String)
  deriving DecidableEq, Repr

inductive Reply where
  | unreachable (reason : String)
  | refused (reason : String)
  | unreadable (reason : String)
  | document (d : Data)

def timeout : Double := .ofInt 30

/-- The headers of every request; the first token that is given and not empty is sent along. -/
def headers (tokens : List (Option String)) : List (String × String) :=
  let given := (tokens.filterMap id).find? fun token => !token.isEmpty
  [("Accept", "application/vnd.github+json"), ("User-Agent", "repolens")] ++
    (given.map fun token => ("Authorization", "Bearer " ++ token)).toList

namespace Api

def repoUrl (api : Api) (repo : RepoId) : String :=
  String.ofList (trimEndBy (· == '/') api.base.toList) ++ "/repos/" ++ repo.owner ++ "/" ++ repo.name

def listRequest (api : Api) (repo : RepoId) : Request :=
  ⟨api.repoUrl repo ++ "/git/trees/" ++ Percent.encode [] api.ref, [("recursive", "1")]⟩

def contentRequest (api : Api) (repo : RepoId) (path : String) : Request :=
  ⟨api.repoUrl repo ++ "/contents/" ++ Percent.encode ['/'] path, [("ref", api.ref)]⟩

end Api

/-! ## Listings -/

inductive ListingFault where
  | unreachable (reason : String)
  | refused (reason : String)
  | unreadable (reason : String)
  | notTable (found : String)
  | notList (found : String)
  | noPath
  | notPath (found : String)
  | invalidFields (count : Nat)
  deriving DecidableEq, Repr

def ListingFault.message : ListingFault → String
  | .unreachable reason => reason
  | .refused reason => reason
  | .unreadable reason => reason
  | .notTable found => Quoted.ofText found ++ " object has no attribute 'get'"
  | .notList found => Quoted.ofText found ++ " object is not iterable"
  | .noPath => Quoted.ofText "path"
  | .notPath found => Quoted.ofText found ++ " object has no attribute 'rsplit'"
  | .invalidFields 1 => "1 validation error for FileEntry"
  | .invalidFields count => toString count ++ " validation errors for FileEntry"

/-- The kinds of items that are listed; others, such as linked repositories, are passed over. -/
def kindNames : List (String × EntryKind) := [("blob", .file), ("tree", .dir)]

def entryWith (kind : EntryKind) (path : Data) (item : Data) : Except ListingFault Entry :=
  let size := (item.get? "size").getD .null
  let size := Lax.int (if size.isTruthy then size else .int 0)
  let sha := Lax.nullable Lax.text ((item.get? "sha").getD .null)
  let faults := size.isNone.toNat + sha.isNone.toNat
  match path, size, sha with
  | .text path, some size, some sha => .ok ⟨path, Entry.nameOf path, kind, size, sha⟩
  | .text _, _, _ => .error (.invalidFields faults)
  | .broken codes, _, _ =>
    let last := codes.reverse.takeWhile fun n => n != '/'.toNat
    let lastIsBroken := last.any fun n => decide ¬ n.isValidChar
    .error (.invalidFields (1 + lastIsBroken.toNat + faults))
  | path, _, _ => .error (.notPath path.typeName)

def entryOf? (item : Data) : Except ListingFault (Option Entry) :=
  match item with
  | .table _ =>
    match ((item.get? "type").bind Data.text?).bind fun word => kindNames.lookup word with
    | none => .ok none
    | some kind =>
      match item.get? "path" with
      | none => .error .noPath
      | some path => (entryWith kind path item).map some
  | other => .error (.notTable other.typeName)

/-- The items of a tree. Those of a text are its characters and those of a table its keys. -/
def itemsOf : Data → Except ListingFault (List Data)
  | .list items => .ok items
  | .text s => .ok (s.toList.map fun c => .text (String.singleton c))
  | .broken codes => .ok (codes.map fun _ => .text "")
  | .table entries => .ok (entries.map Prod.fst)
  | other => .error (.notList other.typeName)

/-- A listing, and whether it is known to be cut short. -/
structure Listing where
  entries : Except ListingFault (List Entry)
  isPartial : Bool

def listingOf : Reply → Listing
  | .unreachable reason => ⟨.error (.unreachable reason), false⟩
  | .refused reason => ⟨.error (.refused reason), false⟩
  | .unreadable reason => ⟨.error (.unreadable reason), false⟩
  | .document (.table fields) =>
    let document := Data.table fields
    { entries := do
        let items ← itemsOf ((document.get? "tree").getD (.list []))
        let entries ← items.mapM entryOf?
        return entries.filterMap id
      isPartial := ((document.get? "truncated").getD .null).isTruthy }
  | .document other => ⟨.error (.notTable other.typeName), false⟩

def partialRecord (id : String) (repo : RepoId) : LogRecord where
  logger := Journal.loggerName (some "sources")
  level := .warning
  event := some "listing_truncated"
  message := "Tree listing of " ++ repo.owner ++ "/" ++ repo.name ++
    " is truncated by the API; analysing a partial file list"
  fields := [("repo_id", .text id)]

/-! ## Contents -/

def bytesOf : Data → Except String (List UInt8)
  | .text s =>
    match Base64.decode s.toList with
    | .ok bytes => .ok bytes
    | .error refusal => .error refusal.message
  | .broken _ => .error Base64.Refusal.notAscii.message
  | other =>
    .error ("argument should be a bytes-like object or ASCII string, not " ++ Quoted.ofText other.typeName)

def contentOfDocument (d : Data) : Except String String :=
  match d, d.get? "content" with
  | .list _, _ => .error "path is a directory, not a file"
  | _, none => .error "unsupported content type"
  | _, some content =>
    match (d.get? "encoding").getD (.text "base64") with
    | .text "base64" =>
      match bytesOf content with
      | .ok bytes => .ok (String.ofList (Utf8.decode bytes))
      | .error reason => .error ("invalid base64 payload: " ++ reason)
    | other => .error ("unsupported encoding " ++ other.shown)

def contentOf (path : String) (reply : Reply) : Except Failure String :=
  let content : Except String String :=
    match reply with
    | .unreachable reason => .error reason
    | .refused reason => .error reason
    | .unreadable reason => .error reason
    | .document d => contentOfDocument d
  content.mapError (.fetch path)

/-! ## Repositories as sources -/

def source (api : Api) (id : String) (ask : Request → Reply) : Source :=
  match RepoId.parse? id with
  | none =>
    { list := .error (.other (RepoId.refusal id))
      fetch := fun _ => .error (.other (RepoId.refusal id)) }
  | some repo =>
    { list := (listingOf (ask (api.listRequest repo))).entries.mapError fun f => .other f.message
      fetch := fun path => contentOf path (ask (api.contentRequest repo path)) }

def listingRecords (api : Api) (id : String) (ask : Request → Reply) : List LogRecord :=
  match RepoId.parse? id with
  | none => []
  | some repo =>
    if (listingOf (ask (api.listRequest repo))).isPartial then [partialRecord id repo] else []

end CodeCensus.Remote
