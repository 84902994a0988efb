import CodeCensus.Toml.Scalar

/-! Reading TOML. A document is a table that its statements fill in order. Some tables may not be filled
further: those written inline, and those that another header or dotted key has opened before. -/

namespace CodeCensus.Toml

abbrev KeyPath := List String

def isBare (c : Char) : Bool := c.isAlphanum || c == '-' || c == '_'

def keyPart : List Char → Read String
  | '\'' :: rest => (literal rest).map fun (inner, rest) => (String.ofList inner, rest)
  | '"' :: rest => (basic false rest).map fun (inner, rest) => (String.ofList inner, rest)
  | text =>
    match text.takeWhile isBare with
    | [] => .error .malformed
    | part => .ok (String.ofList part, text.dropWhile isBare)

/-- The further parts of a key, each after a dot, added to those already read, last first. -/
def keyParts : Nat → List String → List Char → Read KeyPath
  | 0, _, _ => .error .malformed
  | fuel + 1, done, text =>
    match skipSpaces text with
    | '.' :: rest =>
      match keyPart (skipSpaces rest) with
      | .error e => .error e
      | .ok (part, rest) => keyParts fuel (part :: done) rest
    | rest => .ok (done.reverse, rest)

def key (text : List Char) : Read KeyPath :=
  -- the blanks after a key are skipped
  match keyPart text with
  | .error e => .error e
  | .ok (part, rest) => keyParts (rest.length + 1) [part] rest

/-! ## Tables being filled -/

abbrev Entries := List (Data × Data)

def addNew (key : String) (value : Data) (entries : Entries) : Option Entries :=
  match Data.find? (.text key) entries with
  | some _ => none
  | none => some (entries ++ [(.text key, value)])

/-- Changes the table under a path, made if it is not there; where `intoLists` is set, a list of tables
stands for its last one. Fails if something else lies on the path. -/
def update (intoLists : Bool) (change : Entries → Option Entries) : KeyPath → Entries → Option Entries
  | [], entries => change entries
  | part :: path, entries =>
    match Data.find? (.text part) entries with
    | none => (update intoLists change path []).map fun inner => entries ++ [(.text part, .table inner)]
    | some (.table inner) =>
      (update intoLists change path inner).map fun inner => Data.put (.text part) (.table inner) entries
    | some (.list items) =>
      match intoLists, items.getLast? with
      | true, some (.table inner) =>
        (update intoLists change path inner).map fun inner =>
          Data.put (.text part) (.list (items.dropLast ++ [.table inner])) entries
      | _, _ => none
    | some _ => none

def appendTable (key : String) (entries : Entries) : Option Entries :=
  match Data.find? (.text key) entries with
  | none => some (entries ++ [(.text key, .list [.table []])])
  | some (.list items) => some (Data.put (.text key) (.list (items ++ [.table []])) entries)
  | some _ => none

/-! ## Values -/

def skipFiller : Nat → List Char → Except Refusal (List Char)
  | 0, text => .ok text
  | fuel + 1, text =>
    match text.dropWhile fun c => isSpace c || c == '\n' with
    | '#' :: rest =>
      match skipComment ('#' :: rest) with
      | .error e => .error e
      | .ok rest => skipFiller fuel rest
    | rest => .ok rest

def isNested : Data → Bool
  | .list _ => true
  | .table _ => true
  | _ => false

def scalar (text : List Char) : Read Data :=
  let asText (found : Read (List Char)) : Read Data :=
    found.map fun (inner, rest) => (.text (String.ofList inner), rest)
  match text with
  | '"' :: '"' :: '"' :: rest => asText (basicLines rest)
  | '"' :: rest => asText (basic false rest)
  | '\'' :: '\'' :: '\'' :: rest => asText (literalLines rest)
  | '\'' :: rest => asText (literal rest)
  | 't' :: 'r' :: 'u' :: 'e' :: rest => .ok (.bool true, rest)
  | 'f' :: 'a' :: 'l' :: 's' :: 'e' :: rest => .ok (.bool false, rest)
  | text =>
    match moment? text with
    | some found => found
    | none => number text

mutual

/-- The value at the start of a text. `depth` is how deep it may nest, and `fuel` more than the length of
the text. -/
def value : Nat → Nat → List Char → Read Data
  | 0, _, _ => .error .malformed
  | fuel + 1, depth, text =>
    match text with
    | '[' :: rest =>
      match depth with
      | 0 => .error (.fault (.deepNesting .other))
      | depth + 1 => items fuel depth [] rest
    | '{' :: rest =>
      match depth with
      | 0 => .error (.fault (.deepNesting .other))
      | depth + 1 =>
        match skipSpaces rest with
        | '}' :: rest => .ok (.table [], rest)
        | rest => members fuel depth [] [] rest
    | text => scalar text

/-- The items of an array after its bracket or a comma, added to those already read, last first. -/
def items : Nat → Nat → List Data → List Char → Read Data
  | 0, _, _, _ => .error .malformed
  | fuel + 1, depth, done, text =>
    match skipFiller (text.length + 1) text with
    | .error e => .error e
    | .ok (']' :: rest) => .ok (.list done.reverse, rest)
    | .ok text =>
      match value fuel depth text with
      | .error e => .error e
      | .ok (item, rest) =>
        match skipFiller (rest.length + 1) rest with
        | .error e => .error e
        | .ok (']' :: rest) => .ok (.list (item :: done).reverse, rest)
        | .ok (',' :: rest) => items fuel depth (item :: done) rest
        | .ok _ => .error .malformed

/-- The members of an inline table from the start of one on, added to those already read; `closed` are the
paths of those that may not be filled further. -/
def members : Nat → Nat → Entries → List KeyPath → List Char → Read Data
  | 0, _, _, _, _ => .error .malformed
  | fuel + 1, depth, done, closed, text =>
    match key text with
    | .error e => .error e
    | .ok (path, '=' :: rest) =>
      match value fuel depth (skipSpaces rest) with
      | .error e => .error e
      | .ok (item, rest) =>
        if closed.any fun shut => shut.isPrefixOf path then .error .malformed
        else
          match update false (addNew (path.getLast?.getD "") item) path.dropLast done with
          | none => .error .malformed
          | some done =>
            match skipSpaces rest with
            | '}' :: rest => .ok (.table done, rest)
            | ',' :: rest =>
              members fuel depth done (if isNested item then path :: closed else closed) (skipSpaces rest)
            | _ => .error .malformed
    | .ok _ => .error .malformed

end

/-! ## Statements -/

structure Document where
  root : Entries
  header : KeyPath
  opened : List KeyPath
  /-- Tables and arrays that may not be filled further, nor anything within them. -/
  closed : List KeyPath
  pending : List KeyPath

namespace Document

def empty : Document := ⟨[], [], [], [], []⟩

def isClosed (d : Document) (path : KeyPath) : Bool :=
  path != [] && d.closed.any fun shut => shut.isPrefixOf path

def isOpened (d : Document) (path : KeyPath) : Bool := d.opened.contains path

def settle (d : Document) : Document := { d with opened := d.pending ++ d.opened, pending := [] }

def openTable (path : KeyPath) (d : Document) : Option Document :=
  if d.isOpened path || d.isClosed path then none
  else
    (update true some path d.root).map fun root =>
      { d with root := root, header := path, opened := path :: d.opened }

/-- Opens a new table at the end of a list of tables; what was known of the table before it is forgotten. -/
def openItem (path : KeyPath) (d : Document) : Option Document :=
  if d.isClosed path then none
  else
    (update true (appendTable (path.getLast?.getD "")) path.dropLast d.root).map fun root =>
      { d with
        root := root
        header := path
        opened := path :: d.opened.filter fun other => !path.isPrefixOf other
        closed := d.closed.filter fun other => !path.isPrefixOf other }

def stepsOf (header path : KeyPath) : List KeyPath :=
  (List.range (path.length - 1)).map fun n => header ++ path.take (n + 1)

def set (path : KeyPath) (item : Data) (d : Document) : Option Document :=
  let steps := stepsOf d.header path
  let parent := d.header ++ path.dropLast
  if steps.any d.isOpened || d.isClosed parent then none
  else
    (update true (addNew (path.getLast?.getD "") item) parent d.root).map fun root =>
      { d with
        root := root
        closed := if isNested item then (d.header ++ path) :: d.closed else d.closed
        pending := steps ++ d.pending }

end Document

def close (brackets : Nat) (text : List Char) : Except Refusal (List Char) :=
  if (List.replicate brackets ']').isPrefixOf text then .ok (text.drop brackets) else .error .malformed

def header (brackets : Nat) (opening : KeyPath → Document → Option Document) (d : Document)
    (text : List Char) : Read Document :=
  match key (skipSpaces text) with
  | .error e => .error e
  | .ok (path, rest) =>
    match opening path d.settle with
    | none => .error .malformed
    | some d => (close brackets rest).map fun rest => (d, rest)

def assignment (d : Document) (text : List Char) : Read Document :=
  match key text with
  | .error e => .error e
  | .ok (path, '=' :: rest) =>
    match value (rest.length + 1) Fault.maxNesting (skipSpaces rest) with
    | .error e => .error e
    | .ok (item, rest) =>
      match d.set path item with
      | none => .error .malformed
      | some d => .ok (d, rest)
  | .ok _ => .error .malformed

def statement (d : Document) (text : List Char) : Read Document :=
  match text with
  | '[' :: '[' :: rest => header 2 Document.openItem d rest
  | '[' :: rest => header 1 Document.openTable d rest
  | '#' :: rest => .ok (d, '#' :: rest)
  | c :: rest =>
    if isBare c || c == '"' || c == '\'' then assignment d (c :: rest) else .error .malformed
  | [] => .ok (d, [])

def statements : Nat → Document → List Char → Except Refusal Document
  | 0, _, _ => .error .malformed
  | fuel + 1, d, text =>
    match skipSpaces text with
    | [] => .ok d
    | '\n' :: rest => statements fuel d rest
    | text =>
      match statement d text with
      | .error e => .error e
      | .ok (d, rest) =>
        match skipComment (skipSpaces rest) with
        | .error e => .error e
        | .ok [] => .ok d
        | .ok ('\n' :: rest) => statements fuel d rest
        | .ok _ => .error .malformed

def unifyLineEnds (text : List Char) : List Char :=
  (text.foldl
    (fun done c =>
      match c, done with
      | '\n', '\r' :: before => '\n' :: before
      | c, done => c :: done)
    []).reverse

def read (text : List Char) : Except Refusal Data :=
  let text := unifyLineEnds text
  (statements (text.length + 1) Document.empty text).map fun d => .table d.root

end CodeCensus.Toml
