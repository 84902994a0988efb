import CodeCensus.Text.Lines

/-! Where the body of a function lies. Bodies are found without parsing: by counting braces, by indentation,
or by a closing word. Braces inside strings and comments count like any other. -/

namespace CodeCensus.Body

open Text

/-- The text of a block up to the brace that closes it, or all if none does. `depth` blocks are open, and
`taken` is the text already taken, last character first. -/
def closeFrom (depth : Nat) (taken : List Char) : List Char → List Char
  | [] => taken.reverse
  | c :: rest =>
    if c == '{' then closeFrom (depth + 1) (c :: taken) rest
    else if c == '}' then
      if depth ≤ 1 then (c :: taken).reverse else closeFrom (depth - 1) (c :: taken) rest
    else closeFrom depth (c :: taken) rest

def braced (text : List Char) : List Char := closeFrom 0 [] (text.dropWhile (· != '{'))

def bracedOpen (rest : List Char) : List Char := braced ('{' :: rest)

/-- The body after the first arrow of a text: a block, or else the rest of the line up to a semicolon. -/
def ofArrow (text : List Char) : List Char :=
  match cutFirst ['=', '>'] text with
  | none => []
  | some (_, after) =>
    let body := after.dropWhile isBlank
    if body.head? == some '{' then braced body
    else body.takeWhile fun c => c != '\n' && c != ';'

def isBlankLine (line : List Char) : Bool := line.all isBlank

/-- The lines of the block that follows a header: the first line that is not blank must be indented further
than the header, and the block ends before the next one that is indented less than that. Blank lines are
left out. A header indented below zero bears any block. -/
def indentedLines (header : Int) (after : List (List Char)) : List (List Char) :=
  match after.dropWhile isBlankLine with
  | [] => []
  | first :: rest =>
    let base := indentation first
    if (base : Int) ≤ header then []
    else
      first :: (rest.takeWhile fun line => isBlankLine line || base ≤ indentation line).filter
        fun line => !isBlankLine line

def indented (header : Int) (after : List (List Char)) : List Char :=
  unlines (indentedLines header after)

def untilEnd (after : List (List Char)) : List Char :=
  unlines (after.takeWhile fun line => trim line != ['e', 'n', 'd'])

end CodeCensus.Body
