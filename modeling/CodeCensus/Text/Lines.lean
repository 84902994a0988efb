import CodeCensus.Text.Trim

/-! Lines. A file's lines end at line feeds; a list of requirements ends its lines at every line break. -/

namespace CodeCensus.Text

def lineFeeds (text : List Char) : Nat := text.count '\n'

def lineOf (text : List Char) (index : Nat) : Nat := lineFeeds (text.take index) + 1

def lineCount (text : List Char) : Nat :=
  -- a last line without a line feed counts
  match text.getLast? with
  | none => 0
  | some last => if last == '\n' then lineFeeds text else lineFeeds text + 1

def lines (text : List Char) : List (List Char) := fields '\n' text

def unlines (body : List (List Char)) : List Char := body.flatMap fun line => line ++ ['\n']

/-- The lines of a text that may end at any line break; a carriage return and the line feed after it end
one line. `line` is the line begun, last character first, and `done` the lines ended, last first. -/
def breakLinesFrom (line : List Char) (done : List (List Char)) : List Char → List (List Char)
  | [] => (if line.isEmpty then done else line.reverse :: done).reverse
  | '\r' :: '\n' :: rest => breakLinesFrom [] (line.reverse :: done) rest
  | c :: rest =>
    if isLineBreak c then breakLinesFrom [] (line.reverse :: done) rest
    else breakLinesFrom (c :: line) done rest

def breakLines (text : List Char) : List (List Char) := breakLinesFrom [] [] text

/-- A text with every carriage return, and the line feed after it if there is one, turned into a line feed;
`done` is what precedes, last character first. -/
def unifyLinesFrom (done : List Char) : List Char → List Char
  | [] => done.reverse
  | '\r' :: '\n' :: rest => unifyLinesFrom ('\n' :: done) rest
  | c :: rest => unifyLinesFrom ((if c == '\r' then '\n' else c) :: done) rest

def unifyLines (text : List Char) : List Char := unifyLinesFrom [] text

def tabWidth : Nat := 8

/-- Replaces tabs by spaces up to the next stop, from a column on; a line feed or carriage return sets the
column back to zero. -/
def expandTabsFrom : Nat → List Char → List Char
  | _, [] => []
  | column, c :: rest =>
    if c == '\t' then
      let width := tabWidth - column % tabWidth
      List.replicate width ' ' ++ expandTabsFrom (column + width) rest
    else c :: expandTabsFrom (if c == '\n' || c == '\r' then 0 else column + 1) rest

def expandTabs (line : List Char) : List Char := expandTabsFrom 0 line

/-- How far a line is indented: the width of its leading blanks once tabs are expanded. -/
def indentation (line : List Char) : Nat := (expandTabs (line.takeWhile isBlank)).length

end CodeCensus.Text
