import CodeCensus.Record.Codec
import CodeCensus.Text.Class
import CodeCensus.Text.Trim

/-! The summary of a census on the console: a table of its languages, one of its issues, and a line of totals.
Tags in square brackets style the text of a table and are not shown. A tag begins with a small letter, a number
sign, a slash or an at sign; after a slash it closes the last open tag or the one with its name. A backslash before
it makes a tag part of the text. -/

namespace CodeCensus.CommandLine.Markup

open Text

def beginsTag (c : Char) : Bool := c.isLower || ['#', '/', '@'].contains c

def tagOf? : List Char → Option (List Char × List Char)
  | [] => none
  | c :: rest =>
    if !beginsTag c then none
    else
      let inside (d : Char) : Bool := d != '[' && d != ']'
      match rest.dropWhile inside with
      | ']' :: after => some (c :: rest.takeWhile inside, after)
      | _ => none

def close? (name : List Char) (opened : List (List Char)) : Option (List (List Char)) :=
  if name.isEmpty then
    match opened with
    | [] => none
    | _ :: others => some others
  else if opened.contains name then some (opened.erase name)
  else none

def step? (tag : List Char) (opened : List (List Char)) : Option (List (List Char)) :=
  match upTo '=' tag with
  | '/' :: name => close? (lower (trim name)) opened
  | name => some (lower (trim name) :: opened)

def shownWithin : Nat → List (List Char) → List Char → Option (List Char)
  -- every step takes at least one character of the text
  | 0, _, _ => some []
  | _ + 1, _, [] => some []
  | steps + 1, opened, c :: rest =>
    let escapes := ((c :: rest).takeWhile (· == '\\')).length
    match (c :: rest).drop escapes with
    | '[' :: after =>
      match tagOf? after with
      | some (tag, later) =>
        let slashes := List.replicate (escapes / 2) '\\'
        if escapes % 2 == 1 then
          (shownWithin steps opened later).map fun shown => slashes ++ '[' :: tag ++ ']' :: shown
        else do
          let opened ← step? tag opened
          let shown ← shownWithin steps opened later
          return slashes ++ shown
      | none =>
        (shownWithin steps opened after).map fun shown => List.replicate (escapes - 1) '\\' ++ '[' :: shown
    | _ => (shownWithin steps opened rest).map fun shown => c :: shown

def shown? (text : String) : Option String :=
  (shownWithin text.length [] text.toList).map String.ofList

end CodeCensus.CommandLine.Markup

namespace CodeCensus.CommandLine

abbrev Rows := List (List String)

def languageRows (c : Census) : Rows :=
  ["Language", "Lines"] ::
    (c.languages.mergeSort fun a b => b.2 ≤ a.2).map fun (name, lines) => [name, toString lines]

def issueRows (c : Census) : Rows :=
  ["Severity", "Type", "Message"] ::
    c.issues.map fun i =>
      [Lax.wordFor Issue.severityWords i.severity, Lax.wordFor Issue.kindWords i.kind, i.message]

def shownRows? (rows : Rows) : Option Rows := rows.mapM fun row => row.mapM Markup.shown?

def totals (c : Census) : String :=
  "Files: " ++ toString c.totalFiles ++ "  Lines: " ++ toString c.totalLines ++
    "  Avg complexity: " ++ c.complexity.average.fixed 2 ++
    "  Test coverage: " ++ toString c.testCoverage ++ "%  Architecture: " ++ c.patterns.architecture

end CodeCensus.CommandLine
