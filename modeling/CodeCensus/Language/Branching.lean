import CodeCensus.Pattern.Build
import CodeCensus.Pattern.Search

/-! The constructs that add a decision point to code, as patterns, one set for each family of languages, and
the score they give: one more than the number of their matches. The patterns do not know strings and comments,
so a score compares files of one family and is no exact path count. -/

namespace CodeCensus

open Pattern

/-- The patterns by which a family of languages is scored. -/
structure BranchSet where
  name : String
  patterns : List Pattern

namespace BranchSet

/-- A question mark that opens none of three two-character operators, up to the next colon of its line. -/
def ternaryMark : Pattern :=
  inOrder ["?", .absent (.one (among ['?', '.', ':'])), .lazyRun (beyond ['\n']), ":"]

def keywordCall (keyword : String) : Pattern := inOrder [wordEdge, keyword, blanks, "("]

def keywordTo (keyword mark : String) : Pattern :=
  inOrder [wordEdge, keyword, blanks1, .run (beyond ['\n']), mark]

def bareKeywordTo (keyword mark : String) : Pattern :=
  inOrder [wordEdge, keyword, wordEdge, .run (beyond ['\n']), mark]

def wholeWord (word : String) : Pattern := inOrder [wordEdge, word, wordEdge]

def caseLabel : Pattern := inOrder [wordEdge, "case", blanks1, .run (beyond [':', '\n']), ":"]

def logicalMark : Pattern := .alt "&&" "||"

def logicalWord : Pattern := inOrder [wordEdge, .alt "and" "or", wordEdge]

def ternary : BranchSet := ⟨"ternary", [ternaryMark]⟩

def brace : BranchSet where
  name := "c"
  patterns := [
    ternaryMark,
    keywordCall "if",
    inOrder [wordEdge, "else", blanks1, "if", blanks, "("],
    keywordCall "while",
    keywordCall "for",
    keywordCall "catch",
    caseLabel,
    logicalMark,
    keywordCall "switch"]

def python : BranchSet where
  name := "python"
  patterns := [
    ternaryMark,
    keywordTo "if" ":",
    keywordTo "elif" ":",
    keywordTo "while" ":",
    keywordTo "for" ":",
    inOrder [wordEdge, "except", blanks, ":"],
    inOrder [wordEdge, "except", blanks1, .one Text.isWord, .run (beyond ['\n']), ":"],
    logicalWord]

def go : BranchSet where
  name := "go"
  patterns := [
    ternaryMark,
    keywordTo "if" "\x7b",
    bareKeywordTo "for" "\x7b",
    bareKeywordTo "switch" "\x7b",
    caseLabel,
    logicalMark]

def rust : BranchSet where
  name := "rust"
  patterns := [
    ternaryMark,
    keywordTo "if" "\x7b",
    keywordTo "while" "\x7b",
    keywordTo "for" "\x7b",
    keywordTo "match" "\x7b",
    logicalMark]

def ruby : BranchSet where
  name := "ruby"
  patterns := [
    ternaryMark,
    wholeWord "if",
    wholeWord "elsif",
    wholeWord "unless",
    wholeWord "while",
    wholeWord "until",
    wholeWord "rescue",
    wholeWord "when",
    oneOf ["&&", "||", logicalWord]]

def all : List BranchSet := [ternary, brace, python, go, rust, ruby]

end BranchSet

def branchScore (patterns : List Pattern) (text : List Char) : Nat :=
  patterns.foldl (fun score p => score + p.count text) 1

end CodeCensus
