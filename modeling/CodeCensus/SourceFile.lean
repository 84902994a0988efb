import CodeCensus.Language.Registry
import CodeCensus.Manifest

/-! The analysis of one file. Binary and oversized files are not analysed; a file whose analysis fails keeps
its line count. -/

namespace CodeCensus

/-- What is known of one file. A complexity of zero marks a file that was not analysed. -/
structure SourceFile where
  path : String
  language : String
  content : String
  lines : Nat
  size : Nat
  complexity : Nat
  functions : List Function
  imports : List Import
  exports : List Export
  manifest : Option Manifest

namespace SourceFile

/-- Files with more characters than this are not analysed unless other settings are given. -/
def maxContentChars : Nat := 5000000

def unread (path language : String) (size : Nat) : SourceFile where
  path := path
  language := language
  content := ""
  lines := 0
  size := size
  complexity := 0
  functions := []
  imports := []
  exports := []
  manifest := none

/-- The score of a text: by its language's own branches, or else by those of the language that its shape
suggests. -/
def fileComplexity (r : Registry) (language : String) (text : List Char) : Nat :=
  let support := r.supportFor language
  if support.branches.isSome then support.score text
  else (r.supportFor (Language.ofContent text)).score text

def extracted {α : Type} (found : Option (Except Fault (List (Found α)))) : Except Fault (List (Found α)) :=
  found.getD (.ok [])

/-- The full analysis of a file, or the first failure within it. What the extractors hand over is looked at
once all of them are done. -/
def analyse (r : Registry) (path content : String) : Except Fault SourceFile := do
  let language := Language.ofPath path
  let support := r.supportFor language
  let text := content.toList
  let functions ← extracted (support.functions.map fun f => f support.score text)
  let imports ← extracted (support.imports.map fun f => f text)
  let exports ← extracted (support.exports.map fun f => f text)
  let manifest ← Manifest.read path text
  let functions ← Found.records Function.ofData? "functions" functions
  let imports ← Found.records Import.ofData? "imports" imports
  let exports ← Found.records Export.ofData? "exports" exports
  return {
    path := path
    language := language
    content := content
    lines := Text.lineCount text
    size := text.length
    complexity := fileComplexity r language text
    functions := functions
    imports := imports
    exports := exports
    manifest := manifest }

def parse (r : Registry) (maxChars : Int) (path content : String) : SourceFile × Option Fault :=
  let language := Language.ofPath path
  let size := content.length
  if Language.isBinary path || maxChars < size then (unread path language size, none)
  else
    match analyse r path content with
    | .ok file => (file, none)
    | .error fault =>
      ({ unread path language size with lines := Text.lineCount content.toList }, some fault)

end SourceFile

end CodeCensus
