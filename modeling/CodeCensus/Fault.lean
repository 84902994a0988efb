/-! Why the analysis of a file fails. A file whose analysis fails keeps only its line count. -/

namespace CodeCensus

inductive Nesting where
  | jsonArray
  | jsonObject
  | other
  deriving DecidableEq, Repr

inductive Fault where
  | extractor (reason : String)
  | invalidRecord (record field : String)
  | longNumber (digits : Nat)
  | deepNesting (what : Nesting)
  deriving DecidableEq, Repr

namespace Fault

def maxDigits : Nat := 4300

def maxNesting : Nat := 450

def message : Fault → String
  | .extractor reason => reason
  | .invalidRecord record field =>
    "1 validation error for " ++ record ++ "\n" ++ field ++
      "\n  Input should be a valid string, unable to parse raw data as a unicode string"
  | .longNumber digits =>
    "Exceeds the limit (" ++ toString maxDigits ++ " digits) for integer string conversion: value has " ++
      toString digits ++ " digits; use sys.set_int_max_str_digits() to increase the limit"
  | .deepNesting .jsonArray =>
    "maximum recursion depth exceeded while decoding a JSON array from a unicode string"
  | .deepNesting .jsonObject =>
    "maximum recursion depth exceeded while decoding a JSON object from a unicode string"
  | .deepNesting .other => "maximum recursion depth exceeded"

end Fault

/-! ## What the readers of documents answer -/

inductive Refusal where
  | malformed
  | fault (f : Fault)
  deriving DecidableEq, Repr

abbrev Read (α : Type) := Except Refusal (α × List Char)

end CodeCensus
