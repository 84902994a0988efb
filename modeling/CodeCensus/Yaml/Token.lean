import CodeCensus.Fault
import CodeCensus.Text.Utf8
import CodeCensus.Yaml.Spot

/-! The tokens of YAML. What nests by indentation is set off by tokens of its own, as is what nests in
brackets. Anchors, tags and directives say something about nodes and documents. -/

namespace CodeCensus.Yaml

inductive Directive where
  | version (major : Nat)
  | tag (handle start : String)
  | other
  deriving DecidableEq, Repr

inductive Token where
  | directive (d : Directive)
  | documentStart
  | documentEnd
  | streamEnd
  | sequenceStart
  | mappingStart
  | blockEnd
  | flowSequenceStart
  | flowSequenceEnd
  | flowMappingStart
  | flowMappingEnd
  | entry
  | flowEntry
  | key
  | value
  | alias (name : String)
  | anchor (name : String)
  | tag (handle? : Option String) (suffix : String)
  /-- The code points of a scalar, and whether it stands without quotes. -/
  | scalar (plain : Bool) (codes : List Nat)
  | refused (r : Refusal)
  deriving DecidableEq, Repr

/-! ## Anchors -/

def isNameChar (c : Char) : Bool := c.isAlphanum || c == '-' || c == '_'

def isUriChar (c : Char) : Bool :=
  c.isAlphanum || "-;/?:@&=+$,_.!~*'()[]%".toList.contains c

def endsAnchor (c : Char) : Bool := isGap c || ['?', ':', ',', ']', '}', '%', '@', '`'].contains c

def anchorName (s : Spot) : Except Refusal (String × Spot) :=
  let (name, s) := s.take isNameChar
  if name.isEmpty || !s.seesAhead endsAnchor 0 then .error s.fault
  else .ok (String.ofList name, s)

/-! ## Tags -/

/-- The characters that percent escapes at a spot stand for, given as bytes, last first. -/
def uriBytes (done : List UInt8) : Nat → Spot → Except Refusal (List Char × Spot)
  | 0, _ => .error .malformed
  | steps + 1, s =>
    if s.sees (· == '%') then do
      let (code, s) ← s.next.hexCode 2
      uriBytes (UInt8.ofNat code :: done) steps s
    else
      match Text.Utf8.decode? done.reverse with
      | some text => .ok (text, s)
      | none => .error .malformed

def uriFrom (done : List Char) : Nat → Spot → Except Refusal (List Char × Spot)
  -- `done` are the characters so far, last first
  | 0, s => .ok (done.reverse, s)
  | steps + 1, s =>
    match s.char? with
    | none => .ok (done.reverse, s)
    | some c =>
      if c == '%' then do
        let (text, s) ← uriBytes [] (s.ahead + 1) s
        uriFrom (text.reverse ++ done) steps s
      else if isUriChar c then uriFrom (c :: done) steps s.next
      else .ok (done.reverse, s)

def uri (s : Spot) : Except Refusal (String × Spot) := do
  let (text, s') ← uriFrom [] (s.ahead + 1) s
  if s.index == s'.index then throw s.fault
  return (String.ofList text, s')

def handle (s : Spot) : Except Refusal (String × Spot) :=
  if !s.sees (· == '!') then .error s.fault
  else if s.next.sees (· == ' ') then .ok ("!", s.next)
  else
    let (name, after) := s.next.take isNameChar
    if after.sees (· == '!') then .ok ("!" ++ String.ofList name ++ "!", after.next)
    else .error after.fault

/-- Whether a tag starts with a handle of its own: another exclamation mark follows before the next space. -/
def hasHandle (s : Spot) : Bool :=
  (s.next.rest.takeWhile fun c => !isSpaceOrBreak c).contains '!'

def tagToken (s : Spot) : Except Refusal (Token × Spot) := do
  let (token, s) ←
    if s.next.sees (· == '<') then do
      let (suffix, s) ← uri (s.skip 2)
      if !s.sees (· == '>') then throw s.fault
      pure (Token.tag none suffix, s.next)
    else if s.seesAhead isGap 1 then pure (Token.tag none "!", s.next)
    else do
      let (start, s) ← if hasHandle s then handle s else pure ("!", s.next)
      let (suffix, s) ← uri s
      pure (Token.tag (some start) suffix, s)
  if !s.seesAhead isSpaceOrBreak 0 then throw .malformed
  return (token, s)

/-! ## Directives -/

def versionNumber (s : Spot) : Except Refusal (Nat × Spot) := do
  let (digits, s) := s.take Char.isDigit
  if digits.isEmpty then throw s.fault
  s.check
  if Fault.maxDigits < digits.length then throw .badValue
  return (ofDigits 10 digits, s)

def versionDirective (s : Spot) : Except Refusal (Directive × Spot) := do
  let (major, s) ← versionNumber (s.drop (· == ' '))
  if !s.sees (· == '.') then throw s.fault
  let (_, s) ← versionNumber s.next
  if !s.seesAhead isSpaceOrBreak 0 then throw .malformed
  return (.version major, s)

def tagDirective (s : Spot) : Except Refusal (Directive × Spot) := do
  let (start, s) ← handle (s.drop (· == ' '))
  if !s.sees (· == ' ') then throw s.fault
  let (meaning, s) ← uri (s.drop (· == ' '))
  if !s.seesAhead isSpaceOrBreak 0 then throw .malformed
  return (.tag start meaning, s)

def directiveToken (s : Spot) : Except Refusal (Token × Spot) := do
  let (name, s) := s.take isNameChar
  if name.isEmpty || !s.seesAhead isSpaceOrBreak 0 then throw s.fault
  let (d, s) ←
    if name == "YAML".toList then versionDirective s
    else if name == "TAG".toList then tagDirective s
    else pure (Directive.other, s.drop fun c => !isBreak c)
  let s ← s.finishLine
  return (.directive d, s)

end CodeCensus.Yaml
