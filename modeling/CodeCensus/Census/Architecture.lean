import CodeCensus.Path

/-! The architecture of a repository and the patterns it follows, guessed from which words its paths mention
together. -/

namespace CodeCensus

inductive Architecture where
  | unknown
  | componentBased
  | mvc
  | clean
  deriving DecidableEq, Repr

namespace Architecture

def label : Architecture → String
  | .unknown => "Unknown"
  | .componentBased => "Component-Based"
  | .mvc => "MVC"
  | .clean => "Clean Architecture"

def mentioned (paths : List String) (word : String) : Bool := paths.any fun path => Path.mentions path word

inductive Rule where
  | all (words : List String)
  | any (words : List String)
  | moreThan (count : Nat) (word : String)

def Rule.holds (paths : List String) : Rule → Bool
  | .all words => words.all (mentioned paths)
  | .any words => words.any (mentioned paths)
  | .moreThan count word => count < (paths.filter fun path => Path.mentions path word).length

def rules : List (Rule × String × Option Architecture) := [
  (.all ["components", "pages"], "Component Architecture", some .componentBased),
  (.all ["controllers", "models", "views"], "Model-View-Controller", some .mvc),
  (.all ["services", "components"], "Service Layer Pattern", none),
  (.any ["store", "redux", "vuex"], "State Management", none),
  (.any ["middleware"], "Middleware Pattern", none),
  (.any ["api", "routes"], "REST API", none),
  (.any ["graphql"], "GraphQL", none),
  (.moreThan 3 "service", "Microservices", none),
  (.all ["domain", "infrastructure", "application"], "Clean Architecture", some .clean)]

/-- The architecture and the patterns of a list of paths. The last pattern that stands for an architecture
decides. -/
def detect (paths : List String) : Architecture × List String :=
  let lowered := paths.map Text.lowercase
  let met := rules.filter fun (rule, _) => rule.holds lowered
  (((met.filterMap fun (_, _, architecture) => architecture).getLast?).getD .unknown,
    met.map fun (_, tag, _) => tag)

end Architecture

end CodeCensus
