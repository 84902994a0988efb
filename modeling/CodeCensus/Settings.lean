import CodeCensus.Record.Lax
import CodeCensus.Text.Class

/-! The settings of a census, and how they are made from options: an option that is missing, null or not
valid for its setting leaves the default, and no option bears on another's setting. -/

namespace CodeCensus

/-- Dependency caches, version control, build output, coverage reports and scratch directories. -/
def defaultExcludedDirs : List String := [
  "node_modules", ".git", "dist", "build", ".next", "coverage", ".nyc_output", "tmp", "temp",
  "__pycache__", "venv", ".venv"]

structure Settings where
  batchSize : Nat := 5
  batchSize_pos : 1 ≤ batchSize := by decide
  batchDelay : Double := .ofInt 1
  maxContentChars : Nat := 5000000
  excludeDirs : List String := defaultExcludedDirs
  extraExcludeDirs : List String := []
  deriving DecidableEq, Repr

namespace Settings

def excludedNames (s : Settings) : List String :=
  (s.excludeDirs ++ s.extraExcludeDirs).map Text.lowercase

def option? {α : Type} (read : Lax.Reader α) (key : String) (options : Data) : Option α :=
  (options.get? key).bind read

def ofOptions (options : Data) : Settings :=
  let standard : Settings := {}
  let batchSize := (option? (Lax.natAtLeast 1) "batch_size" options).getD
    ⟨standard.batchSize, standard.batchSize_pos⟩
  { batchSize := batchSize.1
    batchSize_pos := batchSize.2
    batchDelay := (option? Lax.nonNegativeDouble "batch_delay" options).getD standard.batchDelay
    maxContentChars := (option? (Lax.natFrom 0) "max_content_chars" options).getD standard.maxContentChars
    excludeDirs := (option? (Lax.list Lax.text) "exclude_dirs" options).getD standard.excludeDirs
    extraExcludeDirs :=
      (option? (Lax.list Lax.text) "extra_exclude_dirs" options).getD standard.extraExcludeDirs }

def ofOptions? (options : Data) : Option Settings := do
  let standard : Settings := {}
  let setting {α : Type} (read : Lax.Reader α) (missing : α) (key : String) : Option α :=
    Lax.optional read missing key key options
  let batchSize ← setting (Lax.natAtLeast 1) ⟨standard.batchSize, standard.batchSize_pos⟩ "batch_size"
  let batchDelay ← setting Lax.nonNegativeDouble standard.batchDelay "batch_delay"
  let maxContentChars ← setting (Lax.natFrom 0) standard.maxContentChars "max_content_chars"
  let excludeDirs ← setting (Lax.list Lax.text) standard.excludeDirs "exclude_dirs"
  let extraExcludeDirs ← setting (Lax.list Lax.text) standard.extraExcludeDirs "extra_exclude_dirs"
  return {
    batchSize := batchSize.1, batchSize_pos := batchSize.2, batchDelay, maxContentChars, excludeDirs,
    extraExcludeDirs }

/-! ## Settings in two attempts

Validation takes the options as a whole and says all that is not valid about them. Those found not valid are left out
of a second attempt. -/

/-- A value that is not valid: that of an option, or an item of it where it is a list. -/
structure Flaw where
  option : String
  item : Option Nat
  deriving DecidableEq, Repr

def valueFlaws {α : Type} (read : Lax.Reader α) (value : Data) : List (Option Nat) :=
  if (read value).isSome then [] else [none]

def listFlaws {α : Type} (item : Lax.Reader α) (value : Data) : List (Option Nat) :=
  match value.items? with
  | none => [none]
  | some items => (items.zipIdx.filter fun (d, _) => (item d).isNone).map fun (_, i) => some i

def checks : List (String × (Data → List (Option Nat))) := [
  ("batch_size", valueFlaws (Lax.natAtLeast 1)), ("batch_delay", valueFlaws Lax.nonNegativeDouble),
  ("max_content_chars", valueFlaws (Lax.natFrom 0)), ("exclude_dirs", listFlaws Lax.text),
  ("extra_exclude_dirs", listFlaws Lax.text)]

def flaws (options : Data) : List Flaw :=
  checks.flatMap fun (key, check) =>
    match options.get? key with
    | none => []
    | some value => (check value).map (Flaw.mk key)

def validated (options : Data) : Except (List Flaw) Settings :=
  match ofOptions? options with
  | some s => .ok s
  | none => .error (flaws options)

def keeping (p : String → Bool) (options : Data) : Data :=
  .table ((options.table?.getD []).filter fun (k, _) => k.text?.any p)

def isStated (options : Data) (name : String) : Bool :=
  match options.get? name with
  | none => false
  | some .null => false
  | some _ => true

/-- The options that are named for a setting and not null. -/
def stated (options : Data) : Data :=
  keeping (fun name => (checks.map Prod.fst).contains name && isStated options name) options

def inTwoAttempts (options : Data) : Except (List Flaw) Settings :=
  match validated (stated options) with
  | .ok s => .ok s
  | .error flaws => validated (keeping (fun name => !(flaws.map Flaw.option).contains name) (stated options))

end Settings

/-! ## Options -/

/-- Whether an option given on the command line says anything: null, no and the empty text do not. -/
def Data.isGiven : Data → Bool
  | .null => false
  | .bool b => b
  | .text s => s != ""
  | _ => true

/-- The options for a command: those under its name in a configuration, with those given on the command line
in their place. -/
def mergeOptions (config : Data) (command : String) (given : Data) : Data :=
  let configured := ((config.get? command).bind Data.table?).getD []
  let given := (given.table?.getD []).filter fun (_, v) => v.isGiven
  .table (given.foldl (fun options (k, v) => Data.put k v options) configured)

def setDefault (key : String) (value : Data) (options : Data) : Data :=
  match options.get? key with
  | some _ => options
  | none => .table (Data.put (.text key) value (options.table?.getD []))

end CodeCensus
