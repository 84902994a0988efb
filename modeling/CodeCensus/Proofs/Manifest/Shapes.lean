import CodeCensus.Manifest
import CodeCensus.Proofs.Document.JsonReading
import CodeCensus.Proofs.Except
import CodeCensus.Proofs.Lookup

/-! What the readers of manifests look for in a document. A shape says of what type a value has to be, and of what
type those within it, where they are looked at. To prune a document to a shape is to delete whatever is of another type
at these places, and no reader tells the difference. -/

namespace CodeCensus

/-! ## Entries amended -/

namespace Data

def erase {α : Type} (key : Data) (entries : List (Data × α)) : List (Data × α) :=
  entries.filter fun entry => !sameKey entry.1 key

/-- Puts something else in the place of the value under a key, or deletes the key if nothing is to stand there. -/
def amend {α : Type} (key : String) (change : α → Option α) (entries : List (Data × α)) : List (Data × α) :=
  match find? (.text key) entries with
  | none => entries
  | some value =>
    match change value with
    | none => erase (.text key) entries
    | some value => put (.text key) value entries

section

variable {α : Type} {key other : String} {value : α} {change : α → Option α} {entries : List (Data × α)}

theorem find?_erase_self (key : String) (entries : List (Data × α)) :
    find? (.text key) (erase (.text key) entries) = none := by
  induction entries with
  | nil => rfl
  | cons entry entries ih =>
    rw [erase] at ih
    by_cases hkey : sameKey entry.1 (.text key) = true
    · rw [erase, List.filter_cons_of_neg (by simp [hkey]), ih]
    · rw [erase, List.filter_cons_of_pos (by simp [hkey]), find?, if_neg hkey, ih]

theorem find?_erase_of_ne (h : other ≠ key) (entries : List (Data × α)) :
    find? (.text other) (erase (.text key) entries) = find? (.text other) entries := by
  induction entries with
  | nil => rfl
  | cons entry entries ih =>
    obtain ⟨k, old⟩ := entry
    rw [erase] at ih
    by_cases hkey : sameKey k (.text key) = true
    · have hother : ¬ sameKey k (.text other) = true := by
        rw [sameKey_text_iff.mp hkey, sameKey_text_iff]
        exact fun heq => h (text.inj heq).symm
      rw [erase, List.filter_cons_of_neg (by simp [hkey]), find?, if_neg hother, ih]
    · rw [erase, List.filter_cons_of_pos (by simp [hkey]), find?, find?, ih]

/-- To put a value where it stands already changes nothing. -/
theorem put_of_find? (h : find? (.text key) entries = some value) : put (.text key) value entries = entries := by
  induction entries with
  | nil => cases h
  | cons entry entries ih =>
    obtain ⟨k, old⟩ := entry
    rw [find?] at h
    rw [put]
    split at h
    · rw [Option.some.inj h, if_pos ‹_›]
    · rw [if_neg ‹_›, ih h]

theorem find?_amend_self (key : String) (change : α → Option α) (entries : List (Data × α)) :
    find? (.text key) (amend key change entries) = (find? (.text key) entries).bind change := by
  unfold amend
  split
  · rename_i hnone
    rw [hnone]
    rfl
  · rename_i value hvalue
    rw [hvalue, Option.bind_some]
    split
    · rename_i hchange
      rw [find?_erase_self, hchange]
    · rename_i value' hchange
      rw [find?_put_self, hchange]

theorem find?_amend_of_ne (h : other ≠ key) (change : α → Option α) (entries : List (Data × α)) :
    find? (.text other) (amend key change entries) = find? (.text other) entries := by
  unfold amend
  split
  · rfl
  · split
    · exact find?_erase_of_ne h entries
    · exact find?_put_of_ne h _ entries

theorem amend_eq_self (h : ∀ value, find? (.text key) entries = some value → change value = some value) :
    amend key change entries = entries := by
  unfold amend
  split
  · rfl
  · rename_i value hvalue
    rw [h value hvalue]
    exact put_of_find? hvalue

end

end Data

/-! ## Shapes -/

/-- What a value has to be, and those within it. A value is pruned by deleting what is of another type within it, and
deleted if it is itself. -/
structure Shape where
  Holds : Data → Prop
  prune : Data → Option Data
  holds_of_prune : ∀ {d pruned : Data}, prune d = some pruned → Holds pruned
  prune_of_holds : ∀ {d : Data}, Holds d → prune d = some d

namespace Shape

/-- Whether a value is a text, all of whose characters may exist or not. -/
def isText : Data → Bool
  | .text _ => true
  | .broken _ => true
  | _ => false

def any : Shape where
  Holds _ := True
  prune := some
  holds_of_prune _ := trivial
  prune_of_holds _ := rfl

def text : Shape where
  Holds d := isText d = true
  prune d := if isText d then some d else none
  holds_of_prune h := by
    obtain ⟨htext, hsame⟩ := Option.ite_none_right_eq_some.mp h
    rwa [← Option.some.inj hsame]
  prune_of_holds h := if_pos h

/-- A list of values of a shape. -/
def listOf (item : Shape) : Shape where
  Holds d := ∃ items, d = .list items ∧ ∀ i ∈ items, item.Holds i
  prune
    | .list items => some (.list (items.filterMap item.prune))
    | _ => none
  holds_of_prune {d pruned} h := by
    cases d with
    | list items =>
      obtain rfl := Option.some.inj h
      refine ⟨_, rfl, fun i hi => ?_⟩
      obtain ⟨d, -, hprune⟩ := List.mem_filterMap.mp hi
      exact item.holds_of_prune hprune
    | _ => cases h
  prune_of_holds := by
    rintro _ ⟨items, rfl, hitems⟩
    refine congrArg (fun kept => some (Data.list kept)) ?_
    rw [List.filterMap_congr fun i hi => item.prune_of_holds (hitems i hi), List.filterMap_some]

/-- A table with values of a shape under any keys. -/
def tableOf (value : Shape) : Shape where
  Holds d := ∃ entries, d = .table entries ∧ ∀ entry ∈ entries, value.Holds entry.2
  prune
    | .table entries => some (.table (entries.filterMap fun entry => (value.prune entry.2).map (Prod.mk entry.1)))
    | _ => none
  holds_of_prune {d pruned} h := by
    cases d with
    | table entries =>
      obtain rfl := Option.some.inj h
      refine ⟨_, rfl, fun entry hentry => ?_⟩
      obtain ⟨old, -, hold⟩ := List.mem_filterMap.mp hentry
      obtain ⟨kept, hprune, rfl⟩ := Option.map_eq_some_iff.mp hold
      exact value.holds_of_prune hprune
    | _ => cases h
  prune_of_holds := by
    rintro _ ⟨entries, rfl, hentries⟩
    have hkept : ∀ entry ∈ entries, (value.prune entry.2).map (Prod.mk entry.1) = some entry := by
      intro entry hentry
      rw [value.prune_of_holds (hentries entry hentry)]
      rfl
    refine congrArg (fun kept => some (Data.table kept)) ?_
    rw [List.filterMap_congr hkept, List.filterMap_some]

theorem prune_tableOf_any (entries : List (Data × Data)) : (tableOf any).prune (.table entries) = some (.table entries) :=
  (tableOf any).prune_of_holds ⟨entries, rfl, fun _ _ => trivial⟩

def pruneFields (fields : List (String × Shape)) (entries : List (Data × Data)) : List (Data × Data) :=
  fields.foldl (fun kept field => Data.amend field.1 field.2.prune kept) entries

theorem find?_pruneFields {fields : List (String × Shape)} (hdistinct : (fields.map Prod.fst).Nodup) (key : String)
    (entries : List (Data × Data)) :
    Data.find? (.text key) (pruneFields fields entries) =
      (Data.find? (.text key) entries).bind ((fields.lookup key).getD any).prune := by
  induction fields generalizing entries with
  | nil => exact (Option.bind_fun_some _).symm
  | cons field fields ih =>
    obtain ⟨hfirst, hrest⟩ := List.nodup_cons.mp hdistinct
    rw [pruneFields, List.foldl_cons, ← pruneFields, ih hrest]
    by_cases hkey : key = field.1
    · rw [hkey, lookup_eq_none_of_not_mem hfirst, Data.find?_amend_self, List.lookup_cons_self]
      exact Option.bind_fun_some _
    · rw [Data.find?_amend_of_ne hkey, List.lookup_cons, beq_false_of_ne hkey]

/-- A table with values of given shapes under given keys, and of any shape under others. -/
def record (fields : List (String × Shape)) (distinct : (fields.map Prod.fst).Nodup) : Shape where
  Holds d := ∃ entries, d = .table entries ∧
    ∀ field ∈ fields, ∀ value, Data.find? (.text field.1) entries = some value → field.2.Holds value
  prune
    | .table entries => some (.table (pruneFields fields entries))
    | _ => none
  holds_of_prune {d pruned} h := by
    cases d with
    | table entries =>
      obtain rfl := Option.some.inj h
      refine ⟨_, rfl, fun field hfield value hvalue => ?_⟩
      rw [find?_pruneFields distinct, lookup_eq_some_of_mem distinct hfield] at hvalue
      obtain ⟨old, -, hprune⟩ := Option.bind_eq_some_iff.mp hvalue
      exact field.2.holds_of_prune hprune
    | _ => cases h
  prune_of_holds := by
    rintro _ ⟨entries, rfl, hentries⟩
    refine congrArg (fun kept => some (Data.table kept)) ?_
    clear distinct
    induction fields with
    | nil => rfl
    | cons field fields ih =>
      obtain ⟨hfirst, hrest⟩ := List.forall_mem_cons.mp hentries
      rw [pruneFields, List.foldl_cons, Data.amend_eq_self fun value hvalue => field.2.prune_of_holds (hfirst value hvalue)]
      exact ih hrest

variable {fields : List (String × Shape)} {distinct : (fields.map Prod.fst).Nodup} {key : String} {shape : Shape}

/-- What a pruned table holds under a key is what it held there, pruned. -/
theorem child_bind_prune (h : fields.lookup key = some shape) (value : Option Data) :
    Manifest.child key (value.bind (record fields distinct).prune) =
      (Manifest.child key value).bind shape.prune := by
  cases value with
  | none => rfl
  | some d =>
    cases d with
    | table entries =>
      have hfind := find?_pruneFields distinct key entries
      rw [h] at hfind
      exact hfind
    | _ => rfl

theorem get?_of_prune {d pruned : Data} (hprune : (record fields distinct).prune d = some pruned)
    (h : fields.lookup key = some shape) : pruned.get? key = (d.get? key).bind shape.prune := by
  have hchild : Manifest.child key ((some d).bind (record fields distinct).prune) =
      (Manifest.child key (some d)).bind shape.prune := child_bind_prune h (some d)
  rwa [Option.bind_some, hprune] at hchild

end Shape

namespace Manifest

/-! ## What is looked for -/

def nameFields : List (String × Shape) := [("name", .text), ("version", .text)]

def dependencyFields (key devKey : String) : List (String × Shape) := [(key, .tableOf .any), (devKey, .tableOf .any)]

def packageShape : Shape :=
  .record (nameFields ++ dependencyFields "dependencies" "devDependencies") (by decide)

/-- The package itself within a lockfile. -/
def rootShape : Shape := .record (dependencyFields "dependencies" "devDependencies") (by decide)

def packagesShape : Shape := .record [("", rootShape)] (List.nodup_singleton "")

def lockShape : Shape :=
  .record (nameFields ++ [("packages", packagesShape), ("dependencies", .tableOf .any)]) (by decide)

def projectFields : List (String × Shape) :=
  nameFields ++ [("dependencies", .listOf .text), ("optional-dependencies", .tableOf (.listOf .text))]

def projectShape : Shape := .record projectFields (by decide)

def poetryFields : List (String × Shape) := nameFields ++ dependencyFields "dependencies" "dev-dependencies"

def poetryShape : Shape := .record poetryFields (by decide)

def toolShape : Shape := .record [("poetry", poetryShape)] (List.nodup_singleton "poetry")

def pyprojectShape : Shape := .record [("project", projectShape), ("tool", toolShape)] (by decide)

/-! ## What is read of it -/

section

variable (field : String) (value : Option Data)

theorem textOf_prune : textOf field (value.bind Shape.text.prune) = textOf field value := by
  cases value with
  | none => rfl
  | some d => cases d <;> rfl

theorem text?_prune : (value.bind Shape.text.prune).bind Data.text? = value.bind Data.text? := by
  cases value with
  | none => rfl
  | some d => cases d <;> rfl

theorem keysOf_prune : keysOf (value.bind (Shape.tableOf .any).prune) = keysOf value := by
  cases value with
  | none => rfl
  | some d =>
    cases d with
    | table entries => rw [Option.bind_some, Shape.prune_tableOf_any]
    | _ => rfl

theorem requirementNames_prune :
    requirementNames (value.bind (Shape.listOf .text).prune) = requirementNames value := by
  cases value with
  | none => rfl
  | some d =>
    cases d with
    | list items =>
      refine (List.filterMap_filterMap).trans (List.filterMap_congr fun item _ => ?_)
      cases item <;> rfl
    | _ => rfl

theorem preferred_prune (other : Option Data) :
    preferred (value.bind Shape.text.prune) (other.bind Shape.text.prune) = preferred value other := by
  rw [preferred, preferred, text?_prune, text?_prune]

end

section

variable {document pruned : Data}

theorem ofPackageJson_prune (h : packageShape.prune document = some pruned) :
    ofPackageJson pruned = ofPackageJson document := by
  have hname : pruned.get? "name" = (document.get? "name").bind Shape.text.prune := Shape.get?_of_prune h rfl
  have hversion : pruned.get? "version" = (document.get? "version").bind Shape.text.prune := Shape.get?_of_prune h rfl
  have hdependencies : pruned.get? "dependencies" =
      (document.get? "dependencies").bind (Shape.tableOf .any).prune := Shape.get?_of_prune h rfl
  have hdevDependencies : pruned.get? "devDependencies" =
      (document.get? "devDependencies").bind (Shape.tableOf .any).prune := Shape.get?_of_prune h rfl
  unfold ofPackageJson
  dsimp only
  rw [hname, hversion, hdependencies, hdevDependencies, textOf_prune, textOf_prune, keysOf_prune, keysOf_prune]

/-- The keys of a lockfile that does not record the package itself. -/
def flatKeys : Option Data → List Data × List Data
  | some (.table entries) =>
    ((entries.filter fun entry => !isDev entry.2).map Prod.fst, (entries.filter fun entry => isDev entry.2).map Prod.fst)
  | _ => ([], [])

theorem lockedKeys_of_table {root : List (Data × Data)} (h : child "" (document.get? "packages") = some (.table root)) :
    lockedKeys document =
      (keysOf (Data.get? "dependencies" (.table root)), keysOf (Data.get? "devDependencies" (.table root))) := by
  rw [lockedKeys, h]

theorem lockedKeys_of_not_table (h : ∀ root, child "" (document.get? "packages") ≠ some (.table root)) :
    lockedKeys document = flatKeys (document.get? "dependencies") := by
  unfold lockedKeys
  split
  · rename_i root hroot
    exact absurd hroot (h root)
  · rfl

theorem flatKeys_prune (value : Option Data) : flatKeys (value.bind (Shape.tableOf .any).prune) = flatKeys value := by
  cases value with
  | none => rfl
  | some d =>
    cases d with
    | table entries => rw [Option.bind_some, Shape.prune_tableOf_any]
    | _ => rfl

theorem lockedKeys_prune (h : lockShape.prune document = some pruned) : lockedKeys pruned = lockedKeys document := by
  have hpackages : pruned.get? "packages" = (document.get? "packages").bind packagesShape.prune :=
    Shape.get?_of_prune h rfl
  have hdependencies : pruned.get? "dependencies" =
      (document.get? "dependencies").bind (Shape.tableOf .any).prune := Shape.get?_of_prune h rfl
  have hroot : child "" (pruned.get? "packages") = (child "" (document.get? "packages")).bind rootShape.prune := by
    rw [hpackages]
    exact Shape.child_bind_prune rfl _
  -- a root that is no table is as good as none, so both documents fall back to the flat table
  by_cases htable : ∃ root, child "" (document.get? "packages") = some (.table root)
  · obtain ⟨root, hdocument⟩ := htable
    have hprune : rootShape.prune (.table root) = some (.table (Shape.pruneFields
        (dependencyFields "dependencies" "devDependencies") root)) := rfl
    rw [hdocument, Option.bind_some, hprune] at hroot
    rw [lockedKeys_of_table hroot, lockedKeys_of_table hdocument, Shape.get?_of_prune hprune rfl,
      Shape.get?_of_prune hprune rfl, keysOf_prune, keysOf_prune]
  · rw [not_exists] at htable
    have hno : ∀ root, child "" (pruned.get? "packages") ≠ some (.table root) := by
      intro root heq
      rw [hroot] at heq
      obtain ⟨d, hd, hprune⟩ := Option.bind_eq_some_iff.mp heq
      cases d with
      | table entries => exact htable entries hd
      | _ => cases hprune
    rw [lockedKeys_of_not_table hno, lockedKeys_of_not_table htable, hdependencies, flatKeys_prune]

theorem ofPackageLock_prune (h : lockShape.prune document = some pruned) :
    ofPackageLock pruned = ofPackageLock document := by
  have hname : pruned.get? "name" = (document.get? "name").bind Shape.text.prune := Shape.get?_of_prune h rfl
  have hversion : pruned.get? "version" = (document.get? "version").bind Shape.text.prune := Shape.get?_of_prune h rfl
  rw [ofPackageLock, ofPackageLock, lockedKeys_prune h, hname, hversion, textOf_prune, textOf_prune]

/-- The names that the groups of optional dependencies hold. -/
def groupNames (value : Option Data) : List String :=
  (match value with
    | some (.table entries) => entries.map Prod.snd
    | _ => []).flatMap fun group => requirementNames (some group)

theorem groupNames_prune (value : Option Data) :
    groupNames (value.bind (Shape.tableOf (.listOf .text)).prune) = groupNames value := by
  cases value with
  | none => rfl
  | some d =>
    cases d with
    | table entries =>
      induction entries with
      | nil => rfl
      | cons entry entries ih =>
        have hentry := requirementNames_prune (some entry.2)
        have hcons : groupNames (some (.table (entry :: entries))) =
            requirementNames (some entry.2) ++ groupNames (some (.table entries)) := List.flatMap_cons
        rw [hcons, ← ih, ← hentry, Option.bind_some, Option.bind_some, Option.bind_some]
        simp only [Shape.tableOf, List.filterMap_cons]
        cases (Shape.listOf .text).prune entry.2 <;> rfl
    | _ => rfl

/-- What the older place declares under a key. -/
def poetryNames (key : String) (document : Data) : List String :=
  (keysOf (child key (child "poetry" (document.get? "tool")))).filterMap Data.text?

theorem ofPyproject_eq (document : Data) : ofPyproject document =
    { kind := "pyproject"
      name := preferred (child "name" (document.get? "project")) (child "name" (child "poetry" (document.get? "tool")))
      version :=
        preferred (child "version" (document.get? "project")) (child "version" (child "poetry" (document.get? "tool")))
      dependencies := requirementNames (child "dependencies" (document.get? "project")) ++
        (poetryNames "dependencies" document).filter fun key => Text.lowercase key != "python"
      devDependencies := groupNames (child "optional-dependencies" (document.get? "project")) ++
        poetryNames "dev-dependencies" document } := rfl

theorem ofPyproject_prune (h : pyprojectShape.prune document = some pruned) :
    ofPyproject pruned = ofPyproject document := by
  have hproject {key : String} {shape : Shape} (hkey : projectFields.lookup key = some shape) :
      child key (pruned.get? "project") = (child key (document.get? "project")).bind shape.prune := by
    rw [Shape.get?_of_prune h rfl]
    exact Shape.child_bind_prune hkey _
  have htool : child "poetry" (pruned.get? "tool") = (child "poetry" (document.get? "tool")).bind poetryShape.prune := by
    rw [Shape.get?_of_prune h rfl]
    exact Shape.child_bind_prune rfl _
  have hpoetry {key : String} {shape : Shape} (hkey : poetryFields.lookup key = some shape) :
      child key (child "poetry" (pruned.get? "tool")) =
        (child key (child "poetry" (document.get? "tool"))).bind shape.prune := by
    rw [htool]
    exact Shape.child_bind_prune hkey _
  rw [ofPyproject_eq, ofPyproject_eq, poetryNames, poetryNames, poetryNames, poetryNames, hproject rfl, hproject rfl,
    hproject rfl, hproject rfl, hpoetry rfl, hpoetry rfl, hpoetry rfl, hpoetry rfl, preferred_prune, preferred_prune,
    requirementNames_prune, groupNames_prune, keysOf_prune, keysOf_prune]

end

/-! ## Records -/

/-- The texts that a record is made of have only characters that exist. -/
structure AreWhole (name version : Option Data) (keys : List Data) : Prop where
  name : ∀ codes, name ≠ some (.broken codes)
  version : ∀ codes, version ≠ some (.broken codes)
  keys : ∀ key ∈ keys, ∃ s, key = .text s

theorem exists_textOf_iff {field : String} {value : Option Data} :
    (∃ found, textOf field value = .ok found) ↔ ∀ codes, value ≠ some (.broken codes) := by
  cases value with
  | none => simp [textOf]
  | some d => cases d <;> simp [textOf, wholeText, Except.map]

theorem exists_wholeText_iff {field : String} {key : Data} :
    (∃ found, wholeText field key = .ok found) ↔ ∃ s, key = .text s := by
  cases key <;> simp [wholeText]

theorem exists_names_iff {field : String} {keys : List Data} :
    (∃ found, names field keys = .ok found) ↔ ∀ key ∈ keys, ∃ s, key = .text s := by
  constructor
  · rintro ⟨found, hfound⟩ key hkey
    exact exists_wholeText_iff.mp ⟨_, (Except.mapM_eq_ok hfound).2 key hkey⟩
  · exact fun h => Except.exists_mapM_eq_ok fun key hkey => exists_wholeText_iff.mpr (h key hkey)

/-- The four fields of a record are read one after another. -/
theorem exists_fields_iff {kind : String} {name version : Option Data} {keys devKeys : List Data} :
    (∃ m, (do
      let name ← textOf "name" name
      let version ← textOf "version" version
      let dependencies ← names "dependencies" keys
      let devDependencies ← names "devDependencies" devKeys
      return (⟨kind, name, version, dependencies, devDependencies⟩ : Manifest)) = .ok m) ↔
      AreWhole name version (keys ++ devKeys) := by
  constructor
  · rintro ⟨m, hm⟩
    obtain ⟨_, hname, hm⟩ := Except.bind_eq_ok hm
    obtain ⟨_, hversion, hm⟩ := Except.bind_eq_ok hm
    obtain ⟨_, hkeys, hm⟩ := Except.bind_eq_ok hm
    obtain ⟨_, hdevKeys, -⟩ := Except.bind_eq_ok hm
    refine ⟨exists_textOf_iff.mp ⟨_, hname⟩, exists_textOf_iff.mp ⟨_, hversion⟩, fun key hkey => ?_⟩
    rcases List.mem_append.mp hkey with hkey | hkey
    · exact exists_names_iff.mp ⟨_, hkeys⟩ key hkey
    · exact exists_names_iff.mp ⟨_, hdevKeys⟩ key hkey
  · rintro ⟨hname, hversion, hkeys⟩
    obtain ⟨_, hname⟩ := exists_textOf_iff.mpr hname
    obtain ⟨_, hversion⟩ := exists_textOf_iff.mpr hversion
    obtain ⟨_, hdependencies⟩ := exists_names_iff.mpr fun key hkey => hkeys key (List.mem_append_left devKeys hkey)
    obtain ⟨_, hdevDependencies⟩ := exists_names_iff.mpr fun key hkey => hkeys key (List.mem_append_right keys hkey)
    rw [hname, hversion, hdependencies, hdevDependencies]
    exact ⟨_, rfl⟩

/-! ## What a decoded document declares -/

/-- Of a table a reader makes what it makes of the table pruned to a shape. -/
def Overlooks (declared : Data → Except Fault Manifest) (shape : Shape) (entries : List (Data × Data)) : Prop :=
  ∃ pruned, shape.prune (.table entries) = some pruned ∧ shape.Holds pruned ∧
    ofDocument (.ok pruned) declared = ofDocument (.ok (.table entries)) declared

theorem overlooks_record {declared : Data → Except Fault Manifest} {fields : List (String × Shape)}
    {distinct : (fields.map Prod.fst).Nodup}
    (h : ∀ {document pruned}, (Shape.record fields distinct).prune document = some pruned →
      declared pruned = declared document) (entries : List (Data × Data)) :
    Overlooks declared (.record fields distinct) entries := by
  have hprune : (Shape.record fields distinct).prune (.table entries) =
      some (.table (Shape.pruneFields fields entries)) := rfl
  refine ⟨_, hprune, (Shape.record fields distinct).holds_of_prune hprune, ?_⟩
  rw [ofDocument, ofDocument, h hprune]

theorem exists_ofDocument_iff {declared : Data → Except Fault Manifest} {entries : List (Data × Data)} :
    (∃ m, ofDocument (.ok (.table entries)) declared = .ok (some m)) ↔ ∃ m, declared (.table entries) = .ok m := by
  rw [ofDocument]
  cases declared (.table entries) <;> simp [Except.map]

example : pyprojectShape.prune (.record [
      ("project", .record [
        ("name", .int 1), ("dependencies", .list [.text "requests", .int 3]),
        ("optional-dependencies", .record [("test", .text "pytest"), ("docs", .list [.text "sphinx"])])]),
      ("tool", .list [.text "poetry"])]) =
    some (.record [("project", .record [
      ("dependencies", .list [.text "requests"]),
      ("optional-dependencies", .record [("docs", .list [.text "sphinx"])])])]) := rfl

open Json

def halfNamedFields : List (String × Tree) := [
  ("name", .quoted ⟨[.unit 'd' '8' '0' '0' (by decide)]⟩), ("dependencies", .ofFields [("vue", .ofString "^3")])]

/-- A manifest whose name is half of a surrogate pair. -/
def halfNamed : Document := ⟨noGap, .ofFields halfNamedFields, noGap⟩

end Manifest

end CodeCensus
