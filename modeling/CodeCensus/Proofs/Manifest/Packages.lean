import CodeCensus.Manifest
import CodeCensus.Proofs.Document.JsonReading

/-! Packages as their own manifests and lockfiles declare them. Both formats give the same name, version and
dependencies for a package, whatever else stands in the document and however it is written; a lockfile that does not
record the package itself lists all that is locked, and divides it by a flag. -/

namespace CodeCensus

/-- Names, each of them once, with what is recorded about each. -/
structure Listing (α : Type) where
  entries : List (String × α)
  distinct : (entries.map Prod.fst).Nodup

namespace Listing

variable {α : Type}

def names (l : Listing α) : List String := l.entries.map Prod.fst

def table (l : Listing α) (write : α → Data) : Data := Data.record (l.entries.map fun entry => (entry.1, write entry.2))

end Listing

/-- A package with the versions that it asks for of others, in use and in development. -/
structure Package where
  name : String
  version : String
  dependencies : Listing String
  devDependencies : Listing String

namespace Package

def manifest (p : Package) (kind : String) : Manifest :=
  ⟨kind, some p.name, some p.version, p.dependencies.names, p.devDependencies.names⟩

structure IsNamedIn (p : Package) (document : Data) : Prop where
  name : document.get? "name" = some (.text p.name)
  version : document.get? "version" = some (.text p.version)

structure IsListedIn (p : Package) (table : Data) : Prop where
  dependencies : table.get? "dependencies" = some (p.dependencies.table .text)
  devDependencies : table.get? "devDependencies" = some (p.devDependencies.table .text)

end Package

namespace Manifest

/-! ## Lockfiles without the package itself -/

/-- A lockfile holds all that is locked in one table and does not record the package itself. -/
structure IsFlat (document : Data) (locked : Listing Data) : Prop where
  root : ∀ entries, child "" (document.get? "packages") ≠ some (.table entries)
  locked : document.get? "dependencies" = some (locked.table id)

def IsFlagged (entry : Data) : Prop := ∃ flag, entry.get? "dev" = some flag ∧ flag.isTruthy = true

theorem isDev_iff {entry : Data} : isDev entry = true ↔ IsFlagged entry := by
  rw [isDev, IsFlagged]
  cases entry.get? "dev" with
  | none => simp
  | some flag => simp

/-- A manifest puts every name that is locked into one of its two lists, as its flag says. -/
structure Divides (m : Manifest) (locked : Listing Data) : Prop where
  sublist : m.dependencies.Sublist locked.names
  devSublist : m.devDependencies.Sublist locked.names
  mem_iff : ∀ entry ∈ locked.entries, entry.1 ∈ m.dependencies ↔ ¬ IsFlagged entry.2
  mem_dev_iff : ∀ entry ∈ locked.entries, entry.1 ∈ m.devDependencies ↔ IsFlagged entry.2

/-- Since no name comes twice, a name is chosen just if what is recorded about it is. -/
theorem mem_filter_names_iff (locked : Listing Data) (chosen : Data → Bool) {entry : String × Data}
    (h : entry ∈ locked.entries) :
    entry.1 ∈ (locked.entries.filter fun e => chosen e.2).map Prod.fst ↔ chosen entry.2 = true := by
  constructor
  · intro hmem
    obtain ⟨other, hother, hname⟩ := List.mem_map.mp hmem
    obtain ⟨hother, hchosen⟩ := List.mem_filter.mp hother
    have hsame : other = entry := List.inj_on_of_nodup_map locked.distinct hother h hname
    rwa [hsame] at hchosen
  · intro hchosen
    exact List.mem_map_of_mem (List.mem_filter.mpr ⟨h, hchosen⟩)

/-! ## Fields of a manifest -/

section

variable {field key : String} {document value : Data} {declared : Data → Except Fault Manifest} {m : Manifest}

theorem textOf_of_ne_broken (field : String) {value : Option Data} (h : ∀ codes, value ≠ some (.broken codes)) :
    textOf field value = .ok (value.bind Data.text?) := by
  unfold textOf
  split
  · rfl
  · rename_i codes
    exact absurd rfl (h codes)
  · rename_i hno _
    cases value with
    | none => rfl
    | some d =>
      cases d with
      | text s => exact absurd rfl (hno s)
      | _ => rfl

theorem names_texts (l : List String) : names field (l.map .text) = .ok l := by
  induction l with
  | nil => rfl
  | cons s l ih =>
    rw [names] at ih
    rw [names, List.map_cons, List.mapM_cons, ih]
    rfl

theorem keysOf_table {α : Type} (l : Listing α) (write : α → Data) :
    keysOf (some (l.table write)) = l.names.map .text := by
  rw [Listing.table, Data.record, keysOf, Listing.names, List.map_map, List.map_map, List.map_map]
  rfl

theorem ofDocument_of_get? (hget : document.get? key = some value) (h : declared document = .ok m) :
    ofDocument (.ok document) declared = .ok (some m) := by
  cases document with
  | table entries =>
    rw [ofDocument, h]
    rfl
  | _ => cases hget

end

section

variable {document root : Data} {p : Package}

theorem ofPackageJson_of_package (hnamed : p.IsNamedIn document) (hlisted : p.IsListedIn document) :
    ofPackageJson document = .ok (p.manifest "package-json") := by
  unfold ofPackageJson
  dsimp only
  rw [hnamed.name, hnamed.version, hlisted.dependencies, hlisted.devDependencies, keysOf_table, keysOf_table, names_texts,
    names_texts]
  rfl

theorem lockedKeys_of_root (hroot : child "" (document.get? "packages") = some root) (hlisted : p.IsListedIn root) :
    lockedKeys document = (p.dependencies.names.map .text, p.devDependencies.names.map .text) := by
  have hdependencies := hlisted.dependencies
  cases root with
  | table entries =>
    rw [lockedKeys, hroot]
    dsimp only
    rw [hdependencies, hlisted.devDependencies, keysOf_table, keysOf_table]
  | _ => cases hdependencies

theorem ofPackageLock_of_root (hnamed : p.IsNamedIn document)
    (hroot : child "" (document.get? "packages") = some root) (hlisted : p.IsListedIn root) :
    ofPackageLock document = .ok (p.manifest "package-lock") := by
  rw [ofPackageLock, lockedKeys_of_root hroot hlisted, hnamed.name, hnamed.version]
  dsimp only
  rw [names_texts, names_texts]
  rfl

theorem lockedKeys_of_isFlat {locked : Listing Data} (h : IsFlat document locked) :
    lockedKeys document =
      (((locked.entries.filter fun entry => !isDev entry.2).map Prod.fst).map .text,
        ((locked.entries.filter fun entry => isDev entry.2).map Prod.fst).map .text) := by
  have hkeys : ∀ chosen : Data → Bool,
      ((locked.entries.map fun entry => (Data.text entry.1, entry.2)).filter fun entry => chosen entry.2).map Prod.fst =
        ((locked.entries.filter fun entry => chosen entry.2).map Prod.fst).map .text := by
    intro chosen
    rw [List.filter_map, List.map_map, List.map_map]
    rfl
  unfold lockedKeys
  split
  · rename_i entries hroot
    exact absurd hroot (h.root entries)
  · rw [h.locked, Listing.table, Data.record, List.map_map]
    exact Prod.ext (hkeys fun entry => !isDev entry) (hkeys isDev)

theorem exists_ofPackageLock_of_isFlat {locked : Listing Data} (h : IsFlat document locked)
    (hwhole : ∀ field ∈ ["name", "version"], ∀ codes, document.get? field ≠ some (.broken codes)) :
    ∃ m, ofPackageLock document = .ok m ∧ m.name = (document.get? "name").bind Data.text? ∧
      m.version = (document.get? "version").bind Data.text? ∧ m.Divides locked := by
  have hname := textOf_of_ne_broken "name" (hwhole "name" (by decide))
  have hversion := textOf_of_ne_broken "version" (hwhole "version" (by decide))
  rw [ofPackageLock, lockedKeys_of_isFlat h, hname, hversion]
  dsimp only
  rw [names_texts, names_texts]
  refine ⟨_, rfl, rfl, rfl, ?_, ?_, fun entry hentry => ?_, fun entry hentry => ?_⟩
  · exact List.filter_sublist.map Prod.fst
  · exact List.filter_sublist.map Prod.fst
  · rw [mem_filter_names_iff locked (fun entry => !isDev entry) hentry, Bool.not_eq_true', ← isDev_iff, Bool.not_eq_true]
  · rw [mem_filter_names_iff locked isDev hentry, isDev_iff]

end

end Manifest

/-! ## Packages as they are written -/

namespace Package

open Json

def fieldsOf (l : Listing String) : List (String × Tree) := l.entries.map fun entry => (entry.1, .ofString entry.2)

theorem value_fieldsOf (l : Listing String) : (Tree.ofFields (fieldsOf l)).value = l.table .text := by
  have hdistinct : ((fieldsOf l).map Prod.fst).Nodup := by
    rw [fieldsOf, List.map_map]
    exact l.distinct
  rw [Tree.value_ofFields hdistinct, Listing.table, fieldsOf, List.map_map]
  refine congrArg Data.record (List.map_congr_left fun entry _ => ?_)
  exact congrArg (Prod.mk entry.1) (Tree.value_ofString entry.2)

/-- The tables of what a package asks for. -/
def tables (p : Package) : List (String × Tree) :=
  [("dependencies", .ofFields (fieldsOf p.dependencies)), ("devDependencies", .ofFields (fieldsOf p.devDependencies))]

/-- The package itself as a lockfile records it. -/
def root (p : Package) : String × Tree := ("packages", .ofFields [("", .ofFields p.tables)])

/-- A name, the version of a package, and more. -/
def fields (p : Package) (name : Quoted) (more : List (String × Tree)) : List (String × Tree) :=
  ("name", .quoted name) :: ("version", .ofString p.version) :: more

def document (p : Package) (name : Quoted) (more : List (String × Tree)) : Document :=
  ⟨noGap, .ofFields (p.fields name more), noGap⟩

variable (p : Package) {name : Quoted} {more : List (String × Tree)}

theorem isListedIn_ofFields (fields : List (String × Tree)) (h : (fields.map Prod.fst).Nodup)
    (hdependencies : fields.lookup "dependencies" = some (.ofFields (fieldsOf p.dependencies)))
    (hdevDependencies : fields.lookup "devDependencies" = some (.ofFields (fieldsOf p.devDependencies))) :
    p.IsListedIn (Tree.ofFields fields).value := by
  refine ⟨?_, ?_⟩
  · rw [Tree.get?_ofFields fields h, hdependencies, Option.map_some, value_fieldsOf]
  · rw [Tree.get?_ofFields fields h, hdevDependencies, Option.map_some, value_fieldsOf]

theorem get?_document (h : ((p.fields name more).map Prod.fst).Nodup) (key : String) :
    (p.document name more).value.get? key = ((p.fields name more).lookup key).map Tree.value :=
  Tree.get?_ofFields (p.fields name more) h key

theorem isNamedIn_document (h : ((p.fields name more).map Prod.fst).Nodup) (hname : ofCodes name.codes = .text p.name) :
    p.IsNamedIn (p.document name more).value := by
  refine ⟨?_, ?_⟩
  · rw [p.get?_document h, ← hname]
    rfl
  · rw [p.get?_document h, ← Tree.value_ofString]
    rfl

theorem exists_child_document (h : ((p.fields name (p.root :: more)).map Prod.fst).Nodup) :
    ∃ root, Manifest.child "" ((p.document name (p.root :: more)).value.get? "packages") = some root ∧
      p.IsListedIn root := by
  have hpackages : (p.document name (p.root :: more)).value.get? "packages" = some p.root.2.value :=
    p.get?_document h "packages"
  rw [hpackages]
  refine ⟨_, Tree.get?_ofFields [("", .ofFields p.tables)] (List.nodup_singleton "") "", ?_⟩
  refine p.isListedIn_ofFields p.tables ?_ rfl rfl
  change ["dependencies", "devDependencies"].Nodup
  decide

theorem fits_tables (depth : Nat) : ∀ field ∈ p.tables, field.2.Fits (depth + 1) := by
  have hstrings (l : Listing String) : (Tree.ofFields (fieldsOf l)).Fits (depth + 1) := by
    refine Tree.fits_ofFields.mpr fun field hfield => ?_
    obtain ⟨entry, -, rfl⟩ := List.mem_map.mp hfield
    exact trivial
  exact List.forall_mem_cons.mpr ⟨hstrings _, List.forall_mem_singleton.mpr (hstrings _)⟩

theorem fits_root (depth : Nat) : p.root.2.Fits (depth + 3) :=
  Tree.fits_ofFields.mpr (List.forall_mem_singleton.mpr (Tree.fits_ofFields.mpr (p.fits_tables depth)))

theorem fits_document : (p.document name more).Fits ↔ ∀ field ∈ more, field.2.Fits (Fault.maxNesting - 1) := by
  have hfits : (Tree.ofFields (p.fields name more)).Fits (Fault.maxNesting - 1 + 1) ↔
      ∀ field ∈ p.fields name more, field.2.Fits (Fault.maxNesting - 1) := Tree.fits_ofFields
  rw [fields, List.forall_mem_cons, List.forall_mem_cons] at hfits
  exact hfits.trans ⟨fun h => h.2.2, fun h => ⟨trivial, trivial, h⟩⟩

end Package

namespace Manifest

end Manifest

namespace Package

open Json

/-- A package whose name is one character beyond those that one code unit stands for. -/
def web : Package :=
  ⟨"🕸", "1.0.0", ⟨[("vue", "^3")], List.nodup_singleton "vue"⟩, ⟨[("vite", "^5")], List.nodup_singleton "vite"⟩⟩

def escapedName : Quoted := ⟨[.unit 'd' '8' '3' 'd' (by decide), .unit 'D' 'D' '7' '8' (by decide)]⟩

theorem ofCodes_escapedName : ofCodes escapedName.codes = .text web.name := rfl

def webManifest : Document := web.document escapedName web.tables

/-- What a lockfile holds of other packages, with one that is only used in development. -/
def flatTable : List (String × Tree) := [("left-pad", .ofFields [("dev", .bool true)]), ("vue", .emptyTable noGap)]

def webLock : Document := web.document escapedName [web.root, ("dependencies", .ofFields flatTable)]

def webFlatLock : Document := web.document escapedName [("dependencies", .ofFields flatTable)]

def webLocked : Listing Data where
  entries := flatTable.map fun field => (field.1, field.2.value)
  distinct := by decide

/-- One more than so many ones. -/
def ones (n : Nat) : Numeral where
  negative := false
  whole := ⟨List.replicate (n + 1) '1', List.cons_ne_nil _ _, fun c hc => by
    obtain rfl := List.eq_of_mem_replicate hc
    rfl⟩
  front := by
    rintro ⟨⟩
  places := none
  power := none

/-- The package itself is locked, and there is an integer with too many digits. -/
def webLongLock : Document := web.document escapedName [web.root, ("build", .number (ones 4300))]

theorem fits_flatTable (depth : Nat) : (Tree.ofFields flatTable).Fits (depth + 2) := by
  have hflagged : (Tree.ofFields [("dev", .bool true)]).Fits (depth + 1) :=
    Tree.fits_ofFields.mpr (List.forall_mem_singleton.mpr trivial)
  exact Tree.fits_ofFields.mpr (List.forall_mem_cons.mpr ⟨hflagged, List.forall_mem_singleton.mpr (Nat.succ_pos depth)⟩)

theorem isFlat_webFlatLock : Manifest.IsFlat webFlatLock.value webLocked := by
  have hdistinct : ((web.fields escapedName [("dependencies", .ofFields flatTable)]).map Prod.fst).Nodup := by decide
  refine ⟨fun entries => ?_, ?_⟩
  · have hpackages : webFlatLock.value.get? "packages" = none := web.get?_document hdistinct "packages"
    rw [hpackages]
    rintro ⟨⟩
  · have hlocked : webFlatLock.value.get? "dependencies" = some (Tree.ofFields flatTable).value :=
      web.get?_document hdistinct "dependencies"
    have hnames : (flatTable.map Prod.fst).Nodup := by decide
    rw [hlocked, Tree.value_ofFields hnames]
    rfl

theorem not_fits_webLongLock : ¬ webLongLock.Fits := by
  intro hfits
  have hshort : (ones 4300).Fits := web.fits_document.mp hfits ("build", .number (ones 4300)) (by simp)
  have hlength : (List.replicate 4301 '1').length ≤ Fault.maxDigits := hshort rfl
  rw [List.length_replicate] at hlength
  exact absurd hlength (by decide)

end Package

namespace Manifest

open Package

end Manifest

end CodeCensus
