import CodeCensus.Proofs.Files.Listing

/-! What a value that stands where globs should makes of a listing. Its parts are tried on the name of every file that
is met, in their order, until one fits; a part that is no text makes the listing fail, unless one before it fits. -/

namespace CodeCensus.Files

variable {value : Data} {name : String} {fault : ListingFault}

/-! ## One name -/

/-- Whether a value leaves out the files of a name. -/
def excludes (value : Data) (name : String) : Except ListingFault Bool :=
  if value.isTruthy then (partsOf value).bind (fitsSome name) else .ok false

theorem excludesFile_eq (o : ListingOptions) (name : String) :
    o.excludesFile name = excludes o.excludedNames name := rfl

theorem excludes_of_not_truthy (h : value.isTruthy = false) (name : String) : excludes value name = .ok false := by
  rw [excludes, h]
  rfl

theorem excludes_texts (globs : List String) (name : String) :
    excludes (.texts globs) name = .ok (globs.any fun glob => Glob.fits glob.toList name.toList) := by
  cases globs with
  | nil => rfl
  | cons glob globs => exact Choice.fitsSome_texts name (glob :: globs)

/-- Each character of a text counts as a glob of its own. -/
theorem excludes_text (s name : String) :
    excludes (.text s) name = .ok (s.toList.any fun c => Glob.fits [c] name.toList) := by
  have hparts : (s.toList.map fun c => Data.text (String.singleton c)) =
      (s.toList.map String.singleton).map Data.text := by
    rw [List.map_map]
    rfl
  by_cases h : s = ""
  · rw [h]
    rfl
  · have htruthy : (Data.text s).isTruthy = true := bne_iff_ne.mpr h
    rw [excludes, htruthy, if_pos rfl, partsOf, hparts]
    exact (Choice.fitsSome_texts name _).trans (by simp [List.any_map, Function.comp_def])

theorem exists_of_fitsSome {globs : List Data} (h : fitsSome name globs = .ok true) :
    ∃ glob ∈ globs, fitsValue name glob = .ok true := by
  induction globs with
  | nil => cases h
  | cons glob globs ih =>
    rw [fitsSome] at h
    obtain ⟨fits, hfits, h⟩ := Except.bind_eq_ok h
    cases fits with
    | true => exact ⟨glob, List.mem_cons_self, hfits⟩
    | false =>
      obtain ⟨other, hother, hfits⟩ := ih h
      exact ⟨other, List.mem_cons_of_mem glob hother, hfits⟩

theorem fitsSome_eq_error {globs : List Data} :
    fitsSome name globs = .error fault ↔ ∃ before glob after, globs = before ++ glob :: after ∧
      (∀ other ∈ before, fitsValue name other = .ok false) ∧ fitsValue name glob = .error fault := by
  constructor
  · intro h
    induction globs with
    | nil => cases h
    | cons first globs ih =>
      rw [fitsSome] at h
      rcases Except.bind_eq_error h with hfirst | ⟨fits, hfits, h⟩
      · exact ⟨[], first, globs, rfl, by simp, hfirst⟩
      · cases fits with
        | true => cases h
        | false =>
          obtain ⟨before, glob, after, rfl, hbefore, hglob⟩ := ih h
          exact ⟨first :: before, glob, after, rfl, List.forall_mem_cons.mpr ⟨hfits, hbefore⟩, hglob⟩
  · rintro ⟨before, glob, after, rfl, hbefore, hglob⟩
    induction before with
    | nil =>
      rw [List.nil_append, fitsSome, hglob]
      rfl
    | cons first before ih =>
      obtain ⟨hfirst, hrest⟩ := List.forall_mem_cons.mp hbefore
      rw [List.cons_append, fitsSome, hfirst]
      exact ih hrest

/-- A value cannot be tried on a name if it is not empty and has no parts, or if one that cannot be tried comes before
any that fits. -/
theorem excludes_eq_error :
    excludes value name = .error fault ↔ value.isTruthy = true ∧ (partsOf value = .error fault ∨
      ∃ before glob after, partsOf value = .ok (before ++ glob :: after) ∧
        (∀ other ∈ before, fitsValue name other = .ok false) ∧ fitsValue name glob = .error fault) := by
  rw [excludes]
  cases value.isTruthy with
  | false => simp
  | true =>
    rw [if_pos rfl]
    cases hparts : partsOf value with
    | error fault' => simp [Except.bind]
    | ok globs => simp [Except.bind, fitsSome_eq_error]

theorem exists_of_excludes_list {items : List Data} (h : excludes (.list items) name = .ok true) :
    ∃ glob ∈ items, fitsValue name glob = .ok true := by
  rw [excludes] at h
  split at h
  · exact exists_of_fitsSome h
  · cases h

/-! ## One lister -/

namespace Lister

variable {l : Lister} {dir : List String} {node : Node} {entries : List (String × Node)} {e : Entry}
  {listed : List Entry} {tested : String}

def excluding (l : Lister) (value : Data) : Lister := { l with options := { l.options with excludedNames := value } }

theorem keepsDir_excluding (l : Lister) (value : Data) (dir : List String) (name : String) :
    (l.excluding value).keepsDir dir name = l.keepsDir dir name := rfl

/-- A value that leaves out files is tried only on names that are kept otherwise. -/
theorem keepsFile_excluding (hnone : l.options.excludedNames = .null) (value : Data) (dir : List String)
    (name : String) :
    (l.excluding value).keepsFile dir name =
      (l.keepsFile dir name).bind fun isKept => if isKept then (excludes value name).map not else .ok false := by
  have hhides : (l.excluding value).hides name = l.hides name := rfl
  have hignores : (l.excluding value).ignores ((l.excluding value).root ++ dir ++ [name]) =
      l.ignores (l.root ++ dir ++ [name]) := rfl
  have hexcludes : (l.excluding value).options.excludesFile name = excludes value name := rfl
  have hothers : l.options.excludesFile name = .ok false := by
    rw [excludesFile_eq, hnone]
    rfl
  rw [keepsFile, keepsFile, hhides, hignores, hexcludes, hothers]
  cases l.hides name with
  | true => rfl
  | false =>
    cases l.ignores (l.root ++ dir ++ [name]) with
    | error fault => rfl
    | ok isIgnored =>
      cases isIgnored with
      | true => rfl
      | false => cases excludes value name <;> rfl

theorem keepsFile_excluding_eq_true (hnone : l.options.excludedNames = .null) :
    (l.excluding value).keepsFile dir name = .ok true ↔
      l.keepsFile dir name = .ok true ∧ excludes value name = .ok false := by
  rw [keepsFile_excluding hnone]
  cases l.keepsFile dir name with
  | error fault => simp [Except.bind]
  | ok isKept =>
    cases isKept with
    | false => simp [Except.bind]
    | true =>
      cases excludes value name with
      | error fault => simp [Except.bind, Except.map]
      | ok isExcluded => simp [Except.bind, Except.map]

/-- Entries that a value does not leave out: all directories, and the files whose names it does not exclude. -/
def Spares (value : Data) (e : Entry) : Prop := e.kind = .dir ∨ excludes value e.name = .ok false

instance (value : Data) (e : Entry) : Decidable (Spares value e) := inferInstanceAs (Decidable (_ ∨ _))

theorem lists_excluding (hnone : l.options.excludedNames = .null) :
    (l.excluding value).Lists dir node e ↔ l.Lists dir node e ∧ Spares value e := by
  constructor
  · intro h
    induction h with
    | dir mem keeps => exact ⟨.dir mem keeps, .inl rfl⟩
    | file mem keeps =>
      obtain ⟨hkept, hspared⟩ := (keepsFile_excluding_eq_true hnone).mp keeps
      exact ⟨.file mem hkept, .inr hspared⟩
    | deeper mem keeps lists ih => exact ⟨.deeper mem keeps ih.1, ih.2⟩
  · rintro ⟨h, hspares⟩
    induction h with
    | dir mem keeps => exact .dir mem keeps
    | file mem keeps =>
      have hspared := hspares.resolve_left (by rintro ⟨⟩)
      exact .file mem ((keepsFile_excluding_eq_true hnone).mpr ⟨keeps, hspared⟩)
    | deeper mem keeps lists ih => exact .deeper mem keeps (ih hspares)

/-- A file, or a link that leads to no directory. -/
def LooksLikeFile (l : Lister) (names : List String) : Node → Prop
  | .file _ => True
  | .link _ => l.leadsToDir (l.root ++ names) = false
  | .dir _ => False

theorem looksLikeFile_iff {names : List String} :
    l.LooksLikeFile names node ↔ ∃ size?, (l.itemOf names node).size? = some size? := by
  cases node with
  | file content =>
    rw [itemOf]
    exact iff_of_true trivial ⟨_, rfl⟩
  | dir below =>
    rw [itemOf]
    refine iff_of_false id ?_
    rintro ⟨size?, hsize⟩
    cases hsize
  | link target =>
    rw [itemOf, LooksLikeFile]
    cases l.leadsToDir (l.root ++ names) with
    | true =>
      refine iff_of_false (by simp) ?_
      rintro ⟨size?, hsize⟩
      cases hsize
    | false => exact iff_of_true rfl ⟨_, rfl⟩

theorem looksLikeFile_excluding {names : List String} :
    (l.excluding value).LooksLikeFile names node ↔ l.LooksLikeFile names node := Iff.rfl

/-- Names that a value is tried on below a directory: those that nothing else leaves out of what looks like a file. -/
inductive Tests (l : Lister) : List String → Node → String → Prop
  | here {dir : List String} {name : String} {entries : List (String × Node)} {node : Node}
    (mem : (name, node) ∈ entries) (looks : l.LooksLikeFile (dir ++ [name]) node)
    (keeps : l.keepsFile dir name = .ok true) : Tests l dir (.dir entries) name
  | deeper {dir : List String} {name tested : String} {entries below : List (String × Node)}
    (mem : (name, .dir below) ∈ entries) (keeps : l.keepsDir dir name = .ok true)
    (tests : Tests l (dir ++ [name]) (.dir below) tested) : Tests l dir (.dir entries) tested

theorem tests_of_lists (h : l.Lists dir node e) (hfile : e.kind = .file) : l.Tests dir node e.name := by
  induction h with
  | dir mem keeps => cases hfile
  | file mem keeps => exact .here mem trivial keeps
  | deeper mem keeps lists ih => exact .deeper mem keeps (ih hfile)

section

variable {α : Type} {pick : Item → Option α} {keeps : String → Except ListingFault Bool} {items : List (String × Item)}
  {kept : List (String × α)}

theorem ok_of_keptOf {item : Item} {picked : α} (h : keptOf pick keeps items = .ok kept)
    (hmem : (name, item) ∈ items) (hpick : pick item = some picked) : ∃ isKept, keeps name = .ok isKept := by
  obtain ⟨found, hfound, -⟩ := Except.map_eq_ok h
  obtain ⟨kept?, hitem⟩ := Except.ok_of_filterMapM hfound _ hmem
  rw [keepItem, hpick] at hitem
  obtain ⟨isKept, hisKept, -⟩ := Except.map_eq_ok hitem
  exact ⟨isKept, hisKept⟩

theorem exists_of_keptOf_eq_error (h : keptOf pick keeps items = .error fault) :
    ∃ name item picked, (name, item) ∈ items ∧ pick item = some picked ∧ keeps name = .error fault := by
  obtain ⟨⟨name, item⟩, hmem, hitem⟩ := Except.exists_filterMapM_eq_error (Except.map_eq_error h)
  rw [keepItem] at hitem
  split at hitem
  · rename_i picked hpick
    exact ⟨name, item, picked, hmem, hpick, Except.map_eq_error hitem⟩
  · cases hitem

end

/-- If a listing with a value comes about, the value could be tried on all names. -/
theorem exists_excludes_of_tests (hnone : l.options.excludedNames = .null)
    (htests : l.Tests dir (.dir entries) tested)
    (hlisted : (l.excluding value).listItems dir ((l.excluding value).itemsOf dir entries) = .ok listed) :
    ∃ isExcluded, excludes value tested = .ok isExcluded := by
  generalize hnode : Node.dir entries = node at htests
  induction htests generalizing entries listed with
  | here mem looks keeps =>
    obtain rfl := Node.dir.inj hnode
    obtain ⟨size?, hsize⟩ := looksLikeFile_iff.mp (looksLikeFile_excluding.mpr looks)
    obtain ⟨dirs, files, -, hfiles, -⟩ := listItems_eq_ok hlisted
    obtain ⟨kept, hkept, -⟩ := Except.map_eq_ok hfiles
    obtain ⟨isKept, hisKept⟩ := ok_of_keptOf hkept (mem_itemsOf.mpr ⟨_, mem, rfl⟩) hsize
    rw [keepsFile_excluding hnone, keeps] at hisKept
    obtain ⟨isExcluded, hexcluded, -⟩ := Except.map_eq_ok hisKept
    exact ⟨isExcluded, hexcluded⟩
  | deeper mem keeps tests ih =>
    obtain rfl := Node.dir.inj hnode
    obtain ⟨dirs, files, hdirs, -, hbelow, -⟩ := listItems_eq_ok hlisted
    have hfound := (mem_dirsOf hdirs).mpr ⟨⟨_, mem, rfl⟩, keeps⟩
    exact ih (hbelow _ hfound) rfl

/-- What a file listing that is there without a value fails with is what the value fails with on some name. -/
theorem exists_error_of_filesOf {files : List (String × Nat)} (hnone : l.options.excludedNames = .null)
    (hfiles : l.filesOf dir (l.itemsOf dir entries) = .ok files)
    (herror : (l.excluding value).filesOf dir ((l.excluding value).itemsOf dir entries) = .error fault) :
    ∃ tested, l.Tests dir (.dir entries) tested ∧ excludes value tested = .error fault := by
  obtain ⟨name, item, size?, hmem, hsize, hfails⟩ := exists_of_keptOf_eq_error (Except.map_eq_error herror)
  obtain ⟨node, hnode, rfl⟩ := mem_itemsOf.mp hmem
  have hlooks : l.LooksLikeFile (dir ++ [name]) node :=
    looksLikeFile_excluding.mp (looksLikeFile_iff.mpr ⟨size?, hsize⟩)
  -- without the value there is a decision about the name
  obtain ⟨kept, hkept, -⟩ := Except.map_eq_ok hfiles
  obtain ⟨size?', hsize'⟩ := looksLikeFile_iff.mp hlooks
  obtain ⟨isKept, hisKept⟩ := ok_of_keptOf hkept (mem_itemsOf.mpr ⟨node, hnode, rfl⟩) hsize'
  rw [keepsFile_excluding hnone, hisKept] at hfails
  cases isKept with
  | false => cases hfails
  | true => exact ⟨name, .here hnode hlooks hisKept, Except.map_eq_error hfails⟩

theorem dirsOf_excluding_ne_error {dirs : List (String × (Unit → Except ListingFault (List Entry)))}
    (hdirs : l.dirsOf dir (l.itemsOf dir entries) = .ok dirs) :
    (l.excluding value).dirsOf dir ((l.excluding value).itemsOf dir entries) ≠ .error fault := by
  intro herror
  obtain ⟨name, item, below, hmem, hbelow, hfails⟩ := exists_of_keptOf_eq_error herror
  obtain ⟨node, hnode, rfl⟩ := mem_itemsOf.mp hmem
  obtain ⟨deeper, rfl, -⟩ := below?_itemOf_eq_some_iff.mp hbelow
  obtain ⟨isKept, hisKept⟩ :=
    ok_of_keptOf hdirs (mem_itemsOf.mpr ⟨_, hnode, rfl⟩) (below?_itemOf_eq_some_iff.mpr ⟨deeper, rfl, rfl⟩)
  rw [keepsDir_excluding, hisKept] at hfails
  cases hfails

theorem exists_error_of_listItems (hnone : l.options.excludedNames = .null) (hproper : (Node.dir entries).IsProper)
    (hlisted : l.listItems dir (l.itemsOf dir entries) = .ok listed)
    (herror : (l.excluding value).listItems dir ((l.excluding value).itemsOf dir entries) = .error fault) :
    ∃ tested, l.Tests dir (.dir entries) tested ∧ excludes value tested = .error fault := by
  induction hproper using Node.IsProper.dirInduction generalizing dir listed with
  | @dir entries names distinct nodes ih =>
    obtain ⟨dirs, files, hdirs, hfiles, hbelow, -⟩ := listItems_eq_ok hlisted
    rw [listItems] at herror
    rcases Except.bind_eq_error herror with hfails | ⟨dirs', hdirs', herror⟩
    · exact absurd hfails (dirsOf_excluding_ne_error hdirs)
    rcases Except.bind_eq_error herror with hfails | ⟨files', -, herror⟩
    · exact exists_error_of_filesOf hnone hfiles hfails
    rcases Except.bind_eq_error herror with hfails | ⟨below, -, herror⟩
    · obtain ⟨⟨name, below⟩, hfound, hbelowFails⟩ := Except.exists_mapM_eq_error hfails
      obtain ⟨⟨deeper, hmem, rfl⟩, hkeeps⟩ := (mem_dirsOf hdirs').mp hfound
      have hfound' := (mem_dirsOf hdirs).mpr ⟨⟨deeper, hmem, rfl⟩, hkeeps⟩
      obtain ⟨tested, htests, hfault⟩ := ih hmem (hbelow _ hfound') hbelowFails
      exact ⟨tested, .deeper hmem hkeeps htests, hfault⟩
    · cases herror

/-- A listing with a value is the listing without it, less what the value does not spare. -/
theorem listItems_excluding (hnone : l.options.excludedNames = .null) (hproper : (Node.dir entries).IsProper)
    (hdir : ∀ name ∈ dir, '/' ∉ name.toList) {spared : List Entry}
    (hlisted : l.listItems dir (l.itemsOf dir entries) = .ok listed)
    (hspared : (l.excluding value).listItems dir ((l.excluding value).itemsOf dir entries) = .ok spared) :
    spared = listed.filter (Spares value) := by
  obtain ⟨hmem, horder⟩ := listItems_spec hproper hdir hlisted
  obtain ⟨hmem', horder'⟩ := listItems_spec hproper hdir hspared
  refine horder'.eq_of_mem_iff (horder.filter _) fun e => ?_
  rw [hmem', lists_excluding hnone, List.mem_filter, hmem, decide_eq_true_iff]

end Lister

/-! ## One directory -/

section

variable {rulesOf : Place → Except ListingFault (Place → Except ListingFault Bool)} {top : Node} {place : Place}
  {path : String} {o : ListingOptions} {listed spared : List Entry}

/-- In the listing of the directory that a path leads to, a value is tried on a name. -/
def TriesOn (rulesOf : Place → Except ListingFault (Place → Except ListingFault Bool)) (top : Node) (place : Place)
    (path : String) (o : ListingOptions) (name : String) : Prop :=
  ∃ root entries dirs ignores, top.resolve place path = some root ∧ top.find [] root.text = .ok (.dir entries) ∧
    o.dirNames = .ok dirs ∧ rulesOf root = .ok ignores ∧
    Lister.Tests ⟨root, o, dirs, ignores, fun found => top.isDirAt [] found.text⟩ [] (.dir entries) name

theorem Node.IsProper.of_find {node : Node} (hproper : top.IsProper) (hfind : top.find place path = .ok node) :
    node.IsProper := by
  rw [Node.find] at hfind
  obtain ⟨found, -, hfind⟩ := Except.bind_eq_ok hfind
  split at hfind
  · rename_i node' hat
    obtain rfl := Except.ok.inj hfind
    exact (hproper.of_at? hat).2
  · cases hfind

/-- A listing comes from a lister, and with a value it comes from that one with the value. -/
theorem exists_lister_of_listingBy (hproper : top.IsProper)
    (hlisted : listingBy rulesOf top place path o = .ok listed) :
    ∃ (l : Lister) (entries : List (String × Node)), (Node.dir entries).IsProper ∧ l.options = o ∧
      l.listItems [] (l.itemsOf [] entries) = .ok listed ∧
      (∀ name, TriesOn rulesOf top place path o name ↔ l.Tests [] (.dir entries) name) ∧
      ∀ value, listingBy rulesOf top place path { o with excludedNames := value } =
        (l.excluding value).listItems [] ((l.excluding value).itemsOf [] entries) := by
  rw [listingBy] at hlisted
  split at hlisted
  · cases hlisted
  rename_i hnull
  split at hlisted
  · cases hlisted
  rename_i root hroot
  split at hlisted
  · cases hlisted
  · cases hlisted
  · rename_i entries hfind
    obtain ⟨ignores, hignores, hlisted⟩ := Except.bind_eq_ok hlisted
    obtain ⟨dirs, hdirs, hlisted⟩ := Except.bind_eq_ok hlisted
    refine ⟨_, entries, hproper.of_find hfind, rfl, hlisted, fun name => ⟨?_, ?_⟩, fun value => ?_⟩
    · rintro ⟨root', entries', dirs', ignores', hroot', hfind', hdirs', hignores', htests⟩
      obtain rfl := Option.some.inj (hroot.symm.trans hroot')
      obtain rfl := Node.dir.inj (Except.ok.inj (hfind.symm.trans hfind'))
      obtain rfl := Except.ok.inj (hdirs.symm.trans hdirs')
      obtain rfl := Except.ok.inj (hignores.symm.trans hignores')
      exact htests
    · intro htests
      exact ⟨root, entries, dirs, ignores, hroot, hfind, hdirs, hignores, htests⟩
    · have hdirs' : ListingOptions.dirNames { o with excludedNames := value } = .ok dirs := hdirs
      rw [listingBy, if_neg hnull, hroot]
      simp only [hfind, hignores, hdirs']
      rfl
  · cases hlisted

theorem triesOn_of_mem (hproper : top.IsProper) (hlisted : listingBy rulesOf top place path o = .ok listed) {e : Entry}
    (he : e ∈ listed) (hfile : e.kind = .file) : TriesOn rulesOf top place path o e.name := by
  obtain ⟨l, entries, hentries, -, hlisted', htries, -⟩ := exists_lister_of_listingBy hproper hlisted
  have hmem := (Lister.listItems_spec hentries (by simp) hlisted').1
  exact (htries e.name).mpr (Lister.tests_of_lists ((hmem e).mp he) hfile)

/-- With a value, the listing is what that value spares of the listing without it, or else it fails as the value does
on one of the names that it is tried on. -/
theorem listingBy_excluding (hproper : top.IsProper) (hnone : o.excludedNames = .null)
    (hlisted : listingBy rulesOf top place path o = .ok listed) (value : Data) :
    (∀ spared, listingBy rulesOf top place path { o with excludedNames := value } = .ok spared →
      spared = listed.filter (Lister.Spares value) ∧
        ∀ name, TriesOn rulesOf top place path o name → ∃ isExcluded, excludes value name = .ok isExcluded) ∧
    ∀ fault, listingBy rulesOf top place path { o with excludedNames := value } = .error fault →
      ∃ name, TriesOn rulesOf top place path o name ∧ excludes value name = .error fault := by
  obtain ⟨l, entries, hentries, rfl, hlisted', htries, hvalue⟩ := exists_lister_of_listingBy hproper hlisted
  rw [hvalue value]
  refine ⟨fun spared hspared => ⟨?_, fun name hname => ?_⟩, fun fault herror => ?_⟩
  · exact Lister.listItems_excluding hnone hentries (by simp) hlisted' hspared
  · exact Lister.exists_excludes_of_tests hnone ((htries name).mp hname) hspared
  · obtain ⟨name, htests, hfault⟩ := Lister.exists_error_of_listItems hnone hentries hlisted' herror
    exact ⟨name, (htries name).mpr htests, hfault⟩

end

end CodeCensus.Files
