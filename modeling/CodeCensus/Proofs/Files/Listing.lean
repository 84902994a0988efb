import CodeCensus.Proofs.Files.Items
import Mathlib.Data.List.Sort

/-! The listing of a directory, whatever is chosen to be left out. It holds exactly the directories and files that
the choice admits on the whole way from the root, each once and after the directory it stands in, and in each
directory in order. It is known by what stands in the tree, in whatever order that is enumerated. -/

namespace CodeCensus.Files

/-- What a listing leaves out. -/
structure Choice where
  includeHidden : Bool
  excludedDirs : List String
  globs : List String
  ignored : Place → Bool

namespace Choice

variable {w : Choice} {top other : Node} {place root : Place} {path name : String} {names dir : List String}
  {bytes : List UInt8} {listed : List Entry} {e : Entry} {entries : List (String × Node)} {leadsToDir : Place → Bool}

def options (w : Choice) : ListingOptions := ⟨w.includeHidden, .texts w.excludedDirs, .texts w.globs⟩

def rules (w : Choice) : Place → Except ListingFault Bool := fun place => .ok (w.ignored place)

def rulesAt (w : Choice) (_ : Place) : Except ListingFault (Place → Except ListingFault Bool) := .ok w.rules

/-- A directory in a place is not left out. -/
def AdmitsDir (w : Choice) (place : Place) (name : String) : Prop :=
  name ∉ neverListed ∧ name ∉ w.excludedDirs ∧ (w.includeHidden = true ∨ isHidden name = false) ∧
    w.ignored (place ++ [name]) = false

/-- A file in a place is not left out. -/
def AdmitsFile (w : Choice) (place : Place) (name : String) : Prop :=
  (w.includeHidden = true ∨ isHidden name = false) ∧ w.ignored (place ++ [name]) = false ∧
    ∀ glob ∈ w.globs, Glob.fits glob.toList name.toList = false

/-- Names lead from a root to a directory. It and each one above it below the root is no link and not left out. -/
def ListsDir (w : Choice) (top : Node) (root : Place) (names : List String) : Prop :=
  names ≠ [] ∧ ∀ front name, front ++ [name] <+: names →
    (∃ entries, top.at? (root ++ front ++ [name]) = some (.dir entries)) ∧ w.AdmitsDir (root ++ front) name

/-- A file that is not left out stands in the root or in a directory that is listed. -/
def ListsFile (w : Choice) (top : Node) (root : Place) (dir : List String) (name : String)
    (bytes : List UInt8) : Prop :=
  (dir = [] ∨ w.ListsDir top root dir) ∧ top.at? (root ++ dir ++ [name]) = some (.file bytes) ∧
    w.AdmitsFile (root ++ dir) name

/-- The entries that are to be listed. -/
def Lists (w : Choice) (top : Node) (root : Place) (e : Entry) : Prop :=
  (∃ dir name, w.ListsDir top root (dir ++ [name]) ∧ e = Lister.dirEntry dir name) ∨
    ∃ dir name bytes, w.ListsFile top root dir name bytes ∧ e = Lister.fileEntry dir name bytes.length

/-- What a listing has to be. -/
structure IsListing (w : Choice) (top : Node) (root : Place) (listed : List Entry) : Prop where
  complete : ∀ e, e ∈ listed ↔ w.Lists top root e
  once : (listed.map Entry.path).Nodup
  closed : ∀ before e after, listed = before ++ e :: after → e.parent ≠ [] →
    ∃ holder ∈ before, holder.kind = .dir ∧ holder.path = pathOf e.parent
  ordered : listed.Pairwise fun a b => a.parent = b.parent →
    a.kind = .dir ∧ b.kind = .file ∨ a.kind = b.kind ∧ a.name < b.name

/-! ## What the options say -/

theorem dirNames_options (w : Choice) : w.options.dirNames = .ok w.excludedDirs := by
  have hnames : ∀ names : List String, (names.map Data.text).filterMapM nameOf? = .ok names := by
    intro names
    induction names with
    | nil => rfl
    | cons name names ih =>
      rw [List.map_cons, List.filterMapM_cons, ih]
      rfl
  rw [ListingOptions.dirNames]
  cases hdirs : w.excludedDirs with
  | nil =>
    rw [options, hdirs]
    rfl
  | cons name names =>
    rw [← hnames (name :: names), options, hdirs]
    rfl

theorem fitsSome_texts (name : String) (globs : List String) :
    fitsSome name (globs.map Data.text) = .ok (globs.any fun glob => Glob.fits glob.toList name.toList) := by
  induction globs with
  | nil => rfl
  | cons glob globs ih =>
    rw [List.map_cons, fitsSome, ih, List.any_cons, fitsValue]
    cases Glob.fits glob.toList name.toList <;> rfl

theorem excludesFile_options (w : Choice) (name : String) :
    w.options.excludesFile name = .ok (w.globs.any fun glob => Glob.fits glob.toList name.toList) := by
  rw [ListingOptions.excludesFile]
  cases hglobs : w.globs with
  | nil =>
    rw [options, hglobs]
    rfl
  | cons glob globs =>
    rw [← fitsSome_texts, options, hglobs]
    rfl

instance (w : Choice) (place : Place) (name : String) : Decidable (w.AdmitsDir place name) :=
  inferInstanceAs (Decidable (_ ∧ _ ∧ _ ∧ _))

instance (w : Choice) (place : Place) (name : String) : Decidable (w.AdmitsFile place name) :=
  inferInstanceAs (Decidable (_ ∧ _ ∧ _))

def lister (w : Choice) (root : Place) (leadsToDir : Place → Bool) : Lister :=
  ⟨root, w.options, w.excludedDirs, w.rules, leadsToDir⟩

theorem ignores_lister (place : Place) : (w.lister root leadsToDir).ignores place = .ok (w.ignored place) := rfl

theorem hides_lister : (w.lister root leadsToDir).hides name = (!w.includeHidden && isHidden name) := rfl

theorem keepsDir_lister :
    (w.lister root leadsToDir).keepsDir dir name = .ok (decide (w.AdmitsDir (root ++ dir) name)) := by
  rw [Lister.keepsDir_of_ignores (ignores_lister (root ++ dir ++ [name])), hides_lister]
  refine congrArg Except.ok (Bool.eq_iff_iff.mpr ?_)
  rw [decide_eq_true_iff, AdmitsDir]
  simp [lister, and_assoc]

theorem keepsFile_lister :
    (w.lister root leadsToDir).keepsFile dir name = .ok (decide (w.AdmitsFile (root ++ dir) name)) := by
  rw [Lister.keepsFile_of_ignores (ignores_lister (root ++ dir ++ [name])) (excludesFile_options w name), hides_lister]
  refine congrArg Except.ok (Bool.eq_iff_iff.mpr ?_)
  rw [decide_eq_true_iff, AdmitsFile]
  simp [and_assoc]

/-! ## What is listed -/

theorem reaches_lister {node : Node} (hat : top.at? root = some node) :
    (w.lister root leadsToDir).Reaches [] node names ↔ names = [] ∨ w.ListsDir top root names := by
  have hplace : ∀ back, node.at? back = top.at? (root ++ back) := fun back =>
    (Node.at?_append_of_eq_some hat back).symm
  have hkeeps : ∀ front name,
      (w.lister root leadsToDir).keepsDir ([] ++ front) name = .ok true ↔ w.AdmitsDir (root ++ front) name := by
    intro front name
    rw [keepsDir_lister, List.nil_append]
    simp
  have hall : (w.lister root leadsToDir).Reaches [] node names ↔ ∀ front name, front ++ [name] <+: names →
      (∃ entries, top.at? (root ++ front ++ [name]) = some (.dir entries)) ∧ w.AdmitsDir (root ++ front) name := by
    simp only [Lister.Reaches, hplace, hkeeps, List.append_assoc]
  rw [hall]
  by_cases hnil : names = []
  · rw [← hall, hnil]
    exact ⟨fun _ => .inl rfl, fun _ => Lister.reaches_nil _ _ _⟩
  · simp [ListsDir, hnil]

theorem lists_lister {node : Node} (hat : top.at? root = some node) (hproper : node.IsProper) :
    (w.lister root leadsToDir).Lists [] node e ↔ w.Lists top root e := by
  have hplace : ∀ back, node.at? back = top.at? (root ++ back) := fun back =>
    (Node.at?_append_of_eq_some hat back).symm
  have hkeeps : ∀ dir name,
      (w.lister root leadsToDir).keepsFile ([] ++ dir) name = .ok true ↔ w.AdmitsFile (root ++ dir) name := by
    intro dir name
    rw [keepsFile_lister, List.nil_append]
    simp
  constructor
  · intro h
    rcases h.exists_reaches hproper with ⟨dir, name, hreaches, rfl⟩ | ⟨dir, name, bytes, hreaches, hfile, hkept, rfl⟩
    · exact .inl ⟨dir, name, ((reaches_lister hat).mp hreaches).resolve_left (by simp), rfl⟩
    · rw [hplace, ← List.append_assoc] at hfile
      exact .inr ⟨dir, name, bytes, ⟨(reaches_lister hat).mp hreaches, hfile, (hkeeps dir name).mp hkept⟩, rfl⟩
  · rintro (⟨dir, name, hlists, rfl⟩ | ⟨dir, name, bytes, ⟨hdir, hfile, hadmits⟩, rfl⟩)
    · exact Lister.lists_dirEntry_of_reaches ((reaches_lister hat).mpr (.inr hlists))
    · rw [List.append_assoc, ← hplace] at hfile
      exact Lister.lists_fileEntry_of_reaches ((reaches_lister hat).mpr hdir) hfile ((hkeeps dir name).mpr hadmits)

/-! ## What every listing is -/

theorem ListsDir.exists_at? (h : w.ListsDir top root (dir ++ [name])) :
    ∃ entries, top.at? (root ++ dir ++ [name]) = some (.dir entries) :=
  (h.2 dir name (List.prefix_refl _)).1

theorem ListsDir.dropLast (h : w.ListsDir top root (dir ++ [name])) (hne : dir ≠ []) : w.ListsDir top root dir :=
  ⟨hne, fun front last hfront => h.2 front last (hfront.trans (List.prefix_append dir [name]))⟩

/-- An entry is that of a node in a directory below a root. -/
structure StandsIn (top : Node) (root : Place) (e : Entry) (dir : List String) (node : Node) : Prop where
  path : e.path = pathOf (dir ++ [e.name])
  fileNames : ∀ other ∈ dir ++ [e.name], IsFileName other
  there : top.at? (root ++ dir ++ [e.name]) = some node
  kind : node.isDir = (e.kind == .dir)

theorem Lists.exists_standsIn (h : w.Lists top root e) (hproper : top.IsProper) :
    ∃ dir node, StandsIn top root e dir node ∧ (dir = [] ∨ w.ListsDir top root dir) := by
  have hnames : ∀ {dir name node}, top.at? (root ++ dir ++ [name]) = some node →
      ∀ other ∈ dir ++ [name], IsFileName other := by
    intro dir name node hat other hother
    rw [List.append_assoc] at hat
    exact (hproper.of_at? hat).1 other (List.mem_append_right root hother)
  rcases h with ⟨dir, name, hlists, rfl⟩ | ⟨dir, name, bytes, ⟨hdir, hfile, -⟩, rfl⟩
  · obtain ⟨below, hat⟩ := hlists.exists_at?
    refine ⟨dir, .dir below, ⟨rfl, hnames hat, hat, rfl⟩, ?_⟩
    by_cases hnil : dir = []
    · exact .inl hnil
    · exact .inr (hlists.dropLast hnil)
  · exact ⟨dir, .file bytes, ⟨rfl, hnames hfile, hfile, rfl⟩, hdir⟩

namespace StandsIn

variable {a b : Entry} {dir' : List String} {node node' : Node}

theorem parent_eq (h : StandsIn top root e dir node) : e.parent = dir :=
  Lister.parent_of_path h.path fun other hother => (h.fileNames other hother).slash

/-- Two entries with the same path are entries of the same node. -/
theorem eq_of_path_eq (ha : StandsIn top root a dir node) (hb : StandsIn top root b dir' node')
    (hpath : a.path = b.path) : a.name = b.name ∧ node = node' := by
  have hne : ∀ (front : List String) (name : String), front ++ [name] ≠ [] := by simp
  have hnames : dir ++ [a.name] = dir' ++ [b.name] := by
    rw [← steps_pathOf (hne dir a.name) fun other hother => (ha.fileNames other hother).slash, ← ha.path, hpath,
      hb.path, steps_pathOf (hne dir' b.name) fun other hother => (hb.fileNames other hother).slash]
  obtain ⟨hdir, hname⟩ := List.append_inj' hnames rfl
  have hnode : some node = some node' := by
    rw [← ha.there, ← hb.there, List.append_assoc, List.append_assoc, hnames]
  exact ⟨(List.cons.inj hname).1, Option.some.inj hnode⟩

end StandsIn

/-- Whatever holds the entries that are to be listed in their order is a listing. -/
theorem isListing_of_pairwise (hproper : top.IsProper) (hmem : ∀ e, e ∈ listed ↔ w.Lists top root e)
    (horder : listed.Pairwise Entry.Precedes) : w.IsListing top root listed where
  complete := hmem
  once := by
    refine List.pairwise_map.mpr (horder.imp_of_mem fun {a b} ha hb hprecedes hpath => ?_)
    obtain ⟨dir, node, hstands, -⟩ := ((hmem a).mp ha).exists_standsIn hproper
    obtain ⟨dir', node', hstands', -⟩ := ((hmem b).mp hb).exists_standsIn hproper
    obtain ⟨hname, hnode⟩ := hstands.eq_of_path_eq hstands' hpath
    have hparent : a.parent = b.parent := by rw [Entry.parent, hpath, Entry.parent]
    rcases hprecedes with hless | ⟨-, ⟨hdir, hfile⟩ | ⟨-, hless⟩⟩
    · rw [hparent] at hless
      exact List.lt_irrefl _ hless
    · -- a node is not a directory and a file
      have hkind := hstands.kind
      rw [hnode, hstands'.kind, hdir, hfile] at hkind
      cases hkind
    · rw [hname] at hless
      exact String.lt_irrefl _ hless
  closed := by
    rintro before e after rfl hparent
    have he : e ∈ before ++ e :: after := List.mem_append_right before List.mem_cons_self
    obtain ⟨dir, node, hstands, hdir⟩ := ((hmem e).mp he).exists_standsIn hproper
    rw [hstands.parent_eq] at hparent ⊢
    have hlists := hdir.resolve_left hparent
    obtain ⟨front, name, rfl⟩ : ∃ front name, dir = front ++ [name] :=
      ⟨dir.dropLast, dir.getLast hparent, (List.dropLast_append_getLast hparent).symm⟩
    have hholder : w.Lists top root (Lister.dirEntry front name) := .inl ⟨front, name, hlists, rfl⟩
    -- the directory comes before what it holds, so it does not come after
    have hless : (Lister.dirEntry front name).parent < e.parent := by
      have hfront : (Lister.dirEntry front name).parent = front := Lister.parent_of_path rfl fun other hother =>
        (hstands.fileNames other (List.mem_append_left _ hother)).slash
      rw [hfront, hstands.parent_eq]
      simpa using List.append_left_lt (List.nil_lt_cons name [])
    have hprecedes : (Lister.dirEntry front name).Precedes e := .inl hless
    refine ⟨Lister.dirEntry front name, ?_, rfl, rfl⟩
    rcases List.mem_append.mp ((hmem _).mpr hholder) with hbefore | hafter
    · exact hbefore
    · rcases List.mem_cons.mp hafter with heq | hafter
      · rw [heq] at hprecedes
        exact absurd hprecedes hprecedes.asymm
      · have hback := (List.pairwise_cons.mp (List.pairwise_append.mp horder).2.1).1 _ hafter
        exact absurd hback hprecedes.asymm
  ordered := horder.imp fun {a b} hprecedes hparent => by
    rcases hprecedes with hless | ⟨-, hkinds⟩
    · rw [hparent] at hless
      exact absurd hless (List.lt_irrefl _)
    · exact hkinds

/-! ## The listing -/

variable {rulesOf : Place → Except ListingFault (Place → Except ListingFault Bool)}

theorem exists_listingBy (hopens : top.Opens place path root) (hproper : top.IsProper)
    (hnull : '\x00' ∉ path.toList) (hrules : rulesOf root = .ok w.rules) :
    ∃ listed, listingBy rulesOf top place path w.options = .ok listed ∧
      (∀ e, e ∈ listed ↔ w.Lists top root e) ∧ listed.Pairwise Entry.Precedes := by
  obtain ⟨entries, hat⟩ := hopens.isDir
  have hroot : (Node.dir entries).IsProper := (hproper.of_at? hat).2
  have hnull' : path.toList.contains '\x00' = false := by simpa using hnull
  have hlisting : listingBy rulesOf top place path w.options =
      (w.lister root fun found => top.isDirAt [] found.text).listItems []
        ((w.lister root fun found => top.isDirAt [] found.text).itemsOf [] entries) := by
    rw [listingBy, hnull', hopens.resolve_eq]
    simp only [hopens.find_text hproper hat, hrules, dirNames_options]
    rfl
  obtain ⟨listed, hlisted⟩ := Lister.exists_listItems (fun _ _ => ⟨_, keepsDir_lister⟩)
    (fun _ _ => ⟨_, keepsFile_lister⟩) hroot []
  obtain ⟨hmem, horder⟩ := Lister.listItems_spec hroot (by simp) hlisted
  exact ⟨listed, hlisting.trans hlisted, fun e => (hmem e).trans (lists_lister hat hroot), horder⟩

theorem lists_iff_of_sameAs (h : top.SameAs other) : w.Lists top root e ↔ w.Lists other root e := by
  simp only [Lists, ListsDir, ListsFile, h.at?_dir, h.at?_file]

/-- Whatever is ignored, the listing of a directory that a path opens is complete, holds nothing twice, and is in
order. It is the same for every tree that holds the same. -/
theorem listingBy_isListing (hopens : top.Opens place path root) (hproper : top.IsProper)
    (hnull : '\x00' ∉ path.toList) (hrules : rulesOf root = .ok w.rules) :
    ∃ listed, listingBy rulesOf top place path w.options = .ok listed ∧ w.IsListing top root listed ∧
      ∀ (other : Node) (rulesOf' : Place → Except ListingFault (Place → Except ListingFault Bool)),
        other.IsProper → top.SameAs other → rulesOf' root = .ok w.rules →
          listingBy rulesOf' other place path w.options = .ok listed := by
  obtain ⟨listed, hlisted, hmem, horder⟩ := exists_listingBy hopens hproper hnull hrules
  refine ⟨listed, hlisted, isListing_of_pairwise hproper hmem horder, fun other rulesOf' hother hsame hrules' => ?_⟩
  obtain ⟨listed', hlisted', hmem', horder'⟩ := exists_listingBy (hsame.opens hopens) hother hnull hrules'
  -- there is only one list in order with given members
  have heq : listed = listed' := horder.eq_of_mem_iff horder' fun e =>
    (hmem e).trans ((lists_iff_of_sameAs hsame).trans (hmem' e).symm)
  rw [heq]
  exact hlisted'

/-- Logs are left out, and nothing else that has no dot at its front. -/
def withoutLogs : Choice := ⟨false, [], ["*.log"], fun _ => false⟩

def entriesByAge : List (String × Node) :=
  [("b.py", .file [0x62]), ("up", .link "a"), ("a", .dir [("x.log", .file []), ("y.py", .file [0x79])])]

theorem isProper_entriesByAge : (Node.dir entriesByAge).IsProper := by
  have hbelow : (Node.dir [("x.log", .file []), ("y.py", .file [0x79])]).IsProper :=
    .dir (by decide +kernel) (by decide +kernel) (by simp [Node.IsProper.file])
  exact .dir (by decide +kernel) (by decide +kernel)
    (by simp [entriesByAge, Node.IsProper.file, Node.IsProper.link, hbelow])

theorem listingBy_isListing_reversed :
    ∃ listed, listingBy withoutLogs.rulesAt (.dir entriesByAge) [] "/" withoutLogs.options = .ok listed ∧
      withoutLogs.IsListing (.dir entriesByAge) [] listed ∧
      listingBy withoutLogs.rulesAt (.dir entriesByAge.reverse) [] "/" withoutLogs.options = .ok listed ∧
      listed.map Entry.path = ["a", "b.py", "a/y.py"] := by
  have hopens : (Node.dir entriesByAge).Opens [] "/" [] :=
    ⟨by simp, Node.arrive_eq_ok_iff.mp (by decide +kernel), _, rfl⟩
  have hperm : entriesByAge.Perm entriesByAge.reverse := (List.reverse_perm entriesByAge).symm
  have hrules : withoutLogs.rulesAt [] = .ok withoutLogs.rules := rfl
  obtain ⟨listed, hlisted, hlisting, hsame⟩ :=
    listingBy_isListing hopens isProper_entriesByAge (by decide +kernel) hrules
  refine ⟨listed, hlisted, hlisting, ?_, ?_⟩
  · exact hsame _ _ (isProper_entriesByAge.of_perm hperm) (isProper_entriesByAge.sameAs_of_perm hperm) hrules
  · have hpaths : (listingBy withoutLogs.rulesAt (.dir entriesByAge) [] "/" withoutLogs.options).map
        (List.map Entry.path) = .ok ["a", "b.py", "a/y.py"] := by
      decide +kernel
    rw [hlisted] at hpaths
    exact Except.ok.inj hpaths

end Choice

end CodeCensus.Files
