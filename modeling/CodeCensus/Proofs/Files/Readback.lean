import CodeCensus.Proofs.Files.Access
import CodeCensus.Proofs.Files.Items
import CodeCensus.Proofs.Survey.Outcome

/-! What a checkout lists can be read from it. The names that lead to a listed file are met on the way through the
directories, and none of them is a link, so the path made of them leads to that file again. -/

namespace CodeCensus.Files

open Node Text

variable {top : Node} {place root : Place} {path : String} {names : List String}
  {rulesOf : Place → Except ListingFault (Place → Except ListingFault Bool)} {o : ListingOptions}
  {listed : List Entry} {e : Entry}

/-! ## Paths made of names -/

theorem parts_pathOf (hne : names ≠ []) (h : ∀ name ∈ names, IsFileName name) : parts (pathOf names) = names := by
  have hkept : ∀ field ∈ names.map String.toList, (field != [] && field != ['.']) = true := by
    intro field hfield
    obtain ⟨name, hname, rfl⟩ := List.mem_map.mp hfield
    have hisName := (h name hname).isName
    have hempty : name.toList ≠ [] := by
      intro hnil
      rw [String.toList_eq_nil_iff.mp hnil] at hisName
      cases hisName
    have hdot : name.toList ≠ ['.'] := by
      intro hdot
      have hname : name = "." := String.toList_inj.mp hdot
      rw [hname] at hisName
      cases hisName
    simp [hempty, hdot]
  rw [parts, Path.components, pathOf, fields_intercalate_names hne fun name hname => (h name hname).slash,
    List.filter_eq_self.mpr hkept, List.map_map]
  simp

theorem isAbsolute_pathOf (hne : names ≠ []) (h : ∀ name ∈ names, IsFileName name) :
    isAbsolute (pathOf names) = false := by
  have hfields := fields_intercalate_names hne fun name hname => (h name hname).slash
  rw [isAbsolute]
  refine Bool.eq_false_iff.mpr fun hslash => ?_
  obtain ⟨rest, hrest⟩ : ∃ rest, (pathOf names).toList = '/' :: rest :=
    List.head?_eq_some_iff.mp (beq_iff_eq.mp hslash)
  rw [← pathOf, hrest, fields_cons_sep] at hfields
  -- the first name would be empty
  have hmem : [] ∈ names.map String.toList := hfields ▸ List.mem_cons_self
  obtain ⟨name, hname, hnil⟩ := List.mem_map.mp hmem
  have hisName := (h name hname).isName
  rw [String.toList_eq_nil_iff.mp hnil] at hisName
  cases hisName

theorem partsFrom_pathOf (hne : names ≠ []) (h : ∀ name ∈ names, IsFileName name) (root : Place) :
    partsFrom root (pathOf names) = root ++ names := by
  rw [partsFrom, isAbsolute_pathOf hne h, parts_pathOf hne h]
  rfl

theorem null_not_mem_pathOf (h : ∀ name ∈ names, IsFileName name) : '\x00' ∉ (pathOf names).toList := by
  intro hmem
  rw [pathOf, String.toList_intercalate] at hmem
  have hslash : "/".toList = ['/'] := rfl
  rw [hslash] at hmem
  obtain ⟨part, hpart, hnull⟩ := (mem_of_mem_intercalate hmem).resolve_left (by decide)
  obtain ⟨name, hname, rfl⟩ := List.mem_map.mp hpart
  exact (h name hname).null hnull

/-! ## Files that are listed -/

/-- A file that is listed stands in the tree, whatever is left out. -/
theorem exists_file_of_listingBy (hopens : top.Opens place path root) (hproper : top.IsProper)
    (hlisted : listingBy rulesOf top place path o = .ok listed) (he : e ∈ listed) (hkind : e.kind = .file) :
    ∃ dir name bytes, e = Lister.fileEntry dir name bytes.length ∧
      top.at? (root ++ (dir ++ [name])) = some (.file bytes) := by
  obtain ⟨entries, hat⟩ := hopens.isDir
  have hroot : (Node.dir entries).IsProper := (hproper.of_at? hat).2
  obtain ⟨l, hlister⟩ : ∃ l : Lister, l.listItems [] (l.itemsOf [] entries) = .ok listed := by
    rw [listingBy] at hlisted
    split at hlisted
    · cases hlisted
    · rw [hopens.resolve_eq] at hlisted
      simp only [hopens.find_text hproper hat] at hlisted
      obtain ⟨ignores, -, hlisted⟩ := Except.bind_eq_ok hlisted
      obtain ⟨dirs, -, hlisted⟩ := Except.bind_eq_ok hlisted
      exact ⟨_, hlisted⟩
  have hlists := ((Lister.listItems_spec hroot (by simp) hlister).1 e).mp he
  rcases hlists.exists_reaches hroot with ⟨dir, name, -, rfl⟩ | ⟨dir, name, bytes, -, hfile, -, rfl⟩
  · cases hkind
  · rw [List.nil_append]
    exact ⟨dir, name, bytes, rfl, (Node.at?_append_of_eq_some hat _).trans hfile⟩

namespace Checkout

variable {c : Checkout} {bytes : List UInt8}

/-- A file below the root is read by the names that lead to it. -/
theorem fetch_pathOf (hopens : c.top.Opens c.place c.path root) (hproper : c.top.IsProper) (hne : names ≠ [])
    (hat : c.top.at? (root ++ names) = some (.file bytes)) :
    c.source.fetch (pathOf names) = .ok (textOf bytes) := by
  have hclear : c.top.IsClear (root ++ names) := hproper.isClear_of_at? hat rfl
  have hfileNames := (hproper.of_at? hat).1
  have hnames : ∀ name ∈ names, IsFileName name := fun name hname =>
    hfileNames name (List.mem_append_right root hname)
  have hleads : Leads c.top [] (partsFrom root (pathOf names)) (root ++ names) := by
    rw [partsFrom_pathOf hne hnames]
    exact hclear.leads
  obtain ⟨entries, htop⟩ := hopens.topIsDir
  have hfind := hclear.find_text_of_at? htop (fun name hname => (hfileNames name hname).size) hat
  have hread : c.top.read [] (Place.text (root ++ names)) = .ok bytes := by
    rw [Node.read, hfind]
    rfl
  rw [source_fetch, read_of_isPrefix hopens hleads (null_not_mem_pathOf hnames) (List.prefix_append root names),
    hread]
  rfl

/-- Every file that is listed is read, and it is the same file. So no survey of a checkout reports a file that
could not be fetched, in whatever order files are fetched. -/
theorem fetch_of_listed (hopens : c.top.Opens c.place c.path root) (hproper : c.top.IsProper) {entries : List Entry}
    (hlist : c.list = .ok entries) :
    (∀ e ∈ entries, e.kind = .file → ∃ dir name bytes, e = Lister.fileEntry dir name bytes.length ∧
      c.top.at? (root ++ (dir ++ [name])) = some (.file bytes) ∧ c.source.fetch e.path = .ok (textOf bytes)) ∧
    (∀ (r : Registry) (s : Settings) (repo : String) (survey : Survey),
      Survey.Completes r s repo (Survey.jobsOf c.source entries) survey →
        ∀ path error, .fetchFailed path error ∉ survey.events) ∧
    ∀ (r : Registry) (s : Settings) (repo : String),
      Survey.Completes r s repo (Survey.jobsOf c.source entries) (Survey.run r s repo c.source) := by
  have hfetched : ∀ e ∈ entries, e.kind = .file → ∃ dir name bytes, e = Lister.fileEntry dir name bytes.length ∧
      c.top.at? (root ++ (dir ++ [name])) = some (.file bytes) ∧ c.source.fetch e.path = .ok (textOf bytes) := by
    intro e he hkind
    obtain ⟨dir, name, bytes, rfl, hat⟩ := exists_file_of_listingBy hopens hproper hlist he hkind
    exact ⟨dir, name, bytes, rfl, hat, fetch_pathOf hopens hproper (by simp) hat⟩
  refine ⟨hfetched, fun r s repo survey hsurvey path error hevent => ?_, fun r s repo => ?_⟩
  · obtain ⟨job, hjob, failure, hanswer⟩ := hsurvey.answer_of_fetchFailed hevent
    obtain ⟨hmem, hselected⟩ := List.mem_filter.mp hjob
    obtain ⟨e, he, rfl⟩ := List.mem_map.mp hmem
    have hkind : e.kind = .file := by
      simp only [Entry.isSelected, Bool.and_eq_true, beq_iff_eq] at hselected
      exact hselected.1.1.1
    obtain ⟨dir, name, bytes, -, -, hfetch⟩ := hfetched e he hkind
    cases hfetch.symm.trans hanswer
  · have hsource : c.source.list = .ok ((Survey.jobsOf c.source entries).map Survey.Job.entry) := by
      rw [Survey.entries_jobsOf, source, hlist]
      rfl
    exact Survey.completes_run repo c.source hsource fun job hjob => Survey.answer_of_mem_jobsOf hjob

/-- A directory that a link leads to, with odd names and a link back to the top. -/
def throughLink : Checkout where
  top := .dir [("here", .link "repo"),
    ("repo", .dir [("a\\b", .dir [("c..py", .file [0x78])]), ("up", .link "..")])]
  place := []
  path := "here"

theorem isProper_throughLink : throughLink.top.IsProper := by
  have hbelow : (Node.dir [("c..py", .file [0x78])]).IsProper :=
    .dir (by decide +kernel) (by decide +kernel) (by simp [Node.IsProper.file])
  have hrepo : (Node.dir [("a\\b", .dir [("c..py", .file [0x78])]), ("up", .link "..")]).IsProper :=
    .dir (by decide +kernel) (by decide +kernel) (by simp [hbelow, Node.IsProper.link])
  exact .dir (by decide +kernel) (by decide +kernel) (by simp [hrepo, Node.IsProper.link])

theorem fetch_of_listed_throughLink :
    ∃ entries, throughLink.list = .ok entries ∧ entries.map Entry.path = ["a\\b", "a\\b/c..py"] ∧
      (∀ e ∈ entries, e.kind = .file → ∃ bytes, throughLink.source.fetch e.path = .ok (textOf bytes)) ∧
      ∀ path error, .fetchFailed path error ∉ (Survey.run .standard {} "here" throughLink.source).events := by
  have hopens : throughLink.top.Opens throughLink.place throughLink.path ["repo"] :=
    ⟨by simp [throughLink], arrive_eq_ok_iff.mp (by decide +kernel), _, rfl⟩
  have hpaths : throughLink.list.map (List.map Entry.path) = .ok ["a\\b", "a\\b/c..py"] := by decide +kernel
  obtain ⟨entries, hlist, hentries⟩ := Except.map_eq_ok hpaths
  obtain ⟨hfetched, hreported, hrun⟩ := fetch_of_listed hopens isProper_throughLink hlist
  refine ⟨entries, hlist, hentries, fun e he hkind => ?_, hreported _ _ _ _ (hrun .standard {} "here")⟩
  obtain ⟨dir, name, bytes, -, -, hfetch⟩ := hfetched e he hkind
  exact ⟨bytes, hfetch⟩

end Checkout

end CodeCensus.Files
