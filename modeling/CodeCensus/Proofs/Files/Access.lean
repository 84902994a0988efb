import CodeCensus.Files.Checkout
import CodeCensus.Proofs.Files.Following
import CodeCensus.Proofs.Text.Lines
import Mathlib.Data.List.Induction

/-! Access to a place by its own path. A place that steps lead to has no link on the way to it, so the system
finds there what stands there, and never that the links have no end. -/

namespace CodeCensus.Files

open Text

variable {place : Place} {path : String} {names : List String}

/-! ## Steps of a path -/

theorem slash_not_mem_of_mem_steps {name : String} (h : name ∈ steps path) : '/' ∉ name.toList := by
  obtain ⟨field, hfield, rfl⟩ := List.mem_map.mp h
  rw [String.toList_ofList]
  exact not_mem_of_mem_fields hfield

theorem slash_not_mem_of_mem_parts {name : String} (h : name ∈ parts path) : '/' ∉ name.toList := by
  obtain ⟨field, hfield, rfl⟩ := List.mem_map.mp h
  rw [String.toList_ofList]
  exact not_mem_of_mem_fields (List.mem_filter.mp hfield).1

theorem fields_intercalate_names (hne : names ≠ []) (h : ∀ name ∈ names, '/' ∉ name.toList) :
    fields '/' (String.intercalate "/" names).toList = names.map String.toList := by
  have hparts : ∀ part ∈ names.map String.toList, '/' ∉ part := by
    intro part hpart
    obtain ⟨name, hname, rfl⟩ := List.mem_map.mp hpart
    exact h name hname
  have hslash : "/".toList = ['/'] := rfl
  rw [String.toList_intercalate, hslash, fields_intercalate (by simpa using hne) hparts]

theorem steps_intercalate (hne : names ≠ []) (h : ∀ name ∈ names, '/' ∉ name.toList) :
    steps (String.intercalate "/" names) = names := by
  rw [steps, fields_intercalate_names hne h, List.map_map]
  simp

/-- The path of a place begins with a slash, and then come the names. -/
theorem steps_text (h : ∀ name ∈ place, '/' ∉ name.toList) :
    steps place.text = "" :: if place = [] then [""] else place := by
  have hsteps : steps place.text = "" :: steps (String.intercalate "/" place) := by
    have hslash : "/".toList = ['/'] := rfl
    rw [steps, Place.text, String.toList_append, hslash, List.singleton_append, fields_cons_sep]
    rfl
  rw [hsteps]
  split
  · rename_i hnil
    rw [hnil]
    rfl
  · rename_i hne
    rw [steps_intercalate hne h]

theorem slash_not_mem_of_mem_partsFrom {name : String} (hplace : ∀ name ∈ place, '/' ∉ name.toList)
    (h : name ∈ partsFrom place path) : '/' ∉ name.toList := by
  unfold partsFrom at h
  split at h
  · exact slash_not_mem_of_mem_parts h
  · rcases List.mem_append.mp h with hmem | hmem
    · exact hplace name hmem
    · exact slash_not_mem_of_mem_parts hmem

theorem startOf_text (start place : Place) : startOf start place.text = [] := by
  have habsolute : isAbsolute place.text = true := by
    have hslash : "/".toList = ['/'] := rfl
    rw [isAbsolute, Place.text, String.toList_append, hslash]
    rfl
  rw [startOf, habsolute]
  rfl

namespace Node

variable {top : Node} {target : Place}

/-! ## Places without links on the way -/

/-- A place that is reached by names alone: none of them leads back, and none of them is a link. -/
structure IsClear (top : Node) (place : Place) : Prop where
  names : ∀ name ∈ place, isName name = true ∧ '/' ∉ name.toList
  links : ∀ front name, front ++ [name] <+: place → top.linkAt? front name = none

namespace IsClear

theorem slash (h : top.IsClear place) (name : String) (hname : name ∈ place) : '/' ∉ name.toList :=
  (h.names name hname).2

theorem atTop : top.IsClear [] where
  names _ h := absurd h List.not_mem_nil
  links front name h := by
    have hlength := h.length_le
    rw [List.length_append] at hlength
    exact absurd hlength (by simp)

theorem of_isPrefix {front : Place} (h : top.IsClear place) (hfront : front <+: place) : top.IsClear front where
  names name hname := h.names name (hfront.subset hname)
  links front' name hinit := h.links front' name (hinit.trans hfront)

theorem concat {name : String} (h : top.IsClear place) (hname : isName name = true)
    (hslash : '/' ∉ name.toList) (hlink : top.linkAt? place name = none) : top.IsClear (place ++ [name]) where
  names other hother := by
    rcases List.mem_append.mp hother with hplace | hlast
    · exact h.names other hplace
    · obtain rfl := List.mem_singleton.mp hlast
      exact ⟨hname, hslash⟩
  links front last hinit := by
    rcases List.prefix_concat_iff.mp hinit with heq | hplace
    · obtain ⟨rfl, hlast⟩ := List.append_inj' heq rfl
      obtain rfl := (List.cons.inj hlast).1
      exact hlink
    · exact h.links front last hplace

theorem plainStep {name : String} (h : top.IsClear place) (hslash : '/' ∉ name.toList)
    (hlink : top.linkAt? place name = none) : top.IsClear (plainStep place name) := by
  unfold Files.plainStep
  split
  · rename_i hname
    exact h.concat hname hslash hlink
  · split
    · exact h.of_isPrefix (List.dropLast_prefix place)
    · exact h

theorem startOf (h : top.IsClear place) (path : String) : top.IsClear (startOf place path) := by
  unfold Files.startOf
  split
  · exact .atTop
  · exact h

theorem of_leads (h : top.IsClear place) (hslash : ∀ name ∈ names, '/' ∉ name.toList)
    (hleads : Leads top place names target) : top.IsClear target := by
  induction hleads with
  | done place => exact h
  | plain hlink onwards ih =>
    have hnext := h.plainStep (hslash _ List.mem_cons_self) hlink
    exact ih hnext fun name hname => hslash name (List.mem_cons_of_mem _ hname)
  | link hlink along onwards ihalong ihonwards =>
    have hnext := ihalong (h.startOf _) fun name hname => slash_not_mem_of_mem_steps hname
    exact ihonwards hnext fun name hname => hslash name (List.mem_cons_of_mem _ hname)

theorem linkAt?_eq_none {name : String} {rest : List String} (h : top.IsClear (place ++ name :: rest)) :
    top.linkAt? place name = none :=
  h.links place name ⟨rest, (List.append_cons place name rest).symm⟩

theorem plainStep_eq {name : String} {rest : List String} (h : top.IsClear (place ++ name :: rest)) :
    Files.plainStep place name = place ++ [name] := by
  rw [Files.plainStep, (h.names name (List.mem_append_right place List.mem_cons_self)).1]
  rfl

end IsClear

/-! ## Access by names alone -/

theorem linkAt?_of_not_isName {name : String} (h : isName name = false) : top.linkAt? place name = none := by
  rw [linkAt?, h]
  rfl

section

variable {next : Place → List String → Except AccessFault Place}

theorem strictFrom_of_isClear (h : top.IsClear (place ++ names)) :
    top.strictFrom next place names = .ok (place ++ names) ∨
      ∃ fault, top.strictFrom next place names = .error fault ∧ fault ≠ .linkCycle := by
  induction names generalizing place with
  | nil => exact .inl (by rw [strictFrom, List.append_nil])
  | cons name rest ih =>
    rw [strictFrom, h.linkAt?_eq_none, h.plainStep_eq]
    split
    · exact .inr ⟨.missing, rfl, by decide⟩
    · split
      · exact .inr ⟨.nameTooLong, rfl, by decide⟩
      · dsimp only
        split
        · rw [List.append_cons place name rest] at h ⊢
          exact ih h
        · exact .inr ⟨.missing, rfl, by decide⟩
    · exact .inr ⟨.notDirectory, rfl, by decide⟩

theorem strictFrom_of_at? {node : Node} (h : top.IsClear (place ++ names))
    (hsize : ∀ name ∈ names, name.utf8ByteSize ≤ maxNameSize) (hat : top.at? (place ++ names) = some node) :
    top.strictFrom next place names = .ok (place ++ names) := by
  induction names generalizing place with
  | nil => rw [strictFrom, List.append_nil]
  | cons name rest ih =>
    have hlong : ¬ maxNameSize < name.utf8ByteSize := Nat.not_lt.mpr (hsize name List.mem_cons_self)
    obtain ⟨dir, hdir, hbelow⟩ := Option.bind_eq_some_iff.mp ((at?_append top place _).symm.trans hat)
    obtain ⟨child, hchild, -⟩ := Option.bind_eq_some_iff.mp ((at?_cons dir name rest).symm.trans hbelow)
    obtain ⟨entries, rfl, -⟩ := exists_mem_of_child? hchild
    rw [strictFrom, hdir, h.linkAt?_eq_none, h.plainStep_eq]
    dsimp only
    rw [if_neg hlong]
    rw [List.append_cons place name rest] at h hat ⊢
    have hthere : (top.at? (place ++ [name])).isSome = true := by
      obtain ⟨node', hnode', -⟩ := Option.bind_eq_some_iff.mp ((at?_append top _ rest).symm.trans hat)
      exact Option.isSome_of_eq_some hnode'
    rw [if_pos hthere]
    exact ih h (fun other hother => hsize other (List.mem_cons_of_mem name hother)) hat

/-- A slash at the front of a path leaves the steps at the top, if that is a directory. -/
theorem strictFrom_slash {entries : List (String × Node)} (h : top = .dir entries) (names : List String) :
    top.strictFrom next [] ("" :: names) = top.strictFrom next [] names := by
  subst h
  have hlink : (Node.dir entries).linkAt? [] "" = none := linkAt?_of_not_isName rfl
  rw [strictFrom, hlink]
  rfl

end

theorem locate_text (top : Node) (h : ∀ name ∈ place, '/' ∉ name.toList) :
    top.locate [] place.text =
      top.strictFrom (top.strictWithin maxLinks) [] ("" :: if place = [] then [""] else place) := by
  rw [locate, startOf_text, steps_text h]
  rfl

theorem IsClear.locate_text (h : top.IsClear place) :
    top.locate [] place.text = .ok place ∨
      ∃ fault, top.locate [] place.text = .error fault ∧ fault ≠ .linkCycle := by
  rw [Node.locate_text top h.slash]
  cases htop : top with
  | file content => exact .inr ⟨.notDirectory, rfl, by decide⟩
  | link link => exact .inr ⟨.notDirectory, rfl, by decide⟩
  | dir entries =>
    rw [strictFrom_slash rfl]
    split
    · rename_i hnil
      rw [strictFrom_slash rfl, hnil]
      exact .inl rfl
    · rw [← htop]
      exact strictFrom_of_isClear h

theorem find_of_locate {start found : Place} {node : Node} (h : top.locate start path = .ok found)
    (hat : top.at? found = some node) : top.find start path = .ok node := by
  simp only [find, h, bind, Except.bind, hat]

theorem IsClear.find_text (h : top.IsClear place) :
    (∃ node, top.find [] place.text = .ok node ∧ top.at? place = some node) ∨
      ∃ fault, top.find [] place.text = .error fault ∧ fault ≠ .linkCycle := by
  rcases h.locate_text with hlocate | ⟨fault, hlocate, hfault⟩
  · cases hat : top.at? place with
    | none =>
      refine .inr ⟨.missing, ?_, by decide⟩
      simp only [find, hlocate, bind, Except.bind, hat]
    | some node => exact .inl ⟨node, find_of_locate hlocate hat, rfl⟩
  · refine .inr ⟨fault, ?_, hfault⟩
    simp only [find, hlocate, bind, Except.bind]

/-- What stands at a place is found there, if the names on the way are not too long. -/
theorem IsClear.find_text_of_at? {node : Node} {entries : List (String × Node)} (h : top.IsClear place)
    (htop : top = .dir entries) (hsize : ∀ name ∈ place, name.utf8ByteSize ≤ maxNameSize)
    (hat : top.at? place = some node) : top.find [] place.text = .ok node := by
  have hlocate : top.locate [] place.text = .ok place := by
    rw [Node.locate_text top h.slash, strictFrom_slash htop]
    split
    · rename_i hnil
      rw [strictFrom_slash htop, hnil]
      rfl
    · exact strictFrom_of_at? h hsize hat
  exact find_of_locate hlocate hat

theorem leads_append (h : top.IsClear (place ++ names)) : Leads top place names (place ++ names) := by
  induction names generalizing place with
  | nil =>
    rw [List.append_nil]
    exact .done place
  | cons name rest ih =>
    refine .plain h.linkAt?_eq_none ?_
    rw [h.plainStep_eq, List.append_cons place name rest]
    rw [List.append_cons] at h
    exact ih h

/-- The names of a place lead there. -/
theorem IsClear.leads (h : top.IsClear place) : Leads top [] place place := leads_append h

theorem resolve_of_leads (hplace : ∀ name ∈ place, '/' ∉ name.toList)
    (hleads : Leads top [] (partsFrom place path) target) : top.resolve place path = some target := by
  have hreal : top.realPlace place path = target := by
    rw [realPlace, arrive_eq_ok_iff.mpr hleads]
  have hclear : top.IsClear target :=
    IsClear.atTop.of_leads (fun name hname => slash_not_mem_of_mem_partsFrom hplace hname) hleads
  have hfault : top.fault? [] target.text ≠ some .linkCycle := by
    unfold fault?
    rcases hclear.find_text with ⟨node, hfind, -⟩ | ⟨fault, hfind, hfault⟩
    · rw [hfind]
      rintro ⟨⟩
    · rw [hfind]
      exact fun heq => hfault (Option.some.inj heq)
  rw [resolve, hreal]
  simp [hfault]

/-! ## Directories that are opened -/

/-- A path from a place leads to a directory. -/
structure Opens (top : Node) (place : Place) (path : String) (root : Place) : Prop where
  slash : ∀ name ∈ place, '/' ∉ name.toList
  leads : Leads top [] (partsFrom place path) root
  isDir : ∃ entries, top.at? root = some (.dir entries)

namespace Opens

variable {root : Place} (h : top.Opens place path root)

include h

theorem resolve_eq : top.resolve place path = some root := resolve_of_leads h.slash h.leads

theorem isClear : top.IsClear root :=
  IsClear.atTop.of_leads (fun _ hname => slash_not_mem_of_mem_partsFrom h.slash hname) h.leads

theorem topIsDir : ∃ entries, top = .dir entries := by
  obtain ⟨entries, hdir⟩ := h.isDir
  cases root with
  | nil => exact ⟨entries, Option.some.inj hdir⟩
  | cons name rest =>
    rw [at?_cons] at hdir
    obtain ⟨child, hchild, -⟩ := Option.bind_eq_some_iff.mp hdir
    obtain ⟨entries, htop, -⟩ := exists_mem_of_child? hchild
    exact ⟨entries, htop⟩

end Opens

end Node

/-! ## Confinement

What is read through a checkout lies within it, unless a link that leads back to itself stands in the way: the
path behind such a link is taken by its names alone, and the system then follows the links in it after all. -/

open Node

variable {c : Checkout} {root target : Place} {top : Node} {bytes : List UInt8}

namespace Node

theorem read_text_of_isClear (h : top.IsClear target) (hread : top.read [] target.text = .ok bytes) :
    top.at? target = some (.file bytes) := by
  rw [read] at hread
  rcases h.find_text with ⟨node, hfind, hat⟩ | ⟨fault, hfind, -⟩
  · rw [hfind] at hread
    cases node with
    | file content =>
      obtain rfl := Except.ok.inj hread
      exact hat
    | link link => cases hread
    | dir entries => cases hread
  · rw [hfind] at hread
    cases hread

end Node

namespace Checkout

/-- A text is that of a regular file strictly below a place, and a path leads there once all links are followed. -/
def IsTextBelow (c : Checkout) (root : Place) (path text : String) : Prop :=
  ∃ names bytes, names ≠ [] ∧ Leads c.top [] (partsFrom root path) (root ++ names) ∧
    c.top.at? (root ++ names) = some (.file bytes) ∧ text = textOf bytes

theorem source_fetch (c : Checkout) (path : String) :
    c.source.fetch path = (c.read path).mapError (ReadFault.failure path) := rfl

section

variable (h : c.top.Opens c.place c.path root) (hleads : Leads c.top [] (partsFrom root path) target)

include h hleads

theorem isClear_target : c.top.IsClear target :=
  IsClear.atTop.of_leads (fun _ hname => slash_not_mem_of_mem_partsFrom h.isClear.slash hname) hleads

variable (hnull : '\x00' ∉ path.toList)

include hnull

theorem read_of_not_isPrefix (hout : ¬ root <+: target) : c.read path = .error .escapes := by
  have hnull' : path.toList.contains '\x00' = false := by simpa using hnull
  have hinside : root.isPrefixOf target = false :=
    Bool.eq_false_iff.mpr fun hin => hout (List.isPrefixOf_iff_prefix.mp hin)
  rw [Checkout.read, hnull', h.resolve_eq]
  simp only [resolve_of_leads h.isClear.slash hleads, hinside]
  rfl

theorem read_of_isPrefix (hin : root <+: target) :
    c.read path = ((c.top.read [] target.text).map textOf).mapError (.access target) := by
  have hnull' : path.toList.contains '\x00' = false := by simpa using hnull
  have hinside : root.isPrefixOf target = true := List.isPrefixOf_iff_prefix.mpr hin
  rw [Checkout.read, hnull', h.resolve_eq]
  simp only [resolve_of_leads h.isClear.slash hleads, hinside]
  cases c.top.read [] target.text <;> rfl

/-- A path that leads somewhere leads to a file below the root, or it is refused. -/
theorem fetch_of_leads :
    (∃ text, c.IsTextBelow root path text ∧ c.source.fetch path = .ok text) ∨
      ∃ reason, c.source.fetch path = .error (.fetch path reason) := by
  by_cases hin : root <+: target
  · rw [source_fetch, read_of_isPrefix h hleads hnull hin]
    cases hread : c.top.read [] target.text with
    | error fault => exact .inr ⟨fault.message target.text, rfl⟩
    | ok bytes =>
      have hfile := read_text_of_isClear (isClear_target h hleads) hread
      obtain ⟨names, rfl⟩ := hin
      refine .inl ⟨textOf bytes, ⟨names, bytes, ?_, hleads, hfile, rfl⟩, rfl⟩
      rintro rfl
      -- the root itself is a directory
      obtain ⟨entries, hdir⟩ := h.isDir
      rw [List.append_nil, hdir] at hfile
      cases hfile
  · rw [source_fetch, read_of_not_isPrefix h hleads hnull hin]
    exact .inr ⟨"path escapes the repository root", rfl⟩

end

/-- Unless a path runs in a circle, it is read only if it leads to a regular file strictly below the root, and
what is read is the text of that file; else its reading fails with the path and a reason. No path runs in a
circle if no link leads back to itself. -/
theorem fetch_confined (h : c.top.Opens c.place c.path root) (hnull : '\x00' ∉ path.toList) :
    (∀ text, c.source.fetch path = .ok text →
      c.IsTextBelow root path text ∨ c.top.RunsInCircle [] (partsFrom root path)) ∧
    (¬ c.top.RunsInCircle [] (partsFrom root path) →
      (∃ text, c.IsTextBelow root path text ∧ c.source.fetch path = .ok text) ∨
        ∃ reason, c.source.fetch path = .error (.fetch path reason)) ∧
    (c.top.NoLinkCycle → ¬ c.top.RunsInCircle [] (partsFrom root path)) := by
  have hends : ¬ c.top.RunsInCircle [] (partsFrom root path) →
      (∃ text, c.IsTextBelow root path text ∧ c.source.fetch path = .ok text) ∨
        ∃ reason, c.source.fetch path = .error (.fetch path reason) := by
    intro hcircle
    cases harrive : c.top.arrive root path with
    | ok target => exact fetch_of_leads h (arrive_eq_ok_iff.mp harrive) hnull
    | error stuck => exact absurd (runsInCircle_of_arrive_eq_error harrive) hcircle
  refine ⟨fun text htext => ?_, hends, fun hlinks => hlinks.not_runsInCircle _ _⟩
  by_cases hcircle : c.top.RunsInCircle [] (partsFrom root path)
  · exact .inr hcircle
  · rcases hends hcircle with ⟨text', hbelow, htext'⟩ | ⟨reason, hreason⟩
    · obtain rfl := Except.ok.inj (htext'.symm.trans htext)
      exact .inl hbelow
    · cases hreason.symm.trans htext

/-- A directory with a file next to it, a link to the directory around it, and a link to itself. -/
def withLinks : Checkout where
  top := .dir [("secret.txt", .file [0x78]),
    ("repo", .dir [("out", .link ".."), ("loop", .link "loop")])]
  place := []
  path := "repo"

/-- A link that leads out of the repository is followed, and then the path is refused. -/
theorem fetch_confined_linkOut :
    withLinks.top.Opens withLinks.place withLinks.path ["repo"] ∧ '\x00' ∉ "out/secret.txt".toList ∧
      ¬ withLinks.top.RunsInCircle [] (partsFrom ["repo"] "out/secret.txt") ∧
      ∃ reason, withLinks.source.fetch "out/secret.txt" = .error (.fetch "out/secret.txt" reason) := by
  have hroot : withLinks.top.Opens withLinks.place withLinks.path ["repo"] :=
    ⟨by simp [withLinks], arrive_eq_ok_iff.mp (by decide +kernel), _, rfl⟩
  have hnull : '\x00' ∉ "out/secret.txt".toList := by decide +kernel
  have hleads : Leads withLinks.top [] (partsFrom ["repo"] "out/secret.txt")
      ["secret.txt"] := arrive_eq_ok_iff.mp (by decide +kernel)
  refine ⟨hroot, hnull, hleads.not_runsInCircle, ?_⟩
  rcases (fetch_confined hroot hnull).2.1 hleads.not_runsInCircle with ⟨text, hbelow, -⟩ | hrefused
  · obtain ⟨names, bytes, -, hbelow, -⟩ := hbelow
    have htarget : ["secret.txt"] = ["repo"] ++ names := hleads.unique hbelow
    exact absurd (List.cons.inj htarget).1 (by decide +kernel)
  · exact hrefused

/-- Behind a link to itself a link out of the repository is taken for a directory, and a file outside is read. -/
theorem fetch_not_confined_linkToItself :
    withLinks.source.fetch "loop/../out/secret.txt" = .ok "x" ∧
      withLinks.top.locate ["repo"] "out/secret.txt" = .ok ["secret.txt"] ∧
      withLinks.top.at? ["secret.txt"] = some (.file [0x78]) ∧ ¬ ["repo"] <+: ["secret.txt"] ∧
      ∀ text, ¬ withLinks.IsTextBelow ["repo"] "loop/../out/secret.txt" text := by
  have hread : withLinks.read "loop/../out/secret.txt" = .ok (textOf [0x78]) := by decide +kernel
  refine ⟨?_, by decide +kernel, rfl, by decide +kernel, ?_⟩
  · have htext : textOf [0x78] = "x" := by decide +kernel
    rw [source_fetch, hread, htext]
    rfl
  · rintro text ⟨names, bytes, -, hleads, -⟩
    have hstuck : withLinks.top.arrive ["repo"] "loop/../out/secret.txt" =
        .error ["repo", "out", "secret.txt"] := by decide +kernel
    cases hstuck.symm.trans (arrive_eq_ok_iff.mpr hleads)

end Checkout

end CodeCensus.Files
