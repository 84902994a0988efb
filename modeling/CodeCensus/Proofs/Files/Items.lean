import CodeCensus.Files.Listing
import CodeCensus.Proofs.Except
import CodeCensus.Proofs.Files.Contents
import Mathlib.Data.List.Lex
import Mathlib.Data.String.Basic

/-! What the listing of a directory holds, and in which order. Whatever a lister decides about each name, its
listing holds what is kept in a directory and, in turn, in the directories that are kept there. The entries come
in the order of the directories they stand in, those of one directory by kind and name. -/

namespace CodeCensus

open Files

/-! ## The order of entries -/

namespace Entry

/-- The names that lead to the directory in which an entry stands. -/
def parent (e : Entry) : List String := (steps e.path).dropLast

/-- An entry comes before those in later directories; in one directory, directories come before files, and each
kind in the order of the names. -/
def Precedes (a b : Entry) : Prop :=
  a.parent < b.parent ∨ a.parent = b.parent ∧
    (a.kind = .dir ∧ b.kind = .file ∨ a.kind = b.kind ∧ a.name < b.name)

theorem Precedes.asymm {a b : Entry} (h : a.Precedes b) : ¬ b.Precedes a := by
  rintro (hparent' | ⟨hparent', hback⟩)
  · rcases h with hparent | ⟨hparent, -⟩
    · exact List.lt_asymm hparent hparent'
    · rw [hparent] at hparent'
      exact List.lt_irrefl _ hparent'
  · rcases h with hparent | ⟨-, hforth⟩
    · rw [hparent'] at hparent
      exact List.lt_irrefl _ hparent
    · rcases hforth with ⟨hdir, hfile⟩ | ⟨hkind, hname⟩
      · rcases hback with ⟨hdir', -⟩ | ⟨hkind', -⟩
        · cases hdir'.symm.trans hfile
        · cases hdir.symm.trans (hkind'.symm.trans hfile)
      · rcases hback with ⟨hdir', hfile'⟩ | ⟨-, hname'⟩
        · cases hdir'.symm.trans (hkind.symm.trans hfile')
        · exact String.lt_asymm hname hname'

instance : Std.Irrefl Precedes where
  irrefl _ h := h.asymm h

instance : Std.Antisymm Precedes where
  antisymm _ _ h h' := absurd h' h.asymm

end Entry

namespace Files

theorem steps_pathOf {names : List String} (hne : names ≠ []) (h : ∀ name ∈ names, '/' ∉ name.toList) :
    steps (pathOf names) = names := steps_intercalate hne h

namespace Lister

variable {l : Lister} {dir names : List String} {name : String} {size : Nat} {e : Entry} {node : Node}
  {entries : List (String × Node)} {items : List (String × Item)} {listed : List Entry}

theorem parent_of_path {front : List String} (h : e.path = pathOf (front ++ [name]))
    (hslash : ∀ other ∈ front ++ [name], '/' ∉ other.toList) : e.parent = front := by
  rw [Entry.parent, h, steps_pathOf (by simp) hslash, List.dropLast_concat]

/-! ## What is kept -/

theorem keepsDir_of_ignores {isIgnored : Bool} (h : l.ignores (l.root ++ dir ++ [name]) = .ok isIgnored) :
    l.keepsDir dir name =
      .ok (!(neverListed.contains name || l.excludedDirs.contains name || l.hides name) && !isIgnored) := by
  rw [keepsDir, h]
  split
  · rename_i hout
    rw [hout]
    rfl
  · rename_i hin
    rw [Bool.eq_false_iff.mpr hin]
    rfl

theorem keepsFile_of_ignores {isIgnored isExcluded : Bool}
    (h : l.ignores (l.root ++ dir ++ [name]) = .ok isIgnored)
    (hexcludes : l.options.excludesFile name = .ok isExcluded) :
    l.keepsFile dir name = .ok (!l.hides name && !isIgnored && !isExcluded) := by
  rw [keepsFile, h, hexcludes]
  cases l.hides name <;> cases isIgnored <;> rfl

/-! ## What a listing holds -/

/-- The entries that a lister lists below a directory to which the names `dir` lead. -/
inductive Lists (l : Lister) : List String → Node → Entry → Prop
  | dir {dir : List String} {name : String} {entries below : List (String × Node)}
    (mem : (name, .dir below) ∈ entries) (keeps : l.keepsDir dir name = .ok true) :
    Lists l dir (.dir entries) (dirEntry dir name)
  | file {dir : List String} {name : String} {entries : List (String × Node)} {bytes : List UInt8}
    (mem : (name, .file bytes) ∈ entries) (keeps : l.keepsFile dir name = .ok true) :
    Lists l dir (.dir entries) (fileEntry dir name bytes.length)
  | deeper {dir : List String} {name : String} {entries below : List (String × Node)} {e : Entry}
    (mem : (name, .dir below) ∈ entries) (keeps : l.keepsDir dir name = .ok true)
    (lists : Lists l (dir ++ [name]) (.dir below) e) : Lists l dir (.dir entries) e

/-- What is listed below a directory stands in it or in a directory below it. -/
theorem Lists.exists_parent_eq (h : l.Lists dir node e) (hproper : node.IsProper)
    (hdir : ∀ name ∈ dir, '/' ∉ name.toList) : ∃ more, e.parent = dir ++ more := by
  induction h with
  | dir mem keeps =>
    cases hproper with
    | dir names distinct nodes =>
      refine ⟨[], (parent_of_path rfl ?_).trans (List.append_nil _).symm⟩
      exact List.forall_mem_append.mpr ⟨hdir, List.forall_mem_singleton.mpr (names _ mem).slash⟩
  | file mem keeps =>
    cases hproper with
    | dir names distinct nodes =>
      refine ⟨[], (parent_of_path rfl ?_).trans (List.append_nil _).symm⟩
      exact List.forall_mem_append.mpr ⟨hdir, List.forall_mem_singleton.mpr (names _ mem).slash⟩
  | @deeper dir name entries below e mem keeps lists ih =>
    cases hproper with
    | dir names distinct nodes =>
      have hname : ∀ other ∈ [name], '/' ∉ other.toList := List.forall_mem_singleton.mpr (names _ mem).slash
      obtain ⟨more, hmore⟩ := ih (nodes _ mem) (List.forall_mem_append.mpr ⟨hdir, hname⟩)
      exact ⟨name :: more, by rw [hmore, List.append_assoc, List.singleton_append]⟩

/-! ## Names in order -/

theorem byName_perm {α : Type} (named : List (String × α)) : (byName named).Perm named :=
  List.mergeSort_perm _ _

theorem byName_pairwise {α : Type} {named : List (String × α)} (h : (named.map Prod.fst).Nodup) :
    (byName named).Pairwise fun a b => a.1 < b.1 :=
  pairwise_mergeSort_lt Prod.fst h

/-! ## The items of a directory -/

theorem itemsOf_eq_map (l : Lister) (dir : List String) (entries : List (String × Node)) :
    l.itemsOf dir entries = entries.map fun entry => (entry.1, l.itemOf (dir ++ [entry.1]) entry.2) := by
  induction entries with
  | nil => rw [itemsOf, List.map_nil]
  | cons entry rest ih =>
    obtain ⟨name, node⟩ := entry
    rw [itemsOf, ih, List.map_cons]

theorem map_fst_itemsOf (l : Lister) (dir : List String) (entries : List (String × Node)) :
    (l.itemsOf dir entries).map Prod.fst = entries.map Prod.fst := by
  rw [itemsOf_eq_map, List.map_map]
  rfl

section

variable {α : Type} {pick : Item → Option α} {keeps : String → Except ListingFault Bool}
  {kept : List (String × α)} {picked : α}

theorem keepItem_eq_some {other : String} {item : Item} :
    keepItem pick keeps (other, item) = .ok (some (name, picked)) ↔
      other = name ∧ pick item = some picked ∧ keeps name = .ok true := by
  rw [keepItem]
  cases pick item with
  | none => simp
  | some found =>
    cases hkeeps : keeps other with
    | error fault =>
      constructor
      · rintro ⟨⟩
      · rintro ⟨rfl, -, hkeeps'⟩
        cases hkeeps.symm.trans hkeeps'
    | ok isKept =>
      cases isKept with
      | false =>
        constructor
        · rintro ⟨⟩
        · rintro ⟨rfl, -, hkeeps'⟩
          cases hkeeps.symm.trans hkeeps'
      | true =>
        constructor
        · rintro ⟨⟩
          exact ⟨rfl, rfl, hkeeps⟩
        · rintro ⟨rfl, hfound, -⟩
          rw [Option.some.inj hfound]
          rfl

theorem mem_keptOf (h : keptOf pick keeps items = .ok kept) :
    (name, picked) ∈ kept ↔ (∃ item, (name, item) ∈ items ∧ pick item = some picked) ∧ keeps name = .ok true := by
  obtain ⟨found, hfound, rfl⟩ := Except.map_eq_ok h
  rw [(byName_perm found).mem_iff, Except.mem_of_filterMapM hfound]
  constructor
  · rintro ⟨⟨other, item⟩, hmem, hitem⟩
    obtain ⟨rfl, hpick, hkeeps⟩ := keepItem_eq_some.mp hitem
    exact ⟨⟨item, hmem, hpick⟩, hkeeps⟩
  · rintro ⟨⟨item, hmem, hpick⟩, hkeeps⟩
    exact ⟨(name, item), hmem, keepItem_eq_some.mpr ⟨rfl, hpick, hkeeps⟩⟩

theorem pairwise_keptOf (h : keptOf pick keeps items = .ok kept) (hnodup : (items.map Prod.fst).Nodup) :
    kept.Pairwise fun a b => a.1 < b.1 := by
  obtain ⟨found, hfound, rfl⟩ := Except.map_eq_ok h
  have hsublist : (found.map Prod.fst).Sublist (items.map Prod.fst) := by
    refine Except.sublist_of_filterMapM (fun item picked hitem => ?_) hfound
    exact (keepItem_eq_some.mp hitem).1.symm
  exact byName_pairwise (hnodup.sublist hsublist)

theorem exists_keptOf (items : List (String × Item)) (hkeeps : ∀ name, ∃ isKept, keeps name = .ok isKept) :
    ∃ kept, keptOf pick keeps items = .ok kept := by
  have hitems : ∀ item ∈ items, ∃ found, keepItem pick keeps item = .ok found := by
    rintro ⟨name, item⟩ -
    obtain ⟨isKept, hkept⟩ := hkeeps name
    rw [keepItem, hkept]
    cases pick item with
    | none => exact ⟨none, rfl⟩
    | some picked => exact ⟨_, rfl⟩
  obtain ⟨found, hfound⟩ := Except.exists_filterMapM_eq_ok hitems
  exact ⟨byName found, by rw [keptOf, hfound]; rfl⟩

end

section

variable {dirs : List (String × (Unit → Except ListingFault (List Entry)))} {files : List (String × Nat)}
  {below : Unit → Except ListingFault (List Entry)}

theorem mem_itemsOf {item : Item} :
    (name, item) ∈ l.itemsOf dir entries ↔
      ∃ node, (name, node) ∈ entries ∧ l.itemOf (dir ++ [name]) node = item := by
  rw [itemsOf_eq_map, List.mem_map]
  constructor
  · rintro ⟨⟨other, node⟩, hmem, hitem⟩
    obtain ⟨rfl, rfl⟩ := Prod.mk.inj hitem
    exact ⟨node, hmem, rfl⟩
  · rintro ⟨node, hmem, rfl⟩
    exact ⟨(name, node), hmem, rfl⟩

theorem below?_itemOf_eq_some_iff :
    (l.itemOf names node).below? = some below ↔
      ∃ deeper, node = .dir deeper ∧ below = fun _ => l.listItems names (l.itemsOf names deeper) := by
  constructor
  · intro h
    cases node with
    | dir deeper =>
      rw [itemOf] at h
      exact ⟨deeper, rfl, (Option.some.inj h).symm⟩
    | file content =>
      rw [itemOf] at h
      cases h
    | link target =>
      rw [itemOf] at h
      split at h
      · cases h
      · cases h
  · rintro ⟨deeper, rfl, rfl⟩
    rw [itemOf]
    rfl

theorem size?_itemOf_eq_some_iff :
    (l.itemOf names node).size? = some (some size) ↔ ∃ bytes, node = .file bytes ∧ size = bytes.length := by
  constructor
  · intro h
    cases node with
    | file content =>
      rw [itemOf] at h
      exact ⟨content, rfl, (Option.some.inj (Option.some.inj h)).symm⟩
    | dir deeper =>
      rw [itemOf] at h
      cases h
    | link target =>
      rw [itemOf] at h
      split at h
      · cases h
      · cases h
  · rintro ⟨bytes, rfl, rfl⟩
    rw [itemOf]
    rfl

theorem mem_dirsOf (h : l.dirsOf dir (l.itemsOf dir entries) = .ok dirs) :
    (name, below) ∈ dirs ↔
      (∃ deeper, (name, .dir deeper) ∈ entries ∧
        below = fun _ => l.listItems (dir ++ [name]) (l.itemsOf (dir ++ [name]) deeper)) ∧
      l.keepsDir dir name = .ok true := by
  rw [mem_keptOf h]
  refine and_congr_left fun _ => ?_
  constructor
  · rintro ⟨item, hitem, hpick⟩
    obtain ⟨node, hmem, rfl⟩ := mem_itemsOf.mp hitem
    obtain ⟨deeper, rfl, rfl⟩ := below?_itemOf_eq_some_iff.mp hpick
    exact ⟨deeper, hmem, rfl⟩
  · rintro ⟨deeper, hmem, rfl⟩
    exact ⟨_, mem_itemsOf.mpr ⟨.dir deeper, hmem, rfl⟩, below?_itemOf_eq_some_iff.mpr ⟨deeper, rfl, rfl⟩⟩

theorem mem_filesOf (h : l.filesOf dir (l.itemsOf dir entries) = .ok files) :
    (name, size) ∈ files ↔
      (∃ bytes, (name, .file bytes) ∈ entries ∧ size = bytes.length) ∧ l.keepsFile dir name = .ok true := by
  obtain ⟨kept, hkept, rfl⟩ := Except.map_eq_ok h
  have hmem : (name, some size) ∈ kept ↔
      (∃ bytes, (name, .file bytes) ∈ entries ∧ size = bytes.length) ∧ l.keepsFile dir name = .ok true := by
    rw [mem_keptOf hkept]
    refine and_congr_left fun _ => ?_
    constructor
    · rintro ⟨item, hitem, hpick⟩
      obtain ⟨node, hnode, rfl⟩ := mem_itemsOf.mp hitem
      obtain ⟨bytes, rfl, rfl⟩ := size?_itemOf_eq_some_iff.mp hpick
      exact ⟨bytes, hnode, rfl⟩
    · rintro ⟨bytes, hnode, rfl⟩
      exact ⟨_, mem_itemsOf.mpr ⟨.file bytes, hnode, rfl⟩, size?_itemOf_eq_some_iff.mpr ⟨bytes, rfl, rfl⟩⟩
  rw [← hmem, List.mem_filterMap]
  constructor
  · rintro ⟨⟨other, size?⟩, hfound, hsize⟩
    obtain ⟨found, rfl, hpair⟩ := Option.map_eq_some_iff.mp hsize
    cases hpair
    exact hfound
  · exact fun hfound => ⟨(name, some size), hfound, rfl⟩

theorem pairwise_filesOf (h : l.filesOf dir items = .ok files) (hnodup : (items.map Prod.fst).Nodup) :
    files.Pairwise fun a b => a.1 < b.1 := by
  obtain ⟨kept, hkept, rfl⟩ := Except.map_eq_ok h
  refine List.pairwise_filterMap.mpr ((pairwise_keptOf hkept hnodup).imp ?_)
  intro a b hlt a' ha' b' hb'
  obtain ⟨size, -, rfl⟩ := Option.map_eq_some_iff.mp ha'
  obtain ⟨size', -, rfl⟩ := Option.map_eq_some_iff.mp hb'
  exact hlt

end

/-! ## The whole listing -/

/-- The parts of a listing: the directories and files of one directory, and the listings below. -/
theorem listItems_eq_ok (h : l.listItems dir (l.itemsOf dir entries) = .ok listed) :
    ∃ dirs files, l.dirsOf dir (l.itemsOf dir entries) = .ok dirs ∧
      l.filesOf dir (l.itemsOf dir entries) = .ok files ∧
      (∀ found ∈ dirs, found.2 () = .ok ((found.2 ()).toOption.getD [])) ∧
      listed = dirs.map (fun found => dirEntry dir found.1) ++
        files.map (fun found => fileEntry dir found.1 found.2) ++
        (dirs.map fun found => (found.2 ()).toOption.getD []).flatten := by
  obtain ⟨dirs, hdirs, h⟩ := Except.bind_eq_ok h
  obtain ⟨files, hfiles, h⟩ := Except.bind_eq_ok h
  obtain ⟨below, hbelow, h⟩ := Except.bind_eq_ok h
  obtain ⟨hmap, hall⟩ := Except.mapM_eq_ok hbelow
  refine ⟨dirs, files, hdirs, hfiles, hall, ?_⟩
  rw [← Except.ok.inj h, hmap]
  rfl

theorem lists_dir_iff :
    l.Lists dir (.dir entries) e ↔
      (∃ name deeper, (name, .dir deeper) ∈ entries ∧ l.keepsDir dir name = .ok true ∧
        (e = dirEntry dir name ∨ l.Lists (dir ++ [name]) (.dir deeper) e)) ∨
      ∃ name bytes, (name, .file bytes) ∈ entries ∧ l.keepsFile dir name = .ok true ∧
        e = fileEntry dir name bytes.length := by
  constructor
  · intro h
    cases h with
    | dir mem keeps => exact .inl ⟨_, _, mem, keeps, .inl rfl⟩
    | file mem keeps => exact .inr ⟨_, _, mem, keeps, rfl⟩
    | deeper mem keeps lists => exact .inl ⟨_, _, mem, keeps, .inr lists⟩
  · rintro (⟨name, deeper, mem, keeps, rfl | lists⟩ | ⟨name, bytes, mem, keeps, rfl⟩)
    · exact .dir mem keeps
    · exact .deeper mem keeps lists
    · exact .file mem keeps

section

variable {dirs : List (String × (Unit → Except ListingFault (List Entry)))} {files : List (String × Nat)}

/-- The blocks of a listing one after another hold what is listed, if each of them holds what is listed below one
of the directories. -/
theorem mem_blocks (hdirs : l.dirsOf dir (l.itemsOf dir entries) = .ok dirs)
    (hfiles : l.filesOf dir (l.itemsOf dir entries) = .ok files)
    {block : String × (Unit → Except ListingFault (List Entry)) → List Entry}
    (hblock : ∀ name deeper, (name, .dir deeper) ∈ entries → l.keepsDir dir name = .ok true → ∀ e,
      e ∈ block (name, fun _ => l.listItems (dir ++ [name]) (l.itemsOf (dir ++ [name]) deeper)) ↔
        l.Lists (dir ++ [name]) (.dir deeper) e) :
    e ∈ dirs.map (fun found => dirEntry dir found.1) ++ files.map (fun found => fileEntry dir found.1 found.2) ++
      (dirs.map block).flatten ↔ l.Lists dir (.dir entries) e := by
  rw [lists_dir_iff, List.mem_append, List.mem_append, List.mem_flatten]
  constructor
  · rintro ((he | he) | ⟨b, hb, he⟩)
    · obtain ⟨⟨name, below⟩, hfound, rfl⟩ := List.mem_map.mp he
      obtain ⟨⟨deeper, hmem, -⟩, hkeeps⟩ := (mem_dirsOf hdirs).mp hfound
      exact .inl ⟨name, deeper, hmem, hkeeps, .inl rfl⟩
    · obtain ⟨⟨name, size⟩, hfound, rfl⟩ := List.mem_map.mp he
      obtain ⟨⟨bytes, hmem, rfl⟩, hkeeps⟩ := (mem_filesOf hfiles).mp hfound
      exact .inr ⟨name, bytes, hmem, hkeeps, rfl⟩
    · obtain ⟨⟨name, below⟩, hfound, rfl⟩ := List.mem_map.mp hb
      obtain ⟨⟨deeper, hmem, rfl⟩, hkeeps⟩ := (mem_dirsOf hdirs).mp hfound
      exact .inl ⟨name, deeper, hmem, hkeeps, .inr ((hblock name deeper hmem hkeeps e).mp he)⟩
  · rintro (⟨name, deeper, hmem, hkeeps, he⟩ | ⟨name, bytes, hmem, hkeeps, rfl⟩)
    · have hfound := (mem_dirsOf hdirs).mpr ⟨⟨deeper, hmem, rfl⟩, hkeeps⟩
      rcases he with rfl | he
      · exact .inl (.inl (List.mem_map_of_mem hfound))
      · exact .inr ⟨_, List.mem_map_of_mem hfound, (hblock name deeper hmem hkeeps e).mpr he⟩
    · have hfound := (mem_filesOf hfiles).mpr ⟨⟨bytes, hmem, rfl⟩, hkeeps⟩
      exact .inl (.inr (List.mem_map_of_mem hfound))

/-- The blocks of a listing one after another are in order, if each of them is and each lists what stands below
one of the directories. -/
theorem pairwise_blocks (hdirs : dirs.Pairwise fun a b => a.1 < b.1) (hfiles : files.Pairwise fun a b => a.1 < b.1)
    (hdirSlash : ∀ found ∈ dirs, ∀ other ∈ dir ++ [found.1], '/' ∉ other.toList)
    (hfileSlash : ∀ found ∈ files, ∀ other ∈ dir ++ [found.1], '/' ∉ other.toList)
    {block : String × (Unit → Except ListingFault (List Entry)) → List Entry}
    (hblock : ∀ found ∈ dirs, (block found).Pairwise Entry.Precedes)
    (hbelow : ∀ found ∈ dirs, ∀ e ∈ block found, ∃ more, e.parent = dir ++ [found.1] ++ more) :
    (dirs.map (fun found => dirEntry dir found.1) ++ files.map (fun found => fileEntry dir found.1 found.2) ++
      (dirs.map block).flatten).Pairwise Entry.Precedes := by
  have hdirParent : ∀ found ∈ dirs, (dirEntry dir found.1).parent = dir := fun found hfound =>
    parent_of_path rfl (hdirSlash found hfound)
  have hfileParent : ∀ found ∈ files, (fileEntry dir found.1 found.2).parent = dir := fun found hfound =>
    parent_of_path rfl (hfileSlash found hfound)
  have hdeeper : ∀ e ∈ (dirs.map block).flatten, dir < e.parent := by
    intro e he
    obtain ⟨b, hb, heb⟩ := List.mem_flatten.mp he
    obtain ⟨found, hfound, rfl⟩ := List.mem_map.mp hb
    obtain ⟨more, hmore⟩ := hbelow found hfound e heb
    rw [hmore, List.append_assoc]
    simpa using List.append_left_lt (List.nil_lt_cons found.1 more)
  refine List.pairwise_append.mpr ⟨List.pairwise_append.mpr ⟨?_, ?_, ?_⟩, ?_, ?_⟩
  · refine List.pairwise_map.mpr (hdirs.imp_of_mem fun {a b} ha hb hlt => ?_)
    exact .inr ⟨(hdirParent a ha).trans (hdirParent b hb).symm, .inr ⟨rfl, hlt⟩⟩
  · refine List.pairwise_map.mpr (hfiles.imp_of_mem fun {a b} ha hb hlt => ?_)
    exact .inr ⟨(hfileParent a ha).trans (hfileParent b hb).symm, .inr ⟨rfl, hlt⟩⟩
  · intro a ha b hb
    obtain ⟨found, hfound, rfl⟩ := List.mem_map.mp ha
    obtain ⟨found', hfound', rfl⟩ := List.mem_map.mp hb
    exact .inr ⟨(hdirParent found hfound).trans (hfileParent found' hfound').symm, .inl ⟨rfl, rfl⟩⟩
  · refine List.pairwise_flatten.mpr ⟨?_, ?_⟩
    · intro b hb
      obtain ⟨found, hfound, rfl⟩ := List.mem_map.mp hb
      exact hblock found hfound
    · refine List.pairwise_map.mpr (hdirs.imp_of_mem fun {a b} ha hb hlt x hx y hy => ?_)
      obtain ⟨more, hmore⟩ := hbelow a ha x hx
      obtain ⟨more', hmore'⟩ := hbelow b hb y hy
      refine .inl ?_
      rw [hmore, hmore', List.append_assoc, List.append_assoc]
      exact List.append_left_lt (List.cons_lt_cons_iff.mpr (.inl hlt))
  · intro a ha b hb
    refine .inl ?_
    have hparent : a.parent = dir := by
      rcases List.mem_append.mp ha with ha | ha
      · obtain ⟨found, hfound, rfl⟩ := List.mem_map.mp ha
        exact hdirParent found hfound
      · obtain ⟨found, hfound, rfl⟩ := List.mem_map.mp ha
        exact hfileParent found hfound
    rw [hparent]
    exact hdeeper b hb

end

/-- A listing holds exactly what the lister lists, and it is in order. -/
theorem listItems_spec (hproper : (Node.dir entries).IsProper) (hdir : ∀ name ∈ dir, '/' ∉ name.toList)
    (h : l.listItems dir (l.itemsOf dir entries) = .ok listed) :
    (∀ e, e ∈ listed ↔ l.Lists dir (.dir entries) e) ∧ listed.Pairwise Entry.Precedes := by
  induction hproper using Node.IsProper.dirInduction generalizing dir listed with
  | @dir entries names distinct nodes ih =>
    obtain ⟨dirs, files, hdirs, hfiles, hblocks, rfl⟩ := listItems_eq_ok h
    have hslash : ∀ {name : String} {node : Node}, (name, node) ∈ entries →
        ∀ other ∈ dir ++ [name], '/' ∉ other.toList := by
      intro name node hmem
      exact List.forall_mem_append.mpr ⟨hdir, List.forall_mem_singleton.mpr (names _ hmem).slash⟩
    have hnodup : ((l.itemsOf dir entries).map Prod.fst).Nodup := by
      rw [map_fst_itemsOf]
      exact distinct
    -- a block lists what stands below one of the directories that are kept
    have hblock : ∀ found ∈ dirs, ∃ deeper, (found.1, .dir deeper) ∈ entries ∧
        (∀ e, e ∈ (found.2 ()).toOption.getD [] ↔ l.Lists (dir ++ [found.1]) (.dir deeper) e) ∧
        ((found.2 ()).toOption.getD []).Pairwise Entry.Precedes := by
      rintro ⟨name, below⟩ hfound
      obtain ⟨⟨deeper, hmem, rfl⟩, -⟩ := (mem_dirsOf hdirs).mp hfound
      exact ⟨deeper, hmem, ih hmem (hslash hmem) (hblocks _ hfound)⟩
    refine ⟨fun e => mem_blocks hdirs hfiles fun name deeper hmem hkeeps e => ?_, ?_⟩
    · have hfound := (mem_dirsOf hdirs).mpr ⟨⟨deeper, hmem, rfl⟩, hkeeps⟩
      exact (ih hmem (hslash hmem) (hblocks _ hfound)).1 e
    · refine pairwise_blocks (pairwise_keptOf hdirs hnodup) (pairwise_filesOf hfiles hnodup) ?_ ?_ ?_ ?_
      · intro found hfound
        obtain ⟨deeper, hmem, -⟩ := hblock found hfound
        exact hslash hmem
      · rintro ⟨name, size⟩ hfound
        obtain ⟨⟨bytes, hmem, -⟩, -⟩ := (mem_filesOf hfiles).mp hfound
        exact hslash hmem
      · intro found hfound
        obtain ⟨deeper, -, -, hpairwise⟩ := hblock found hfound
        exact hpairwise
      · intro found hfound e he
        obtain ⟨deeper, hmem, hlists, -⟩ := hblock found hfound
        exact ((hlists e).mp he).exists_parent_eq (nodes _ hmem) (hslash hmem)

/-! ## Where listed entries stand -/

/-- Below a node names lead to a directory, through directories that are all kept. -/
def Reaches (l : Lister) (dir : List String) (node : Node) (names : List String) : Prop :=
  ∀ front name, front ++ [name] <+: names →
    (∃ entries, node.at? (front ++ [name]) = some (.dir entries)) ∧ l.keepsDir (dir ++ front) name = .ok true

theorem reaches_nil (l : Lister) (dir : List String) (node : Node) : l.Reaches dir node [] := by
  intro front name hfront
  exact absurd (List.prefix_nil.mp hfront) (by simp)

theorem reaches_cons :
    l.Reaches dir node (name :: names) ↔
      ∃ below, node.child? name = some (.dir below) ∧ l.keepsDir dir name = .ok true ∧
        l.Reaches (dir ++ [name]) (.dir below) names := by
  constructor
  · intro h
    obtain ⟨⟨below, hat⟩, hkeeps⟩ := h [] name (List.prefix_append [name] names)
    rw [List.nil_append, Node.at?_cons] at hat
    obtain ⟨child, hchild, hbelow⟩ := Option.bind_eq_some_iff.mp hat
    obtain rfl := Option.some.inj hbelow
    rw [List.append_nil] at hkeeps
    refine ⟨below, hchild, hkeeps, fun front last hfront => ?_⟩
    have hdeeper := h (name :: front) last ((List.prefix_cons_inj name).mpr hfront)
    rw [List.cons_append, Node.at?_cons, hchild] at hdeeper
    rw [List.append_assoc]
    exact hdeeper
  · rintro ⟨below, hchild, hkeeps, h⟩ front last hfront
    cases front with
    | nil =>
      obtain ⟨rfl, -⟩ := List.cons_prefix_cons.mp hfront
      refine ⟨⟨below, ?_⟩, ?_⟩
      · rw [List.nil_append, Node.at?_cons, hchild]
        rfl
      · rw [List.append_nil]
        exact hkeeps
    | cons first front =>
      obtain ⟨rfl, hfront'⟩ := List.cons_prefix_cons.mp hfront
      have hdeeper := h front last hfront'
      rw [List.append_assoc] at hdeeper
      rw [List.cons_append, Node.at?_cons, hchild]
      exact hdeeper

theorem lists_dirEntry_of_reaches {more : List String} (h : l.Reaches dir node (more ++ [name])) :
    l.Lists dir node (dirEntry (dir ++ more) name) := by
  induction more generalizing dir node with
  | nil =>
    obtain ⟨below, hchild, hkeeps, -⟩ := reaches_cons.mp h
    obtain ⟨entries, rfl, hmem⟩ := Node.exists_mem_of_child? hchild
    rw [List.append_nil]
    exact .dir hmem hkeeps
  | cons first more ih =>
    obtain ⟨below, hchild, hkeeps, hdeeper⟩ := reaches_cons.mp h
    obtain ⟨entries, rfl, hmem⟩ := Node.exists_mem_of_child? hchild
    rw [List.append_cons]
    exact .deeper hmem hkeeps (ih hdeeper)

theorem lists_fileEntry_of_reaches {more : List String} {bytes : List UInt8} (h : l.Reaches dir node more)
    (hat : node.at? (more ++ [name]) = some (.file bytes)) (hkeeps : l.keepsFile (dir ++ more) name = .ok true) :
    l.Lists dir node (fileEntry (dir ++ more) name bytes.length) := by
  induction more generalizing dir node with
  | nil =>
    rw [List.nil_append, Node.at?_cons] at hat
    obtain ⟨child, hchild, hfile⟩ := Option.bind_eq_some_iff.mp hat
    obtain rfl := Option.some.inj hfile
    obtain ⟨entries, rfl, hmem⟩ := Node.exists_mem_of_child? hchild
    rw [List.append_nil] at hkeeps ⊢
    exact .file hmem hkeeps
  | cons first more ih =>
    obtain ⟨below, hchild, hkeepsFirst, hdeeper⟩ := reaches_cons.mp h
    obtain ⟨entries, rfl, hmem⟩ := Node.exists_mem_of_child? hchild
    rw [List.cons_append, Node.at?_cons, hchild] at hat
    rw [List.append_cons] at hkeeps ⊢
    exact .deeper hmem hkeepsFirst (ih hdeeper hat hkeeps)

theorem Lists.exists_reaches (h : l.Lists dir node e) (hproper : node.IsProper) :
    (∃ more name, l.Reaches dir node (more ++ [name]) ∧ e = dirEntry (dir ++ more) name) ∨
      ∃ more name bytes, l.Reaches dir node more ∧ node.at? (more ++ [name]) = some (.file bytes) ∧
        l.keepsFile (dir ++ more) name = .ok true ∧ e = fileEntry (dir ++ more) name bytes.length := by
  induction h with
  | @dir dir name entries below mem keeps =>
    have hchild := hproper.child?_eq_some.mpr mem
    refine .inl ⟨[], name, reaches_cons.mpr ⟨below, hchild, keeps, reaches_nil _ _ _⟩, ?_⟩
    rw [List.append_nil]
  | @file dir name entries bytes mem keeps =>
    have hchild := hproper.child?_eq_some.mpr mem
    refine .inr ⟨[], name, bytes, reaches_nil _ _ _, ?_, ?_, ?_⟩
    · rw [List.nil_append, Node.at?_cons, hchild]
      rfl
    · rw [List.append_nil]
      exact keeps
    · rw [List.append_nil]
  | @deeper dir name entries below e mem keeps lists ih =>
    have hchild := hproper.child?_eq_some.mpr mem
    rcases ih (hproper.of_child? hchild).2 with ⟨more, last, hreaches, rfl⟩ |
      ⟨more, last, bytes, hreaches, hat, hkeeps, rfl⟩
    · refine .inl ⟨name :: more, last, reaches_cons.mpr ⟨below, hchild, keeps, hreaches⟩, ?_⟩
      rw [List.append_cons dir name more]
    · refine .inr ⟨name :: more, last, bytes, reaches_cons.mpr ⟨below, hchild, keeps, hreaches⟩, ?_, ?_, ?_⟩
      · rw [List.cons_append, Node.at?_cons, hchild]
        exact hat
      · rw [List.append_cons dir name more]
        exact hkeeps
      · rw [List.append_cons dir name more]

/-- A listing never fails if the lister can decide about every name. -/
theorem exists_listItems (hdirs : ∀ dir name, ∃ isKept, l.keepsDir dir name = .ok isKept)
    (hfiles : ∀ dir name, ∃ isKept, l.keepsFile dir name = .ok isKept) (hproper : (Node.dir entries).IsProper)
    (dir : List String) : ∃ listed, l.listItems dir (l.itemsOf dir entries) = .ok listed := by
  induction hproper using Node.IsProper.dirInduction generalizing dir with
  | @dir entries names distinct nodes ih =>
    obtain ⟨dirs, hdirsOf⟩ : ∃ dirs, l.dirsOf dir (l.itemsOf dir entries) = .ok dirs :=
      exists_keptOf _ (hdirs dir)
    obtain ⟨kept, hkept⟩ :
        ∃ kept, keptOf Item.size? (l.keepsFile dir) (l.itemsOf dir entries) = .ok kept :=
      exists_keptOf _ (hfiles dir)
    have hbelow : ∀ found ∈ dirs, ∃ listed, found.2 () = .ok listed := by
      rintro ⟨name, below⟩ hfound
      obtain ⟨⟨deeper, hmem, rfl⟩, -⟩ := (mem_dirsOf hdirsOf).mp hfound
      exact ih hmem (dir ++ [name])
    obtain ⟨blocks, hblocks⟩ := Except.exists_mapM_eq_ok hbelow
    simp only [listItems, hdirsOf, filesOf, hkept, bind, Except.bind, Except.map, hblocks]
    exact ⟨_, rfl⟩

end Lister

end Files

end CodeCensus
