import CodeCensus.Proofs.Files.Access

/-! Trees as they can be stored, and trees that hold the same. In such a tree no two entries of a directory have
the same name, so an entry is what is found under its name. Trees that hold the same at every place differ only in
the order of their entries, and paths lead alike through them. -/

namespace CodeCensus.Files

structure IsFileName (name : String) : Prop where
  isName : isName name = true
  slash : '/' ∉ name.toList
  null : '\x00' ∉ name.toList
  size : name.utf8ByteSize ≤ Node.maxNameSize

instance (name : String) : Decidable (IsFileName name) :=
  decidable_of_iff (Files.isName name = true ∧ '/' ∉ name.toList ∧ '\x00' ∉ name.toList ∧
    name.utf8ByteSize ≤ Node.maxNameSize) ⟨fun ⟨h, hslash, hnull, hsize⟩ => ⟨h, hslash, hnull, hsize⟩,
      fun ⟨h, hslash, hnull, hsize⟩ => ⟨h, hslash, hnull, hsize⟩⟩

namespace Node

/-- The names in each directory are names of files, and no two of them are the same. -/
inductive IsProper : Node → Prop
  | file (content : List UInt8) : IsProper (.file content)
  | link (target : String) : IsProper (.link target)
  | dir {entries : List (String × Node)} (names : ∀ entry ∈ entries, IsFileName entry.1)
    (distinct : (entries.map Prod.fst).Nodup) (nodes : ∀ entry ∈ entries, IsProper entry.2) :
    IsProper (.dir entries)

variable {top other node : Node} {place root target : Place} {name path : String} {names : List String}
  {entries entries' : List (String × Node)} {content : List UInt8} {link : String}

/-- Induction on the directories within a proper one. -/
@[elab_as_elim]
theorem IsProper.dirInduction {motive : ∀ entries, (Node.dir entries).IsProper → Prop}
    (dir : ∀ {entries} (names : ∀ entry ∈ entries, IsFileName entry.1) (distinct : (entries.map Prod.fst).Nodup)
      (nodes : ∀ entry ∈ entries, entry.2.IsProper),
      (∀ {name deeper} (mem : (name, Node.dir deeper) ∈ entries), motive deeper (nodes _ mem)) →
        motive entries (.dir names distinct nodes))
    {entries : List (String × Node)} (h : (Node.dir entries).IsProper) : motive entries h := by
  have hall (node : Node) (h : node.IsProper) : ∀ entries (hnode : node = .dir entries), motive entries (hnode ▸ h) := by
    induction h with
    | file content => exact nofun
    | link target => exact nofun
    | dir names distinct nodes ih =>
      rintro _ ⟨⟩
      exact dir names distinct nodes fun mem => ih _ mem _ rfl
  exact hall _ h _ rfl

theorem IsProper.child?_eq_some (h : (Node.dir entries).IsProper) :
    (Node.dir entries).child? name = some node ↔ (name, node) ∈ entries := by
  cases h with
  | dir names distinct nodes => exact ⟨mem_of_lookup_eq_some, lookup_eq_some_of_mem distinct⟩

theorem IsProper.of_perm (h : (Node.dir entries).IsProper) (hperm : entries.Perm entries') :
    (Node.dir entries').IsProper := by
  cases h with
  | dir names distinct nodes =>
    exact .dir (fun entry hentry => names entry (hperm.mem_iff.mpr hentry))
      ((hperm.map Prod.fst).nodup_iff.mp distinct) fun entry hentry => nodes entry (hperm.mem_iff.mpr hentry)

theorem IsProper.of_child? (h : top.IsProper) (hchild : top.child? name = some node) :
    IsFileName name ∧ node.IsProper := by
  obtain ⟨entries, rfl, hmem⟩ := exists_mem_of_child? hchild
  cases h with
  | dir names distinct nodes => exact ⟨names _ hmem, nodes _ hmem⟩

theorem IsProper.of_at? (h : top.IsProper) (hat : top.at? place = some node) :
    (∀ name ∈ place, IsFileName name) ∧ node.IsProper := by
  induction place generalizing top with
  | nil =>
    obtain rfl := Option.some.inj hat
    exact ⟨fun name hname => absurd hname List.not_mem_nil, h⟩
  | cons first rest ih =>
    rw [at?_cons] at hat
    obtain ⟨child, hchild, hbelow⟩ := Option.bind_eq_some_iff.mp hat
    obtain ⟨hfirst, hproper⟩ := h.of_child? hchild
    obtain ⟨hrest, hnode⟩ := ih hproper hbelow
    exact ⟨List.forall_mem_cons.mpr ⟨hfirst, hrest⟩, hnode⟩

/-- On the way to what is no link itself there is no link. -/
theorem IsProper.isClear_of_at? (h : top.IsProper) (hat : top.at? place = some node)
    (hlink : node.isLink = false) : top.IsClear place where
  names name hname := ⟨((h.of_at? hat).1 name hname).isName, ((h.of_at? hat).1 name hname).slash⟩
  links front name hfront := by
    obtain ⟨back, rfl⟩ := hfront
    refine Option.eq_none_iff_forall_ne_some.mpr fun link hsome => ?_
    rw [at?_append_of_eq_some (linkAt?_eq_some.mp hsome).2] at hat
    cases back with
    | nil =>
      obtain rfl := Option.some.inj hat
      cases hlink
    | cons next rest => cases hat

/-- What a path opens is found there by its place. -/
theorem Opens.find_text (h : top.Opens place path root) (hproper : top.IsProper)
    (hat : top.at? root = some (.dir entries)) : top.find [] root.text = .ok (.dir entries) := by
  obtain ⟨topEntries, htop⟩ := h.topIsDir
  exact h.isClear.find_text_of_at? htop (fun name hname => ((hproper.of_at? hat).1 name hname).size) hat

/-! ## Trees that hold the same -/

/-- What stands at a place, but for what a directory holds. -/
inductive Shape where
  | file (content : List UInt8)
  | link (target : String)
  | dir

def shape : Node → Shape
  | .file content => .file content
  | .link target => .link target
  | .dir _ => .dir

/-- The same stands at every place of two trees. -/
def SameAs (top other : Node) : Prop := ∀ place, (top.at? place).map shape = (other.at? place).map shape

theorem shape_eq_file : node.shape = .file content ↔ node = .file content := by
  cases node <;> simp [shape]

theorem shape_eq_link : node.shape = .link link ↔ node = .link link := by
  cases node <;> simp [shape]

theorem shape_eq_dir : node.shape = .dir ↔ ∃ entries, node = .dir entries := by
  cases node <;> simp [shape]

theorem IsProper.sameAs_of_perm (h : (Node.dir entries).IsProper) (hperm : entries.Perm entries') :
    (Node.dir entries).SameAs (.dir entries') := by
  have hchild : ∀ name, (Node.dir entries).child? name = (Node.dir entries').child? name := fun name =>
    Option.ext fun child => by rw [h.child?_eq_some, (h.of_perm hperm).child?_eq_some, hperm.mem_iff]
  intro place
  cases place with
  | nil => rfl
  | cons name rest => rw [at?_cons, at?_cons, hchild]

namespace SameAs

variable (h : top.SameAs other)

include h

theorem at?_file : top.at? place = some (.file content) ↔ other.at? place = some (.file content) := by
  have hfile : ∀ found : Option Node, found = some (.file content) ↔ found.map shape = some (.file content) := by
    intro found
    simp [Option.map_eq_some_iff, shape_eq_file]
  rw [hfile, hfile, h place]

theorem at?_link : top.at? place = some (.link link) ↔ other.at? place = some (.link link) := by
  have hlink : ∀ found : Option Node, found = some (.link link) ↔ found.map shape = some (.link link) := by
    intro found
    simp [Option.map_eq_some_iff, shape_eq_link]
  rw [hlink, hlink, h place]

theorem at?_dir :
    (∃ entries, top.at? place = some (.dir entries)) ↔ ∃ entries, other.at? place = some (.dir entries) := by
  have hdir : ∀ found : Option Node, (∃ entries, found = some (.dir entries)) ↔ found.map shape = some .dir := by
    intro found
    simp only [Option.map_eq_some_iff, shape_eq_dir]
    constructor
    · rintro ⟨entries, rfl⟩
      exact ⟨_, rfl, entries, rfl⟩
    · rintro ⟨_, rfl, entries, rfl⟩
      exact ⟨entries, rfl⟩
  rw [hdir, hdir, h place]

theorem linkAt?_eq (place : Place) (name : String) : top.linkAt? place name = other.linkAt? place name :=
  Option.ext fun link => by rw [linkAt?_eq_some, linkAt?_eq_some, h.at?_link]

theorem leads (hleads : Leads top place names target) : Leads other place names target := by
  induction hleads with
  | done place => exact .done place
  | plain hlink onwards ih => exact .plain ((h.linkAt?_eq _ _).symm.trans hlink) ih
  | link hlink along onwards ihalong ihonwards =>
    exact .link ((h.linkAt?_eq _ _).symm.trans hlink) ihalong ihonwards

theorem opens (hopens : top.Opens place path root) : other.Opens place path root where
  slash := hopens.slash
  leads := h.leads hopens.leads
  isDir := h.at?_dir.mp hopens.isDir

end SameAs

end Node

end CodeCensus.Files
