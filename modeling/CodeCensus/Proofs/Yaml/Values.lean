import CodeCensus.Proofs.Yaml.Nodes
import CodeCensus.Yaml.Value

/-! The values of nodes. That they cannot be made for another reason than a wrong syntax lies in the nodes that the
text has, whatever has been taken over among their entries by then. -/

namespace CodeCensus.Yaml

/-! ## What hinders values -/

/-- The texts of a node: its own, or for a mapping that of some scalar which a mark in it stands before. -/
def Graph.Holds (g : Graph) (id : NodeId) (codes : List Nat) : Prop :=
  ∃ source, (g.node source).body = .scalar codes ∧ (source = id ∨ (g.node id).entries?.isSome = true)

/-- What keeps the values of nodes from being made other than their syntax: a text that writes no value of its
kind, or a mapping where the kind asks for a text. -/
inductive Graph.Hinders (g : Graph) : Refusal → Prop
  | literal {id : NodeId} {codes : List Nat} {e : Refusal}
    (kind : (g.node id).kind ∈ [Kind.bool, .int, .float, .moment]) (holds : g.Holds id codes)
    (fails : Yaml.literal (g.node id).kind codes = .error e) : Hinders g e
  | moment {id : NodeId} (kind : (g.node id).kind = .moment) (mapping : (g.node id).entries?.isSome = true) :
    Hinders g .notScalar
  | marks {id : NodeId} (kind : (g.node id).kind.empty?.isNone = true)
    (mapping : (g.node id).entries?.isSome = true) : Hinders g .deepNesting

theorem kind_of_literal_eq_error {kind : Kind} {codes : List Nat} {e : Refusal}
    (h : literal kind codes = .error e) : e = .malformed ∨ kind ∈ [Kind.bool, .int, .float, .moment] := by
  cases kind
  case bytes =>
    have hbytes := Except.map_eq_error h
    unfold bytesOf at hbytes
    cases hdecode : Text.Base64.decode (charsOf codes) with
    | ok bytes =>
      rw [hdecode] at hbytes
      cases hbytes
    | error m =>
      rw [hdecode] at hbytes
      exact .inl (Except.error.inj hbytes).symm
  all_goals first
    | exact .inr (by decide)
    | cases h
  all_goals exact .inl rfl

/-! ## Nodes that turn into others -/

/-- A node as it may be once entries have been taken over: a mapping with other entries, or a mark that counts as
a text. -/
structure Node.Turns (n n' : Node) : Prop where
  kind : n'.kind = n.kind ∨ n.kind = .mark ∧ n'.kind = .text
  body : n'.body = n.body ∨ n.entries?.isSome = true ∧ n'.entries?.isSome = true

theorem Node.Turns.refl (n : Node) : n.Turns n := ⟨.inl rfl, .inl rfl⟩

theorem Node.Turns.isSome {n n' : Node} (h : n.Turns n') : n'.entries?.isSome = n.entries?.isSome := by
  rcases h.body with hbody | ⟨hn, hn'⟩
  · rw [Node.entries?, Node.entries?, hbody]
  · rw [hn, hn']

theorem Node.Turns.scalar {n n' : Node} {codes : List Nat} (h : n.Turns n') (hn' : n'.body = .scalar codes) :
    n.body = .scalar codes := by
  rcases h.body with hbody | ⟨-, hmapping⟩
  · exact hbody ▸ hn'
  · rw [Node.entries?, hn'] at hmapping
    cases hmapping

theorem Node.Turns.kind_of_ne_text {n n' : Node} (h : n.Turns n') (hn' : n'.kind ≠ .text) : n'.kind = n.kind :=
  h.kind.resolve_right fun htext => hn' htext.2

theorem Node.Turns.empty? {n n' : Node} (h : n.Turns n') : n'.kind.empty? = n.kind.empty? := by
  rcases h.kind with hkind | ⟨hmark, htext⟩
  · rw [hkind]
  · rw [hmark, htext]
    rfl

theorem Node.Turns.trans {n n' n'' : Node} (h : n.Turns n') (h' : n'.Turns n'') : n.Turns n'' := by
  constructor
  · rcases h.kind with hkind | ⟨hmark, htext⟩
    · rw [← hkind]
      exact h'.kind
    · rcases h'.kind with hkind | ⟨hmark', -⟩
      · exact .inr ⟨hmark, hkind.trans htext⟩
      · rw [htext] at hmark'
        cases hmark'
  · rcases h.body with hbody | ⟨hn, hn'⟩
    · rcases h'.body with hbody' | ⟨hn', hn''⟩
      · exact .inl (hbody'.trans hbody)
      · exact .inr ⟨h.isSome ▸ hn', hn''⟩
    · exact .inr ⟨hn, h'.isSome ▸ hn'⟩

namespace Graph

def Turns (g g' : Graph) : Prop := ∀ id, (g.node id).Turns (g'.node id)

variable {g g' g'' : Graph}

theorem Turns.refl (g : Graph) : g.Turns g := fun _ => .refl _

theorem Turns.trans (h : g.Turns g') (h' : g'.Turns g'') : g.Turns g'' := fun id => (h id).trans (h' id)

theorem turns_modify {id : NodeId} {f : Node → Node} (h : (g.node id).Turns (f (g.node id))) :
    g.Turns ⟨g.nodes.modify id f⟩ := by
  intro other
  rw [node, node, Array.getElem?_modify]
  split
  · rename_i heq
    subst heq
    rw [node] at h
    cases hnode : g.nodes[id]? with
    | none => exact .refl _
    | some n =>
      rw [hnode] at h
      exact h
  · exact .refl _

theorem turns_setBody {id : NodeId} {entries : List (NodeId × NodeId)} (h : (g.node id).entries?.isSome = true) :
    g.Turns (g.setBody id (.mapping entries)) := turns_modify ⟨.inl rfl, .inr ⟨h, rfl⟩⟩

theorem turns_setKind {id : NodeId} (h : g.kind id = .mark) : g.Turns (g.setKind id .text) :=
  turns_modify ⟨.inr ⟨h, rfl⟩, .inl rfl⟩

end Graph

/-! ## Entries taken over -/

namespace Merge

/-- What holds of a graph and whatever it turns into. -/
def Stable (P : Graph → Prop) : Prop := ∀ g g', P g → g.Turns g' → P g'

variable {P : Graph → Prop}

theorem stable_mapping (hP : Stable P) (id : NodeId) :
    Stable fun g => P g ∧ (g.node id).entries?.isSome = true :=
  fun g g' hg h => ⟨hP g g' hg.1 h, ((h id).isSome).trans hg.2⟩

/-- Steps that turn a graph into others, and refuse it for its syntax only. -/
abbrev Turning {α : Type} (P : Graph → Prop) (m : Merge α) : Prop := Keeps P (· = Refusal.malformed) m

theorem ensures_entriesOf (id : NodeId) : Ensures P (· = .malformed)
    (fun _ g => P g ∧ (g.node id).entries?.isSome = true) (entriesOf id) := by
  refine Ensures.get.bind fun g => ?_
  split
  · rename_i entries hentries
    refine .pure ?_
    rintro g' ⟨rfl, hg⟩
    exact ⟨hg, by rw [hentries]; rfl⟩
  · exact .throw rfl

theorem turning_entriesOf (id : NodeId) : Turning P (entriesOf id) := (ensures_entriesOf id).imp fun _ _ hg => hg.1

theorem turning_unmark (hP : Stable P) (entries : List (NodeId × NodeId)) : Turning P (unmark entries) := by
  refine Ensures.modify fun g hg => ?_
  induction entries generalizing g with
  | nil => exact hg
  | cons entry entries ih =>
    refine ih _ ?_
    dsimp only
    split
    · rename_i hmark
      exact hP g _ hg (Graph.turns_setKind (eq_of_beq hmark))
    · exact hg

theorem turning_dropMerge? (hP : Stable P) (id : NodeId) (place : Nat) : Turning P (dropMerge? id place) := by
  refine (ensures_entriesOf id).bind fun entries => Ensures.get.bind fun g => ?_
  refine ((turning_unmark (stable_mapping hP id) _).weaken fun _ hg => hg.2).bind fun _ => ?_
  dsimp only
  split
  · exact .pure fun _ hg => hg.1
  · exact Ensures.bind (.modify fun g hg => hP g _ hg.1 (Graph.turns_setBody hg.2)) fun _ => Keeps.pure _

theorem turning_takeOver (hP : Stable P) (id : NodeId) (taken : List (NodeId × NodeId)) :
    Turning P (takeOver id taken) :=
  (ensures_entriesOf id).bind fun _ => Ensures.modify fun g hg => hP g _ hg.1 (Graph.turns_setBody hg.2)

theorem turning_entriesFrom {flatten : NodeId → Merge Unit} (h : ∀ id, Turning P (flatten id)) (source : NodeId) :
    Turning P (entriesFrom flatten source) := by
  have hflattened : ∀ id, Turning P (do
      let _ ← entriesOf id
      flatten id
      entriesOf id) :=
    fun id => (turning_entriesOf id).bind fun _ => (h id).bind fun _ => turning_entriesOf id
  refine Ensures.get.bind fun g => ?_
  split
  · exact (hflattened source).weaken fun _ hg => hg.2
  · rename_i items _
    exact ((Keeps.mapM fun id _ => hflattened id).weaken fun _ hg => hg.2).bind fun _ => Keeps.pure _
  · exact .throw rfl

theorem turning_flattenFrom (hP : Stable P) (fuel : Nat) (id : NodeId) (place : Nat)
    (taken : List (NodeId × NodeId)) : Turning P (flattenFrom fuel id place taken) := by
  induction fuel generalizing id place taken with
  | zero => exact .throw rfl
  | succ fuel ih =>
    rw [flattenFrom]
    refine (turning_dropMerge? hP id place).bind fun found => ?_
    split
    · exact turning_takeOver hP id taken
    · exact (turning_entriesFrom (fun id => ih id 0 []) _).bind fun more => ih _ _ _

end Merge

/-! ## Values made -/

namespace Build

section

variable {g : Graph}

/-- A refusal while values are made of a graph's nodes. -/
def IsDue (g : Graph) (e : Refusal) : Prop := e = .malformed ∨ g.Hinders e

/-- Steps that make values while the graph turns into others. -/
abbrev Builds {α : Type} (g : Graph) (m : Build α) : Prop := Keeps (fun b => g.Turns b.graph) (IsDue g) m

theorem ensures_nodeAt {due : Refusal → Prop} (id : NodeId) : Ensures (fun b => g.Turns b.graph) due
    (fun n b => g.Turns b.graph ∧ n = b.graph.node id) (nodeAt id) := by
  refine Ensures.get.bind fun b => .pure ?_
  rintro b' ⟨rfl, hb⟩
  exact ⟨hb, rfl⟩

theorem builds_made? (id : NodeId) : Builds g (made? id) := Ensures.get.bind fun _ => .pure fun _ hb => hb.2

theorem builds_keep (id : NodeId) (value : Made) : Builds g (keep id value) := fun _ hb => hb

theorem builds_keepEmpty (id : NodeId) (value : Made) : Builds g (keepEmpty id value) :=
  (builds_keep id value).bind fun _ => fun _ hb => hb

/-- The code points of a node are texts of it; only a mapping can hold itself before its marks. -/
theorem ensures_codesOf (fuel : Nat) (id : NodeId) : Ensures (fun b => g.Turns b.graph)
    (fun e => e = .malformed ∨ e = .deepNesting ∧ (fuel = 0 ∨ (g.node id).entries?.isSome = true))
    (fun codes b => g.Turns b.graph ∧ g.Holds id codes) (codesOf fuel id) := by
  induction fuel generalizing id with
  | zero => exact .throw (.inr ⟨rfl, .inl rfl⟩)
  | succ fuel ih =>
    refine (ensures_nodeAt id).bind fun n => ?_
    refine .assume (p := (g.node id).Turns n) (fun b hb => hb.2 ▸ hb.1 id) fun hturns => ?_
    split
    · rename_i codes hcodes
      exact .pure fun b hb => ⟨hb.1, id, hturns.scalar hcodes, .inl rfl⟩
    · exact .throw (.inl rfl)
    · rename_i entries hentries
      have hmapping : (g.node id).entries?.isSome = true := by
        rw [← hturns.isSome, Node.entries?, hentries]
        rfl
      refine Ensures.get.bind fun b => ?_
      dsimp only
      split
      · rename_i value _
        refine (((ih value).weaken fun _ hb => hb.2.1).allow ?_).imp ?_
        · exact fun e he => he.imp_right fun hdeep => ⟨hdeep.1, .inr hmapping⟩
        · rintro codes b ⟨hb, source, hsource, -⟩
          exact ⟨hb, source, hsource, .inr hmapping⟩
      · exact .throw (.inl rfl)

theorem builds_literalAt (id : NodeId) : Ensures
    (fun b => g.Turns b.graph ∧ (b.graph.node id).kind.empty? = none) (IsDue g) (fun _ b => g.Turns b.graph)
    (literalAt id) := by
  have hnode : Ensures (fun b => g.Turns b.graph ∧ (b.graph.node id).kind.empty? = none) (IsDue g)
      (fun n b => g.Turns b.graph ∧ n.kind.empty? = none ∧ (g.node id).Turns n) (nodeAt id) := by
    refine Ensures.get.bind fun b => .pure ?_
    rintro b' ⟨rfl, hb, hkind⟩
    exact ⟨hb, hkind, hb id⟩
  refine hnode.bind fun n => .assume (fun b hb => hb.2) fun ⟨hempty, hturns⟩ => ?_
  dsimp only
  refine .ite (fun _ => .throw_bind (.inl rfl)) fun _ => Ensures.get.bind fun b => ?_
  have hcodes : Ensures (fun b => g.Turns b.graph) (IsDue g) (fun codes b => g.Turns b.graph ∧ g.Holds id codes)
      (codesOf (b.graph.nodes.size + 1) id) := by
    refine (ensures_codesOf _ id).allow ?_
    rintro e (rfl | ⟨rfl, hdeep⟩)
    · exact .inl rfl
    · have hkind : (g.node id).kind.empty?.isNone = true := by rw [← hturns.empty?, hempty]; rfl
      exact .inr (.marks hkind (hdeep.resolve_left (Nat.succ_ne_zero _)))
  refine (hcodes.weaken fun _ hb => hb.2.1).bind fun codes => .assume (fun _ hb => hb.2) fun hholds => ?_
  refine .ite (fun hmoment => .throw_bind ?_) fun _ => .lift (fun _ _ _ hb => hb.1) fun e he => ?_
  · rw [Bool.and_eq_true, beq_iff_eq] at hmoment
    have hkind := hturns.kind_of_ne_text (by rw [hmoment.1]; decide)
    exact .inr (.moment (hkind.symm.trans hmoment.1) (hturns.isSome ▸ hmoment.2))
  · rcases kind_of_literal_eq_error he with rfl | hmem
    · exact .inl rfl
    · have hkind : n.kind = (g.node id).kind := hturns.kind_of_ne_text fun htext => by
        rw [htext] at hmem
        exact absurd hmem (by decide)
      rw [hkind] at he hmem
      exact .inr (.literal hmem hholds he)

theorem builds_make (id : NodeId) : Builds g (make id) := by
  refine (builds_made? id).bind fun done => .ite (fun _ => Keeps.pure _) fun _ => ?_
  refine (ensures_nodeAt id).bind fun n => ?_
  split
  · exact (builds_keepEmpty id _).weaken fun _ hb => hb.1
  · rename_i hempty
    refine ((builds_literalAt id).weaken fun b hb => ?_).bind fun d => builds_keep id _
    exact ⟨hb.1, hb.2 ▸ hempty⟩

theorem builds_makeKey (id : NodeId) : Builds g (makeKey id) := by
  refine (builds_make id).bind fun _ => (builds_made? id).bind fun done => ?_
  split
  · exact Keeps.pure _
  · exact .throw (.inl rfl)

theorem builds_tableAt (id : NodeId) : Builds g (tableAt id) := by
  refine Ensures.get.bind ?_
  rintro ⟨graph, made, waiting, merges⟩
  refine .assume (p := g.Turns graph) (by rintro b ⟨rfl, hb⟩; exact hb) fun hgraph => ?_
  have hstable : Merge.Stable g.Turns := fun _ _ h h' => h.trans h'
  have hflatten := Merge.turning_flattenFrom hstable (merges + 1) id 0 []
  have hlift : Ensures (fun b => Builder.mk graph made waiting merges = b ∧ g.Turns b.graph) (IsDue g)
      (fun found _ => g.Turns found.2) (liftM ((Merge.flatten merges id).run graph) : Build (Unit × Graph)) :=
    .lift (fun _ hfound _ _ => hflatten.of_run_eq_ok hgraph hfound) fun _ he =>
      .inl (hflatten.of_run_eq_error hgraph he)
  refine hlift.bind ?_
  rintro ⟨-, graph'⟩
  have hset : Ensures (fun _ => g.Turns graph') (IsDue g) (fun _ b => g.Turns b.graph)
      (set (Builder.mk graph' made waiting merges) : Build PUnit) := fun _ hb => hb
  refine hset.bind fun _ => Ensures.bind (Keeps.mapM fun entry _ => ?_) fun _ => Keeps.pure _
  exact (builds_makeKey _).bind fun _ => (builds_make _).bind fun _ => Keeps.pure _

theorem builds_pairsOf (items : List NodeId) : Builds g (pairsOf items) := by
  refine Keeps.mapM fun item _ => (ensures_nodeAt item).bind fun n => ?_
  split
  · exact ((builds_make _).weaken fun _ hb => hb.1).bind fun _ => (builds_make _).bind fun _ => Keeps.pure _
  · exact .throw (.inl rfl)

theorem builds_fill (id : NodeId) : Builds g (fill id) := by
  refine (ensures_nodeAt id).bind fun n => Ensures.weaken ?_ fun _ hb => hb.1
  split
  · exact Ensures.bind (Keeps.forM fun item _ => builds_make item) fun _ => builds_keep id _
  · exact (builds_pairsOf _).bind fun _ => builds_keep id _
  · exact (builds_tableAt id).bind fun _ => builds_keep id _
  · exact (builds_tableAt id).bind fun _ => builds_keep id _
  · exact .throw (.inl rfl)

theorem builds_fillAll (fuel : Nat) : Builds g (fillAll fuel) := by
  induction fuel with
  | zero => exact Keeps.pure _
  | succ fuel ih =>
    refine Ensures.get.bind fun b => .ite (fun _ => .pure fun _ hb => hb.2) fun _ => ?_
    have hreset : Ensures (fun b' => b = b' ∧ g.Turns b'.graph) (IsDue g) (fun _ b => g.Turns b.graph)
        (modify fun b => { b with waiting := [] } : Build PUnit) := fun _ hb => hb.2
    exact hreset.bind fun _ => Ensures.bind (Keeps.forM fun id _ => builds_fill id) fun _ => ih

end

end Build

theorem isDue_of_valueOf {root : NodeId} {g : Graph} {e : Refusal} (h : valueOf root g = .error e) :
    Build.IsDue g e := by
  have hbuilds : Build.Builds g (do Build.make root; Build.fillAll (g.nodes.size + 1)) :=
    (Build.builds_make root).bind fun _ => Build.builds_fillAll _
  rcases Except.bind_eq_error (Except.map_eq_error h) with hrun | ⟨found, -, hdone⟩
  · exact hbuilds.of_run_eq_error (.refl g) hrun
  · cases hdone

section

variable {text : List Char} {cut : Option Refusal}

theorem cut_of_read_eq_ok {d : Data} (h : read text cut = .ok d) : cut = none := by
  obtain ⟨found, hfound, -⟩ := Except.bind_eq_ok h
  exact cut_of_document?_eq_ok hfound

theorem due_of_read_eq_error {e : Refusal} (h : read text cut = .error e) :
    e.IsDue (.start text cut) ∨ (e = .deepNesting ∧ Fault.maxNesting < (tokens text cut).countP Token.opens) ∨
      ∃ root g, document? text cut = .ok (some (root, g)) ∧ g.Hinders e := by
  rcases Except.bind_eq_error h with hdocument | ⟨found, hdocument, hvalue⟩
  · exact (due_of_document?_eq_error hdocument).imp_right .inl
  · cases found with
    | none => cases hvalue
    | some found =>
      rcases isDue_of_valueOf hvalue with rfl | hhinders
      · exact .inl (Refusal.isDue_malformed _)
      · exact .inr (.inr ⟨found.1, found.2, hdocument, hhinders⟩)

end

end CodeCensus.Yaml
