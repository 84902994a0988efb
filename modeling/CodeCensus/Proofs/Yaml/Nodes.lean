import CodeCensus.Proofs.Except
import CodeCensus.Proofs.Yaml.Tokens
import CodeCensus.Yaml.Node

/-! The nodes of a text are put together from its tokens unless one of them refuses or too many open something, and
only where nothing comes after the document. -/

namespace CodeCensus.Yaml

/-- A token that one more level of nesting may start with. -/
def Token.opens : Token → Bool
  | .entry => true
  | .sequenceStart => true
  | .mappingStart => true
  | .flowSequenceStart => true
  | .flowMappingStart => true
  | _ => false

/-- A refusal that tokens account for, where nodes may nest to a depth. -/
def Refusal.ComesOf (depth : Nat) (ts : List Token) (e : Refusal) : Prop :=
  e = .malformed ∨ Token.refused e ∈ ts ∨ e = .deepNesting ∧ depth < ts.countP Token.opens

section

variable {depth : Nat} {ts ts' : List Token} {t : Token} {e : Refusal}

theorem Refusal.ComesOf.of_suffix (h : e.ComesOf depth ts') (hts : ts' <:+ ts) : e.ComesOf depth ts := by
  rcases h with h | h | ⟨h, hdepth⟩
  · exact .inl h
  · exact .inr (.inl (hts.subset h))
  · exact .inr (.inr ⟨h, Nat.lt_of_lt_of_le hdepth hts.sublist.countP_le⟩)

/-- What lies one level deeper lies behind one more token that opens something. -/
theorem Refusal.ComesOf.of_opens (h : e.ComesOf depth ts') (ht : t.opens = true) :
    e.ComesOf (depth + 1) (t :: ts') := by
  rcases h with h | h | ⟨h, hdepth⟩
  · exact .inl h
  · exact .inr (.inl (List.mem_cons_of_mem t h))
  · refine .inr (.inr ⟨h, ?_⟩)
    rw [List.countP_cons_of_pos ht]
    exact Nat.succ_lt_succ hdepth

end

namespace Compose

/-- Steps that take tokens from the front of those there are, and are refused for one of them. -/
abbrev Takes {α : Type} (depth : Nat) (ts : List Token) (m : Compose α) : Prop :=
  Keeps (fun c => c.tokens <:+ ts) (Refusal.ComesOf depth ts) m

section

variable {α β : Type} {depth : Nat} {ts : List Token} {t : Token}

theorem ensures_refuse {due : Refusal → Prop} {before : Composer → Prop} {after : α → Composer → Prop}
    {e : Refusal} (h : due e) : Ensures before due after (refuse e : Compose α) := fun _ _ => h

theorem ensures_malformed {before : Composer → Prop} {after : α → Composer → Prop} :
    Ensures before (Refusal.ComesOf depth ts) after (refuse .malformed : Compose α) := ensures_refuse (.inl rfl)

theorem ensures_peek : Ensures (fun c => c.tokens <:+ ts) (Refusal.ComesOf depth ts)
    (fun t c => c.tokens <:+ ts ∧ c.tokens.head? = some t) peek := by
  rintro ⟨tokens, graph, anchors, handles⟩ hc
  cases tokens with
  | nil => exact .inl rfl
  | cons t rest =>
    cases t with
    | refused e => exact .inr (.inl (hc.subset List.mem_cons_self))
    | _ => exact ⟨hc, rfl⟩

theorem takes_peek : Takes depth ts peek := ensures_peek.imp fun _ _ hc => hc.1

theorem takes_drop : Takes depth ts drop := fun _ hc => (List.drop_suffix 1 _).trans hc

theorem ensures_sees (wanted : List Token) : Ensures (fun c => c.tokens <:+ ts) (Refusal.ComesOf depth ts)
    (fun seen c => c.tokens <:+ ts ∧ (seen = true → ∃ t ∈ wanted, c.tokens.head? = some t))
    (sees wanted) :=
  ensures_peek.bind fun t => .pure fun _ ⟨hc, hhead⟩ =>
    ⟨hc, fun hseen => ⟨t, List.contains_iff_mem.mp hseen, hhead⟩⟩

theorem takes_sees (wanted : List Token) : Takes depth ts (sees wanted) :=
  (ensures_sees wanted).imp fun _ _ hc => hc.1

theorem ensures_dropIf (t : Token) : Ensures (fun c => c.tokens <:+ ts) (Refusal.ComesOf depth ts)
    (fun dropped c => c.tokens <:+ ts ∧ (dropped = true → t :: c.tokens <:+ ts)) (dropIf t) := by
  refine (ensures_sees [t]).bind fun seen => .ite (fun hseen => ?_) fun _ => ?_
  · rintro ⟨tokens, graph, anchors, handles⟩ ⟨hc, hsees⟩
    obtain ⟨t', ht', hhead⟩ := hsees hseen
    obtain rfl := List.mem_singleton.mp ht'
    obtain ⟨rest, rfl⟩ := List.head?_eq_some_iff.mp hhead
    exact ⟨(List.suffix_cons _ _).trans hc, fun _ => hc⟩
  · exact .pure fun _ hc => ⟨hc.1, fun h => absurd h Bool.false_ne_true⟩

theorem takes_dropIf (t : Token) : Takes depth ts (dropIf t) := (ensures_dropIf t).imp fun _ _ hc => hc.1

theorem takes_expect (t : Token) : Takes depth ts (expect t) :=
  (takes_dropIf _).bind fun _ => .ite (fun _ => ensures_malformed) fun _ => Keeps.pure _

/-! ## Properties -/

theorem takes_anchor? : Takes depth ts anchor? := by
  refine takes_peek.bind fun t => ?_
  split
  · exact takes_drop.bind fun _ => Keeps.pure _
  · exact Keeps.pure _

theorem takes_tag? : Takes depth ts tag? := by
  refine takes_peek.bind fun t => ?_
  split
  · exact takes_drop.bind fun _ => Keeps.pure _
  · exact Keeps.pure _

theorem takes_fullTag (tag : Option (Option String × String)) : Takes depth ts (fullTag tag) := by
  unfold fullTag
  split
  · exact Keeps.pure _
  · exact Keeps.pure _
  · refine Ensures.get.bind fun c => ?_
    split
    · exact .pure fun _ hc => hc.2
    · exact ensures_malformed

theorem takes_properties : Takes depth ts properties := by
  refine takes_anchor?.bind fun anchor => ?_
  split
  · exact takes_tag?.bind fun tag => (takes_fullTag tag).bind fun _ => Keeps.pure _
  · exact takes_tag?.bind fun tag => Ensures.either takes_anchor? (Keeps.pure none) fun name =>
      (takes_fullTag tag).bind fun _ => Keeps.pure _

/-- A node is added without looking at the tokens. -/
theorem keeps_add (P : List Token → Prop) (anchor : Option String) (n : Node) :
    Keeps (fun c => P c.tokens) (Refusal.ComesOf depth ts) (add anchor n) := by
  refine Ensures.get.bind fun c => .ite (fun _ => ensures_malformed) fun _ => ?_
  exact fun _ hc => hc.2

theorem takes_add (anchor : Option String) (n : Node) : Takes depth ts (add anchor n) :=
  keeps_add (· <:+ ts) anchor n

theorem takes_complete (id : NodeId) (body : Body) : Takes depth ts (complete id body) := fun _ hc => hc

theorem takes_aliased (name : String) : Takes depth ts (aliased name) := by
  refine Ensures.get.bind fun c => ?_
  split
  · exact .pure fun _ hc => hc.2
  · exact ensures_malformed

/-! ## Nodes -/

theorem opens_of_opening? {block bare : Bool} {opening : Opening} (h : opening? block bare t = some opening) :
    t.opens = true := by
  unfold opening? at h
  split at h
  all_goals first | rfl | cases h

/-- Steps after a token that opens something nest one level deeper. -/
theorem takes_deeper {m : Compose α} (ht : t.opens = true) (hm : ∀ ts', Takes depth ts' m) :
    Ensures (fun c => t :: c.tokens <:+ ts) (Refusal.ComesOf (depth + 1) ts) (fun _ c => c.tokens <:+ ts) m := by
  intro c hc
  have hstep := hm c.tokens c (List.suffix_refl _)
  cases hrun : m c with
  | error e =>
    rw [hrun] at hstep
    exact (hstep.of_opens ht).of_suffix hc
  | ok found =>
    rw [hrun] at hstep
    exact hstep.trans ((List.suffix_cons t _).trans hc)

/-- What a token opens is read after it. -/
theorem takes_behind {m : Compose α} {body : α → Body} {id : NodeId} (ht : t.opens = true)
    (hm : ∀ ts', Takes depth ts' m) :
    Ensures (fun c => c.tokens <:+ ts ∧ c.tokens.head? = some t) (Refusal.ComesOf (depth + 1) ts)
      (fun _ c => c.tokens <:+ ts) (do
        drop
        complete id (body (← m))) := by
  have hdrop : Ensures (fun c => c.tokens <:+ ts ∧ c.tokens.head? = some t)
      (Refusal.ComesOf (depth + 1) ts) (fun _ c => t :: c.tokens <:+ ts) drop := by
    rintro ⟨tokens, graph, anchors, handles⟩ ⟨hc, hhead⟩
    obtain ⟨rest, rfl⟩ := List.head?_eq_some_iff.mp hhead
    exact hc
  exact hdrop.bind fun _ => (takes_deeper ht hm).bind fun a => takes_complete id (body a)

/-- What is read with a given fuel takes tokens; items without an indentation of their own stand behind one token
more that opens something than there are levels. -/
structure TakesWith (fuel : Nat) : Prop where
  node : ∀ depth ts block bare, Takes depth ts (node fuel depth block bare)
  nodeUnless : ∀ depth ts block bare ends, Takes depth ts (nodeUnless fuel depth block bare ends)
  blockItems : ∀ depth ts done, Takes depth ts (blockItems fuel depth done)
  bareItems : ∀ depth ts done, Takes (depth + 1) ts (bareItems fuel depth done)
  blockEntries : ∀ depth ts done, Takes depth ts (blockEntries fuel depth done)
  flowItems : ∀ depth ts done, Takes depth ts (flowItems fuel depth done)
  flowEntries : ∀ depth ts done, Takes depth ts (flowEntries fuel depth done)

section

variable {fuel : Nat} (ih : TakesWith fuel)
include ih

theorem takes_nodeUnless (depth : Nat) (ts : List Token) (block bare : Bool) (ends : List Token) :
    Takes depth ts (nodeUnless (fuel + 1) depth block bare ends) := by
  unfold nodeUnless
  exact (takes_sees _).bind fun seen => .ite (fun _ => takes_add none .nothing) fun _ => ih.node _ _ _ _

theorem takes_blockItems (depth : Nat) (ts : List Token) (done : List NodeId) :
    Takes depth ts (blockItems (fuel + 1) depth done) := by
  unfold blockItems
  refine (takes_dropIf _).bind fun dropped => .ite (fun _ => ?_) fun _ => ?_
  · exact (ih.nodeUnless _ _ _ _ _).bind fun item => ih.blockItems _ _ _
  · exact (takes_expect _).bind fun _ => Keeps.pure _

theorem takes_bareItems (depth : Nat) (ts : List Token) (done : List NodeId) :
    Takes (depth + 1) ts (bareItems (fuel + 1) depth done) := by
  unfold bareItems
  refine (ensures_dropIf _).bind fun dropped => .ite (fun hdropped => ?_) fun _ => ?_
  · refine Ensures.bind ?_ fun item => ih.bareItems depth ts _
    have hopens : Token.entry.opens = true := rfl
    exact (takes_deeper hopens fun ts' => ih.nodeUnless depth ts' _ _ _).weaken fun _ hc => hc.2 hdropped
  · exact .pure fun _ hc => hc.1

theorem takes_blockEntries (depth : Nat) (ts : List Token) (done : List (NodeId × NodeId)) :
    Takes depth ts (blockEntries (fuel + 1) depth done) := by
  unfold blockEntries
  refine (takes_dropIf _).bind fun dropped => .ite (fun _ => ?_) fun _ => ?_
  · refine (ih.nodeUnless _ _ _ _ _).bind fun key => (takes_dropIf _).bind fun valued => ?_
    exact Ensures.either (ih.nodeUnless _ _ _ _ _) (takes_add none .nothing) fun value => ih.blockEntries _ _ _
  · exact (takes_expect _).bind fun _ => Keeps.pure _

theorem takes_flowItems (depth : Nat) (ts : List Token) (done : List NodeId) :
    Takes depth ts (flowItems (fuel + 1) depth done) := by
  unfold flowItems
  refine (takes_dropIf _).bind fun ended => .ite (fun _ => Keeps.pure _) fun _ => ?_
  refine Ensures.guard (takes_expect _) ?_
  refine (takes_dropIf _).bind fun ended => .ite (fun _ => Keeps.pure _) fun _ => ?_
  refine (takes_dropIf _).bind fun keyed => .ite (fun _ => ?_) fun _ => ?_
  · refine (ih.nodeUnless _ _ _ _ _).bind fun key => (takes_dropIf _).bind fun valued => ?_
    refine Ensures.either (ih.nodeUnless _ _ _ _ _) (takes_add none .nothing) fun value => ?_
    exact (takes_add none _).bind fun pair => ih.flowItems _ _ _
  · exact (ih.node _ _ _ _).bind fun item => ih.flowItems _ _ _

theorem takes_flowEntries (depth : Nat) (ts : List Token) (done : List (NodeId × NodeId)) :
    Takes depth ts (flowEntries (fuel + 1) depth done) := by
  unfold flowEntries
  refine (takes_dropIf _).bind fun ended => .ite (fun _ => Keeps.pure _) fun _ => ?_
  refine Ensures.guard (takes_expect _) ?_
  refine (takes_dropIf _).bind fun ended => .ite (fun _ => Keeps.pure _) fun _ => ?_
  refine (takes_dropIf _).bind fun keyed => .ite (fun _ => ?_) fun _ => ?_
  · refine (ih.nodeUnless _ _ _ _ _).bind fun key => (takes_dropIf _).bind fun valued => ?_
    exact Ensures.either (ih.nodeUnless _ _ _ _ _) (takes_add none .nothing) fun value => ih.flowEntries _ _ _
  · exact (ih.node _ _ _ _).bind fun key => (takes_add none .nothing).bind fun value => ih.flowEntries _ _ _

theorem takes_node (depth : Nat) (ts : List Token) (block bare : Bool) :
    Takes depth ts (node (fuel + 1) depth block bare) := by
  unfold node
  refine takes_peek.bind fun t => ?_
  split
  · exact takes_drop.bind fun _ => takes_aliased _
  · refine takes_properties.bind ?_
    rintro ⟨anchor, tag⟩
    refine ensures_peek.bind fun _ => ?_
    dsimp only
    split
    · exact (takes_drop.bind fun _ => takes_add _ _).weaken fun _ hc => hc.1
    · rename_i head _ _ opening _ hopening
      have hopens := opens_of_opening? hopening
      refine (keeps_add (fun tokens => tokens <:+ ts ∧ tokens.head? = some head) anchor _).bind fun id => ?_
      cases depth with
      | zero =>
        rintro c ⟨hc, hhead⟩
        have hmem : head ∈ ts := hc.subset (List.mem_of_mem_head? hhead)
        exact .inr (.inr ⟨rfl, List.countP_pos_iff.mpr ⟨head, hmem, hopens⟩⟩)
      | succ depth =>
        cases opening with
        | flowItems => exact takes_behind hopens fun ts' => ih.flowItems depth ts' []
        | flowEntries => exact takes_behind hopens fun ts' => ih.flowEntries depth ts' []
        | blockItems => exact takes_behind hopens fun ts' => ih.blockItems depth ts' []
        | blockEntries => exact takes_behind hopens fun ts' => ih.blockEntries depth ts' []
        | bareItems =>
          exact ((ih.bareItems depth ts []).weaken fun _ hc => hc.1).bind fun items => takes_complete id _
    · exact Ensures.ite (fun _ => (takes_add _ _).weaken fun _ hc => hc.1) fun _ => ensures_malformed

end

theorem takesWith (fuel : Nat) : TakesWith fuel := by
  induction fuel with
  | zero =>
    constructor
    all_goals
      intros
      simp only [node, nodeUnless, blockItems, bareItems, blockEntries, flowItems, flowEntries]
      exact ensures_malformed
  | succ fuel ih =>
    exact ⟨takes_node ih, takes_nodeUnless ih, takes_blockItems ih, takes_bareItems ih, takes_blockEntries ih,
      takes_flowItems ih, takes_flowEntries ih⟩

/-! ## Documents -/

theorem takes_directives (versioned : Bool) (fuel : Nat) : Takes depth ts (directives versioned fuel) := by
  induction fuel generalizing versioned with
  | zero => exact ensures_malformed
  | succ fuel ih =>
    unfold directives
    refine takes_peek.bind fun t => ?_
    split
    · exact takes_drop.bind fun _ => .ite (fun _ => ensures_malformed) fun _ => ih true
    · rename_i handle start
      refine takes_drop.bind fun _ => Ensures.get.bind fun c => .ite (fun _ => ensures_malformed) fun _ => ?_
      have hset : Ensures (fun c' => c = c' ∧ c'.tokens <:+ ts) (Refusal.ComesOf depth ts)
          (fun _ c => c.tokens <:+ ts)
          (set { c with handles := (handle, start) :: c.handles } : Compose PUnit) := by
        rintro c' ⟨rfl, hc⟩
        exact hc
      exact hset.bind fun _ => ih versioned
    · exact takes_drop.bind fun _ => ih versioned
    · exact Keeps.pure _

theorem takes_seesDirective : Takes depth ts seesDirective := by
  refine takes_peek.bind fun t => ?_
  split
  · exact Keeps.pure _
  · exact Keeps.pure _

theorem takes_documentEnds (fuel : Nat) : Takes depth ts (documentEnds fuel) := by
  induction fuel with
  | zero => exact Keeps.pure _
  | succ fuel ih => exact (takes_dropIf _).bind fun dropped => .ite (fun _ => ih) fun _ => Keeps.pure _

theorem takes_addStandardHandles : Takes depth ts addStandardHandles := fun _ hc => hc

/-- A document is given only where its stream ends after it. -/
theorem ensures_document? (ts : List Token) : Ensures (fun c => c.tokens <:+ ts)
    (Refusal.ComesOf Fault.maxNesting ts) (fun _ _ => Token.streamEnd ∈ ts) document? := by
  have hnode : ∀ fuel, Takes Fault.maxNesting ts (some <$> node fuel Fault.maxNesting true false) :=
    fun fuel => Ensures.map ((takesWith fuel).node _ _ _ _)
  unfold document?
  refine Ensures.get.bind fun c => ?_
  generalize 3 * c.tokens.length + 10 = fuel
  have hend : ∀ found : Option NodeId, Ensures (fun c => c.tokens <:+ ts)
      (Refusal.ComesOf Fault.maxNesting ts) (fun _ _ => Token.streamEnd ∈ ts) (do
        documentEnds fuel
        if ← sees [.streamEnd] then return found
        modify fun c => { c with handles := [] }
        directives false fuel
        refuse .malformed) := by
    intro found
    refine (takes_documentEnds fuel).bind fun _ => (ensures_sees _).bind fun seen => ?_
    refine .ite (fun hseen => .pure fun c ⟨hc, hsees⟩ => ?_) fun _ => ?_
    · obtain ⟨t, ht, hhead⟩ := hsees hseen
      obtain rfl := List.mem_singleton.mp ht
      exact hc.subset (List.mem_of_mem_head? hhead)
    · have hreset : Ensures (fun c => c.tokens <:+ ts ∧ (seen = true → ∃ t ∈ [Token.streamEnd],
          c.tokens.head? = some t)) (Refusal.ComesOf Fault.maxNesting ts) (fun _ c => c.tokens <:+ ts)
          (modify fun c => { c with handles := [] } : Compose PUnit) := fun _ hc => hc.1
      exact hreset.bind fun _ => (takes_directives false fuel).bind fun _ => ensures_malformed
  refine ((takes_sees _).weaken fun _ hc => hc.2).bind fun seen => takes_seesDirective.bind fun directed => ?_
  refine .ite (fun _ => ?_) fun _ => ?_
  · refine (takes_documentEnds fuel).bind fun _ => (takes_sees _).bind fun ended => .ite (fun _ => ?_) fun _ => ?_
    · exact (Keeps.pure none).bind hend
    · refine (takes_directives false fuel).bind fun _ => takes_addStandardHandles.bind fun _ => ?_
      refine (takes_expect _).bind fun _ => (takes_sees _).bind fun seen => takes_seesDirective.bind fun _ => ?_
      exact Ensures.either (Ensures.map (takes_add none .nothing)) (hnode fuel) hend
  · exact takes_addStandardHandles.bind fun _ => (hnode fuel).bind hend

end

end Compose

section

variable {text : List Char} {cut : Option Refusal}

theorem cut_of_document?_eq_ok {found : Option (NodeId × Graph)} (h : document? text cut = .ok found) :
    cut = none := by
  have hdue := isDue_of_mem_tokens text cut
  rw [document?] at h
  generalize tokens text cut = ts at h hdue
  obtain ⟨_, hrun, -⟩ := Except.map_eq_ok h
  exact hdue _ ((Compose.ensures_document? ts).of_run_eq_ok (List.suffix_refl ts) hrun)

theorem due_of_document?_eq_error {e : Refusal} (h : document? text cut = .error e) :
    e.IsDue (.start text cut) ∨ e = .deepNesting ∧ Fault.maxNesting < (tokens text cut).countP Token.opens := by
  have hdue := isDue_of_mem_tokens text cut
  rw [document?] at h
  generalize tokens text cut = ts at h hdue ⊢
  rcases (Compose.ensures_document? ts).of_run_eq_error (List.suffix_refl ts) (Except.map_eq_error h) with
    rfl | hmem | hdeep
  · exact .inl (Refusal.isDue_malformed _)
  · exact .inl (hdue _ hmem)
  · exact .inr hdeep

end

end CodeCensus.Yaml
