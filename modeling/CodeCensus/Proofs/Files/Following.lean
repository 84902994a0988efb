import CodeCensus.Files.Tree
import CodeCensus.Proofs.Lookup
import Mathlib.Data.List.Perm.Subperm
import Mathlib.Logic.Relation

/-! How a path is followed through links. Where a path leads is said by a relation that goes step by step, and
follows every link it comes upon. Following a path by the relation ends exactly if no link on the way leads
back to itself, and there it agrees with the function that follows the path. -/

namespace CodeCensus.Files.Node

variable {top : Node} {place target : Place} {name link : String} {names rest : List String}

/-! ## Places in a tree -/

theorem at?_append (top : Node) (front back : Place) :
    top.at? (front ++ back) = (top.at? front).bind fun node => node.at? back := by
  rw [at?, List.foldlM_append]
  rfl

theorem at?_append_of_eq_some {node : Node} (h : top.at? place = some node) (back : Place) :
    top.at? (place ++ back) = node.at? back := by
  rw [at?_append, h]
  rfl

theorem at?_cons (node : Node) (name : String) (place : Place) :
    node.at? (name :: place) = (node.child? name).bind fun child => child.at? place := by
  rw [at?, List.foldlM_cons]
  rfl

theorem exists_mem_of_child? {child : Node} (h : top.child? name = some child) :
    ∃ entries, top = .dir entries ∧ (name, child) ∈ entries := by
  cases top with
  | file content => cases h
  | link target => cases h
  | dir entries => exact ⟨entries, rfl, mem_of_lookup_eq_some h⟩

theorem linkAt?_eq_some :
    top.linkAt? place name = some link ↔
      isName name = true ∧ top.at? (place ++ [name]) = some (.link link) := by
  unfold linkAt?
  split
  · rename_i hname
    split
    · rename_i target hat
      simp [hname, hat]
    · rename_i hno
      simp only [hname, true_and, reduceCtorEq, false_iff]
      exact fun hat => hno link hat
  · rename_i hname
    simp [hname]

mutual

theorem mem_linkPlaces (node : Node) (place : Place) (link : String)
    (h : node.at? place = some (.link link)) : place ∈ node.linkPlaces := by
  cases node with
  | file content =>
    cases place with
    | nil => cases h
    | cons name place =>
      rw [at?_cons] at h
      cases h
  | link target =>
    cases place with
    | nil =>
      rw [linkPlaces]
      exact List.mem_singleton_self []
    | cons name place =>
      rw [at?_cons] at h
      cases h
  | dir entries =>
    cases place with
    | nil => cases h
    | cons name place =>
      rw [at?_cons] at h
      obtain ⟨child, hchild, hat⟩ := Option.bind_eq_some_iff.mp h
      rw [linkPlaces]
      exact mem_linkPlacesAmong entries name child place link (mem_of_lookup_eq_some hchild) hat

theorem mem_linkPlacesAmong (entries : List (String × Node)) (name : String) (child : Node) (place : Place)
    (link : String) (hmem : (name, child) ∈ entries) (h : child.at? place = some (.link link)) :
    name :: place ∈ linkPlacesAmong entries := by
  cases entries with
  | nil => cases hmem
  | cons entry entries =>
    obtain ⟨other, node⟩ := entry
    rw [linkPlacesAmong, List.mem_append]
    rcases List.mem_cons.mp hmem with heq | hrest
    · obtain ⟨rfl, rfl⟩ := Prod.mk.inj heq
      exact .inl (List.mem_map_of_mem (mem_linkPlaces child place link h))
    · exact .inr (mem_linkPlacesAmong entries name child place link hrest h)

end

/-! ## Where steps lead -/

/-- Steps lead from a place to another one; a link on the way is followed to where it leads. -/
inductive Leads (top : Node) : Place → List String → Place → Prop
  | done (place : Place) : Leads top place [] place
  | plain {place target : Place} {name : String} {rest : List String} (h : top.linkAt? place name = none)
    (onwards : Leads top (plainStep place name) rest target) : Leads top place (name :: rest) target
  | link {place next target : Place} {name link : String} {rest : List String}
    (h : top.linkAt? place name = some link) (along : Leads top (startOf place link) (steps link) next)
    (onwards : Leads top next rest target) : Leads top place (name :: rest) target

theorem Leads.unique {other : Place} (h : Leads top place names target) (hother : Leads top place names other) :
    target = other := by
  induction h generalizing other with
  | done place =>
    cases hother
    rfl
  | plain h onwards ih =>
    cases hother with
    | plain h' onwards' => exact ih onwards'
    | link h' along' onwards' => cases h.symm.trans h'
  | link h along onwards ihalong ihonwards =>
    cases hother with
    | plain h' onwards' => cases h.symm.trans h'
    | link h' along' onwards' =>
      obtain rfl := Option.some.inj (h.symm.trans h')
      obtain rfl := ihalong along'
      exact ihonwards onwards'

/-- Steps from a place come upon a link, all links before it being followed. -/
inductive Comes (top : Node) : Place → List String → Place → Prop
  | here {place : Place} {name link : String} {rest : List String} (h : top.linkAt? place name = some link) :
    Comes top place (name :: rest) (place ++ [name])
  | plain {place found : Place} {name : String} {rest : List String} (h : top.linkAt? place name = none)
    (onwards : Comes top (plainStep place name) rest found) : Comes top place (name :: rest) found
  | past {place next found : Place} {name link : String} {rest : List String}
    (h : top.linkAt? place name = some link) (along : Leads top (startOf place link) (steps link) next)
    (onwards : Comes top next rest found) : Comes top place (name :: rest) found

/-- Who follows the link at one place comes upon the link at another. -/
def Uses (top : Node) (place other : Place) : Prop :=
  ∃ link, top.at? place = some (.link link) ∧ Comes top (startOf place.dropLast link) (steps link) other

/-- No link leads back to itself. -/
def NoLinkCycle (top : Node) : Prop := ∀ place, ¬ Relation.TransGen top.Uses place place

/-- Who follows steps from a place comes to a link that leads back to itself. -/
def RunsInCircle (top : Node) (place : Place) (names : List String) : Prop :=
  ∃ first again, Comes top place names first ∧ Relation.ReflTransGen top.Uses first again ∧
    Relation.TransGen top.Uses again again

theorem uses_of_comes {other : Place} (h : top.linkAt? place name = some link)
    (hcomes : Comes top (startOf place link) (steps link) other) : top.Uses (place ++ [name]) other := by
  refine ⟨link, (linkAt?_eq_some.mp h).2, ?_⟩
  rw [List.dropLast_concat]
  exact hcomes

theorem NoLinkCycle.not_runsInCircle (h : top.NoLinkCycle) (place : Place) (names : List String) :
    ¬ top.RunsInCircle place names := by
  rintro ⟨first, again, -, -, hcircle⟩
  exact h again hcircle

/-- A link that is followed to its end is a link on which no chain of links goes on forever. -/
theorem Leads.acc {found : Place} (h : Leads top place names target) (hcomes : Comes top place names found) :
    Acc (fun other place => top.Uses place other) found := by
  induction h generalizing found with
  | done place => cases hcomes
  | plain h onwards ih =>
    cases hcomes with
    | here h' => cases h.symm.trans h'
    | plain h' onwards' => exact ih onwards'
    | past h' along' onwards' => cases h.symm.trans h'
  | link h along onwards ihalong ihonwards =>
    cases hcomes with
    | plain h' onwards' => cases h.symm.trans h'
    | past h' along' onwards' =>
      obtain rfl := Option.some.inj (h.symm.trans h')
      obtain rfl := along.unique along'
      exact ihonwards onwards'
    | here h' =>
      refine .intro _ fun other huses => ?_
      obtain ⟨link', hat, hother⟩ := huses
      obtain rfl := Node.link.inj (Option.some.inj ((linkAt?_eq_some.mp h).2.symm.trans hat))
      rw [List.dropLast_concat] at hother
      exact ihalong hother

theorem Leads.not_runsInCircle (h : Leads top place names target) : ¬ top.RunsInCircle place names := by
  rintro ⟨first, again, hcomes, hchain, hcircle⟩
  have hagain : Acc (fun other place => top.Uses place other) again := by
    clear hcircle
    induction hchain with
    | refl => exact h.acc hcomes
    | tail _ huses ih => exact ih.inv huses
  have hback : Relation.TransGen (fun other place => top.Uses place other) again again :=
    Relation.transGen_swap.mp hcircle
  have hself : ∀ place, Acc (Relation.TransGen fun other place => top.Uses place other) place →
      ¬ Relation.TransGen (fun other place => top.Uses place other) place place := by
    intro place hacc
    induction hacc with
    | intro place _ ih => exact fun hloop => ih place hloop hloop
  exact hself again hagain.transGen hback

/-! ## The function that follows steps -/

/-- From a link some chain of links ends at one that is open already, or at one that leads back to itself. -/
def RunsBack (top : Node) (opened : List Place) (first : Place) : Prop :=
  ∃ again, Relation.ReflTransGen top.Uses first again ∧
    (again ∈ opened ∨ Relation.TransGen top.Uses again again)

/-- What a way to follow steps answers: where they lead, or an error if they come upon a link that runs back. -/
def Follows (top : Node) (opened : List Place) (place : Place) (names : List String) :
    Except Place Place → Prop
  | .ok target => Leads top place names target
  | .error _ => ∃ first, Comes top place names first ∧ top.RunsBack opened first

theorem RunsBack.of_opened {first : Place} {opened : List Place}
    (h : top.linkAt? place name = some link) (hcomes : Comes top (startOf place link) (steps link) first)
    (hback : top.RunsBack ((place ++ [name]) :: opened) first) : top.RunsBack opened (place ++ [name]) := by
  have huses := uses_of_comes h hcomes
  obtain ⟨again, hchain, hend⟩ := hback
  rcases hend with hmem | hcircle
  · rcases List.mem_cons.mp hmem with rfl | hopened
    · exact ⟨place ++ [name], .refl, .inr (.head' huses hchain)⟩
    · exact ⟨again, .head huses hchain, .inl hopened⟩
  · exact ⟨again, .head huses hchain, .inr hcircle⟩

theorem follows_followFrom {follow : Follow} {opened : List Place}
    (hfollow : ∀ place name link, top.linkAt? place name = some link → place ++ [name] ∉ opened →
      top.Follows ((place ++ [name]) :: opened) (startOf place link) (steps link)
        (follow ((place ++ [name]) :: opened) (startOf place link) (steps link)))
    (place : Place) (names : List String) :
    top.Follows opened place names (top.followFrom follow opened place names) := by
  fun_induction followFrom top follow opened place names with
  | case1 place => exact .done place
  | case2 place name rest hlink ih =>
    cases hfollowed : top.followFrom follow opened (plainStep place name) rest with
    | ok target =>
      rw [hfollowed] at ih
      exact .plain hlink ih
    | error stuck =>
      rw [hfollowed] at ih
      obtain ⟨first, hcomes, hback⟩ := ih
      exact ⟨first, .plain hlink hcomes, hback⟩
  | case3 place name rest link hlink hopened =>
    exact ⟨place ++ [name], .here hlink, place ++ [name], .refl, .inl (by simpa using hopened)⟩
  | case4 place name rest link hlink hopened stuck hstuck =>
    have h := hfollow place name link hlink (by simpa using hopened)
    rw [hstuck] at h
    obtain ⟨first, hcomes, hback⟩ := h
    exact ⟨place ++ [name], .here hlink, hback.of_opened hlink hcomes⟩
  | case5 place name rest link hlink hopened next hnext ih =>
    have h := hfollow place name link hlink (by simpa using hopened)
    rw [hnext] at h
    cases hfollowed : top.followFrom follow opened next rest with
    | ok target =>
      rw [hfollowed] at ih
      exact .link hlink h ih
    | error stuck =>
      rw [hfollowed] at ih
      obtain ⟨first, hcomes, hback⟩ := ih
      exact ⟨first, .past hlink h hcomes, hback⟩

/-- The links that are open are different links of the tree, so the depth is never used up. -/
theorem follows_followWithin (depth : Nat) (opened : List Place) (hnodup : opened.Nodup)
    (hlinks : ∀ place ∈ opened, place ∈ top.linkPlaces)
    (hdepth : top.linkPlaces.length < depth + opened.length) (place : Place) (names : List String) :
    top.Follows opened place names (top.followWithin depth opened place names) := by
  induction depth generalizing opened place names with
  | zero =>
    have hle : opened.length ≤ top.linkPlaces.length :=
      (List.subperm_of_subset hnodup hlinks).length_le
    omega
  | succ depth ih =>
    refine follows_followFrom (fun place name link hlink hopened => ?_) place names
    have hmem : place ++ [name] ∈ top.linkPlaces := mem_linkPlaces top _ link (linkAt?_eq_some.mp hlink).2
    refine ih _ (List.nodup_cons.mpr ⟨hopened, hnodup⟩) (List.forall_mem_cons.mpr ⟨hmem, hlinks⟩) ?_ _ _
    rw [List.length_cons]
    omega

theorem follows_arrive (top : Node) (place : Place) (path : String) :
    top.Follows [] [] (partsFrom place path) (top.arrive place path) :=
  follows_followWithin _ [] .nil (by simp) (by simp) _ _

theorem runsInCircle_of_arrive_eq_error {path : String} {stuck : Place}
    (h : top.arrive place path = .error stuck) : top.RunsInCircle [] (partsFrom place path) := by
  have hfollows := follows_arrive top place path
  rw [h] at hfollows
  obtain ⟨first, hcomes, again, hchain, hend⟩ := hfollows
  rcases hend with hmem | hcircle
  · exact absurd hmem List.not_mem_nil
  · exact ⟨first, again, hcomes, hchain, hcircle⟩

theorem arrive_eq_ok_iff {path : String} :
    top.arrive place path = .ok target ↔ Leads top [] (partsFrom place path) target := by
  have hfollows := follows_arrive top place path
  cases harrive : top.arrive place path with
  | ok found =>
    rw [harrive] at hfollows
    constructor
    · intro h
      obtain rfl := Except.ok.inj h
      exact hfollows
    · intro h
      rw [Leads.unique hfollows h]
  | error stuck =>
    constructor
    · intro h
      cases h
    · intro h
      exact absurd (runsInCircle_of_arrive_eq_error harrive) h.not_runsInCircle

end CodeCensus.Files.Node
