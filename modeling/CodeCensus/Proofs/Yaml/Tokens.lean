import CodeCensus.Proofs.Yaml.Scalar
import CodeCensus.Yaml.TokenStream
import Mathlib.Data.List.TakeWhile

/-! The tokens of a text. One that refuses to go on has its reason in the text; and the one that ends the stream is
read only where nothing keeps the text from being read to its end. -/

namespace CodeCensus.Yaml

/-! ## Tags and directives -/

theorem reads_anchorName (s : Spot) : Reads (fun _ => True) s (anchorName s) := by
  have hleads : s.Leads (s.take isNameChar).2 := s.leads_take _
  unfold anchorName
  dsimp only
  split
  · exact (Refusal.isDue_fault _).of_leads hleads
  · exact ⟨trivial, hleads⟩

theorem reads_uriBytes (done : List UInt8) (steps : Nat) (s : Spot) :
    Reads (fun _ => True) s (uriBytes done steps s) := by
  induction steps generalizing done s with
  | zero => exact Refusal.isDue_malformed s
  | succ steps ih =>
    rw [uriBytes]
    split
    · refine Meets.bind ((reads_hexCode 2 s.next).of_leads s.leads_next) ?_
      rintro ⟨code, s'⟩ ⟨-, hleads⟩
      exact (ih _ s').of_leads hleads
    · split
      · exact ⟨trivial, .refl s⟩
      · exact Refusal.isDue_malformed s

theorem reads_uriFrom (done : List Char) (steps : Nat) (s : Spot) :
    Reads (fun _ => True) s (uriFrom done steps s) := by
  induction steps generalizing done s with
  | zero => exact ⟨trivial, .refl s⟩
  | succ steps ih =>
    rw [uriFrom]
    split
    · exact ⟨trivial, .refl s⟩
    · split
      · refine Meets.bind (reads_uriBytes [] (s.ahead + 1) s) ?_
        rintro ⟨text, s'⟩ ⟨-, hleads⟩
        exact (ih _ s').of_leads hleads
      · split
        · exact (ih _ s.next).of_leads s.leads_next
        · exact ⟨trivial, .refl s⟩

theorem reads_uri (s : Spot) : Reads (fun _ => True) s (uri s) := by
  unfold uri
  refine Meets.bind (reads_uriFrom [] (s.ahead + 1) s) ?_
  rintro ⟨text, s'⟩ ⟨-, hleads⟩
  dsimp only
  split
  · exact Refusal.isDue_fault s
  · exact ⟨trivial, hleads⟩

theorem reads_handle (s : Spot) : Reads (fun _ => True) s (handle s) := by
  have hleads : s.Leads (s.next.take isNameChar).2 := s.leads_next.trans (s.next.leads_take _)
  unfold handle
  dsimp only
  split
  · exact Refusal.isDue_fault s
  · split
    · exact ⟨trivial, s.leads_next⟩
    · split
      · exact ⟨trivial, hleads.trans (Spot.leads_next _)⟩
      · exact (Refusal.isDue_fault _).of_leads hleads

theorem reads_versionNumber (s : Spot) : Reads (fun _ => True) s (versionNumber s) := by
  have hleads : s.Leads (s.take Char.isDigit).2 := s.leads_take _
  unfold versionNumber
  dsimp only
  split
  · exact (Refusal.isDue_fault _).of_leads hleads
  · refine Meets.bind ((meets_check _).of_leads hleads) fun _ _ => ?_
    split
    · rename_i hlong
      have hfront : (s.take Char.isDigit).1 <+: s.rest := List.takeWhile_prefix _
      exact .inr (.inr (.version hfront.isInfix (fun c hc => List.mem_takeWhile_imp hc) hlong))
    · exact ⟨trivial, hleads⟩

theorem reads_versionDirective (s : Spot) : Reads (fun _ => True) s (versionDirective s) := by
  unfold versionDirective
  refine Meets.bind ((reads_versionNumber _).of_leads (s.leads_drop (· == ' '))) ?_
  rintro ⟨major, s₁⟩ ⟨-, hmajor⟩
  dsimp only
  split
  · exact (Refusal.isDue_fault _).of_leads hmajor
  · refine Meets.bind ((reads_versionNumber _).of_leads (hmajor.trans s₁.leads_next)) ?_
    rintro ⟨minor, s₂⟩ ⟨-, hminor⟩
    dsimp only
    split
    · exact Refusal.isDue_malformed s
    · exact ⟨trivial, hminor⟩

theorem reads_tagDirective (s : Spot) : Reads (fun _ => True) s (tagDirective s) := by
  unfold tagDirective
  refine Meets.bind ((reads_handle _).of_leads (s.leads_drop (· == ' '))) ?_
  rintro ⟨start, s₁⟩ ⟨-, hstart⟩
  dsimp only
  split
  · exact (Refusal.isDue_fault _).of_leads hstart
  · refine Meets.bind ((reads_uri _).of_leads (hstart.trans (s₁.leads_drop (· == ' ')))) ?_
    rintro ⟨meaning, s₂⟩ ⟨-, hmeaning⟩
    dsimp only
    split
    · exact Refusal.isDue_malformed s
    · exact ⟨trivial, hmeaning⟩

/-! ## Tokens that are due -/

/-- A token that may follow from what stands at a spot. -/
def Token.IsDue (s : Spot) : Token → Prop
  | .refused e => e.IsDue s
  | .streamEnd => s.cut = none
  | _ => True

theorem Token.IsDue.of_leads {s s' : Spot} {t : Token} (h : t.IsDue s') (hs : s.Leads s') : t.IsDue s := by
  cases t with
  | refused e => exact Refusal.IsDue.of_leads h hs
  | streamEnd => exact hs.cut.symm.trans h
  | _ => trivial

theorem reads_tagToken (s : Spot) : Reads (Token.IsDue s) s (tagToken s) := by
  have hend : ∀ {t : Token} {s' : Spot}, t.IsDue s → s.Leads s' → Reads (Token.IsDue s) s
      (if (!s'.seesAhead isSpaceOrBreak 0) = true then do
        let token ← throw .malformed
        pure (token, s')
      else pure (t, s')) := by
    intro t s' ht hs'
    split
    · exact Refusal.isDue_malformed s
    · exact ⟨ht, hs'⟩
  unfold tagToken
  dsimp only
  split
  · refine Meets.bind ((reads_uri _).of_leads (s.leads_skip 2)) ?_
    rintro ⟨suffix, s'⟩ ⟨-, hsuffix⟩
    dsimp only
    split
    · exact (Refusal.isDue_fault _).of_leads hsuffix
    · exact hend trivial (hsuffix.trans s'.leads_next)
  · split
    · exact hend trivial s.leads_next
    · split
      · refine Meets.bind (reads_handle s) ?_
        rintro ⟨start, s₁⟩ ⟨-, hstart⟩
        refine Meets.bind ((reads_uri s₁).of_leads hstart) ?_
        rintro ⟨suffix, s₂⟩ ⟨-, hsuffix⟩
        exact hend trivial hsuffix
      · have hmark : Reads (fun _ => True) s (pure ("!", s.next)) := ⟨trivial, s.leads_next⟩
        refine Meets.bind hmark ?_
        rintro ⟨start, s₁⟩ ⟨-, hstart⟩
        refine Meets.bind ((reads_uri s₁).of_leads hstart) ?_
        rintro ⟨suffix, s₂⟩ ⟨-, hsuffix⟩
        exact hend trivial hsuffix

theorem reads_directiveToken (s : Spot) : Reads (Token.IsDue s) s (directiveToken s) := by
  have hname : s.Leads (s.take isNameChar).2 := s.leads_take _
  unfold directiveToken
  dsimp only
  split
  · exact (Refusal.isDue_fault _).of_leads hname
  · have hfinish : ∀ d s', s.Leads s' → Reads (Token.IsDue s) s (do
        let s ← s'.finishLine
        return (.directive d, s)) := fun d s' hs' =>
      Meets.bind ((meets_finishLine s').of_leads hs') fun s'' hs'' => ⟨trivial, hs'.trans hs''⟩
    split
    · refine Meets.bind ((reads_versionDirective _).of_leads hname) ?_
      rintro ⟨d, s'⟩ ⟨-, hs'⟩
      exact hfinish d s' hs'
    · split
      · refine Meets.bind ((reads_tagDirective _).of_leads hname) ?_
        rintro ⟨d, s'⟩ ⟨-, hs'⟩
        exact hfinish d s' hs'
      · exact hfinish _ _ (hname.trans (Spot.leads_drop _ _))

namespace Lexer

/-- A lexer that has come to its tokens from a spot. -/
structure Follows (s : Spot) (l : Lexer) : Prop where
  spot : s.Leads l.spot
  tokens : ∀ t ∈ l.done, t.IsDue s

section

variable {s s' : Spot} {l : Lexer} {t : Token}

theorem Follows.moveTo (h : l.Follows s) (hs : s.Leads s') : (l.moveTo s').Follows s := ⟨hs, h.tokens⟩

theorem Follows.skip (h : l.Follows s) (count : Nat) : (l.skip count).Follows s :=
  h.moveTo (h.spot.trans (l.spot.leads_skip count))

theorem Follows.push (h : l.Follows s) (ht : t.IsDue s) : (l.push t).Follows s :=
  ⟨h.spot, List.forall_mem_cons.mpr ⟨ht, h.tokens⟩⟩

theorem Follows.insertAt (h : l.Follows s) (place : Nat) (ht : t.IsDue s) :
    (l.insertAt place t).Follows s := by
  refine ⟨h.spot, fun t' ht' => ?_⟩
  rcases List.mem_append.mp ht' with ht' | ht'
  · exact h.tokens t' (List.mem_of_mem_take ht')
  · rcases List.mem_cons.mp ht' with rfl | ht'
    · exact ht
    · exact h.tokens t' (List.mem_of_mem_drop ht')

/-! ## Blocks and keys -/

theorem spot_endBlocks (column : Int) (l : Lexer) (outer : List Int) :
    (endBlocks column l outer).spot = l.spot := by
  induction outer generalizing l with
  | nil => rfl
  | cons indent outer ih =>
    rw [endBlocks]
    split
    · rfl
    · exact ih _

theorem Follows.endBlocks (h : l.Follows s) (column : Int) (outer : List Int) :
    (endBlocks column l outer).Follows s := by
  induction outer generalizing l with
  | nil => exact ⟨h.spot, h.tokens⟩
  | cons indent outer ih =>
    rw [Lexer.endBlocks]
    split
    · exact ⟨h.spot, h.tokens⟩
    · exact ih (Follows.push ⟨h.spot, h.tokens⟩ trivial)

theorem spot_unwind (column : Int) (l : Lexer) : (l.unwind column).spot = l.spot := by
  rw [unwind]
  split
  · rfl
  · exact spot_endBlocks column l l.outer

theorem Follows.unwind (h : l.Follows s) (column : Int) : (l.unwind column).Follows s := by
  rw [Lexer.unwind]
  split
  · exact h
  · exact h.endBlocks column l.outer

theorem Follows.indentTo (h : l.Follows s) (column : Nat) : (l.indentTo column).2.Follows s := by
  rw [Lexer.indentTo]
  split
  · exact ⟨h.spot, h.tokens⟩
  · exact h

theorem Follows.openBlock (h : l.Follows s) (ht : t.IsDue s) : (l.openBlock t).Follows s := by
  rw [Lexer.openBlock]
  dsimp only
  split
  · exact (h.indentTo _).push ht
  · exact h.indentTo _

theorem meets_dropBlockKey (h : l.Follows s) :
    Meets (fun l' => l'.Follows s ∧ l'.spot = l.spot) s l.dropBlockKey := by
  rw [dropBlockKey]
  split
  · exact Refusal.isDue_malformed s
  · exact ⟨⟨h.spot, h.tokens⟩, rfl⟩

theorem meets_dropKey (h : l.Follows s) : Meets (Follows s) s l.dropKey := by
  rw [dropKey]
  split
  · exact Meets.imp (meets_dropBlockKey h) fun _ h' => h'.1
  · exact ⟨h.spot, h.tokens⟩

theorem meets_dropStaleKey (h : l.Follows s) :
    Meets (fun l' => l'.Follows s ∧ l'.spot = l.spot) s l.dropStaleKey := by
  rw [dropStaleKey]
  split
  · exact ⟨h, rfl⟩
  · split
    · exact ⟨h, rfl⟩
    · exact meets_dropBlockKey h

theorem meets_keepKey (h : l.Follows s) : Meets (Follows s) s l.keepKey := by
  unfold keepKey
  dsimp only
  split
  · exact h
  · refine Meets.bind (meets_dropKey h) fun l' h' => ?_
    split
    · exact ⟨h'.spot, h'.tokens⟩
    · exact ⟨h'.spot, h'.tokens⟩

theorem meets_startBlock (h : l.Follows s) (ht : t.IsDue s) : Meets (Follows s) s (l.startBlock t) := by
  rw [startBlock]
  split
  · exact h
  · split
    · exact Refusal.isDue_malformed s
    · exact h.openBlock ht

theorem Follows.announceKey (h : l.Follows s) (k : KeyPlace) : (l.announceKey k).Follows s := by
  have hopens : ∀ {l' : Lexer}, l'.Follows s → Follows s
      (if l'.inFlow then l'
      else if (l'.indentTo k.spot.column).1 then
        (l'.indentTo k.spot.column).2.insertAt k.tokens .mappingStart
      else (l'.indentTo k.spot.column).2) := by
    intro l' h'
    split
    · exact h'
    · split
      · exact (h'.indentTo _).insertAt _ trivial
      · exact h'.indentTo _
  unfold Lexer.announceKey
  split
  · have hkey := hopens (Follows.insertAt (l := { l with blockKey := none }) ⟨h.spot, h.tokens⟩ k.tokens
      (t := .key) trivial)
    exact ⟨hkey.spot, hkey.tokens⟩
  · rename_i outer _
    have hkey := hopens (Follows.insertAt (l := { l with flowKeys := none :: outer }) ⟨h.spot, h.tokens⟩
      k.tokens (t := .key) trivial)
    exact ⟨hkey.spot, hkey.tokens⟩

/-! ## Reading tokens -/

theorem Follows.toNextToken (h : l.Follows s) (steps : Nat) : (toNextToken steps l).Follows s := by
  induction steps generalizing l with
  | zero => exact h
  | succ steps ih =>
    have hleads := h.spot.trans ((l.spot.leads_drop (· == ' ')).trans (Spot.leads_dropComment _))
    rw [Lexer.toNextToken]
    split
    · rename_i c s' hbreak
      exact ih ⟨hleads.trans (Spot.leads_of_break? hbreak), h.tokens⟩
    · exact h.moveTo hleads

theorem meets_freshly (h : l.Follows s) : Meets (Follows s) s l.freshly :=
  Meets.bind (meets_dropKey (h.unwind (-1))) fun _ h' => ⟨h'.spot, h'.tokens⟩

theorem meets_readDirective (h : l.Follows s) : Meets (Follows s) s l.readDirective := by
  refine Meets.bind (meets_freshly h) fun l' h' => ?_
  have hnext := h'.spot.trans l'.spot.leads_next
  refine Meets.bind ((reads_directiveToken _).of_leads hnext) ?_
  rintro ⟨t, s'⟩ ⟨ht, hs'⟩
  exact (h'.moveTo hs').push (ht.of_leads hnext)

theorem meets_readDocumentMark (h : l.Follows s) (ht : t.IsDue s) :
    Meets (Follows s) s (l.readDocumentMark t) :=
  Meets.bind (meets_freshly h) fun _ h' => (h'.skip 3).push ht

theorem meets_openFlow (h : l.Follows s) (ht : t.IsDue s) : Meets (Follows s) s (l.openFlow t) :=
  Meets.bind (meets_keepKey h) fun _ h' =>
    ⟨((h'.skip 1).push ht).spot, ((h'.skip 1).push ht).tokens⟩

theorem meets_closeFlow (h : l.Follows s) (ht : t.IsDue s) : Meets (Follows s) s (l.closeFlow t) := by
  rw [closeFlow]
  split
  · exact Refusal.isDue_malformed s
  · exact ⟨((h.skip 1).push ht).spot, ((h.skip 1).push ht).tokens⟩

theorem meets_readFlowEntry (h : l.Follows s) : Meets (Follows s) s l.readFlowEntry :=
  Meets.bind (meets_dropKey h) fun _ h' =>
    have hread := (h'.skip 1).push (t := .flowEntry) trivial
    ⟨hread.spot, hread.tokens⟩

theorem meets_readEntry (h : l.Follows s) : Meets (Follows s) s l.readEntry :=
  Meets.bind (meets_startBlock h trivial) fun _ h' => Meets.bind (meets_dropKey h') fun _ h'' =>
    have hread := (h''.skip 1).push (t := .entry) trivial
    ⟨hread.spot, hread.tokens⟩

theorem meets_readKey (h : l.Follows s) : Meets (Follows s) s l.readKey :=
  Meets.bind (meets_startBlock h trivial) fun _ h' => Meets.bind (meets_dropKey h') fun _ h'' =>
    have hread := (h''.skip 1).push (t := .key) trivial
    ⟨hread.spot, hread.tokens⟩

theorem meets_readValue (h : l.Follows s) : Meets (Follows s) s l.readValue := by
  unfold readValue
  split
  · exact ((h.announceKey _).skip 1).push trivial
  · refine Meets.bind (meets_startBlock h trivial) fun l' h' => ?_
    refine Meets.bind (meets_dropKey h') fun l'' h'' => ?_
    exact (Follows.skip (l := { l'' with allowsKey := !l''.inFlow }) ⟨h''.spot, h''.tokens⟩ 1).push trivial

theorem meets_readKeyed {read : Spot → Except Refusal (Token × Spot)}
    (hread : ∀ s', Reads (Token.IsDue s') s' (read s')) (h : l.Follows s) :
    Meets (Follows s) s (l.readKeyed read) := by
  refine Meets.bind (meets_keepKey h) fun l' h' => ?_
  refine Meets.bind ((hread _).of_leads h'.spot) ?_
  rintro ⟨t, s'⟩ ⟨ht, hs'⟩
  have hread := (h'.moveTo hs').push (ht.of_leads h'.spot)
  exact ⟨hread.spot, hread.tokens⟩

theorem meets_readBlockScalar (foldsLines : Bool) (h : l.Follows s) :
    Meets (Follows s) s (l.readBlockScalar foldsLines) := by
  refine Meets.bind (meets_dropKey h) fun l' h' => ?_
  refine Meets.bind ((reads_blockScalar foldsLines l'.indent l'.spot.next).of_leads
    (h'.spot.trans l'.spot.leads_next)) ?_
  rintro ⟨text, s'⟩ ⟨-, hs'⟩
  have hread := (h'.moveTo hs').push (t := .scalar false (codesOf text)) trivial
  exact ⟨hread.spot, hread.tokens⟩

theorem meets_readPlain (h : l.Follows s) : Meets (Follows s) s l.readPlain := by
  refine Meets.bind (meets_keepKey h) fun l' h' => ?_
  have hread := (h'.moveTo (h'.spot.trans (leads_plainScalar l'.inFlow l'.indent l'.spot))).push
    (t := .scalar true (codesOf (plainScalar l'.inFlow l'.indent l'.spot).1)) trivial
  exact ⟨hread.spot, hread.tokens⟩

theorem meets_readToken (c : Char) (h : l.Follows s) : Meets (Follows s) s (l.readToken c) := by
  have hname : ∀ (s' : Spot) (token : String → Token), (∀ name, (token name).IsDue s') →
      Reads (Token.IsDue s') s' ((anchorName s'.next).map fun found => (token found.1, found.2)) :=
    fun s' token htoken => ((reads_anchorName _).of_leads s'.leads_next).map fun name s _ =>
      ⟨htoken name, .refl s⟩
  have hquoted : ∀ s', Reads (Token.IsDue s') s'
      ((quotedScalar c s'.next).map fun found => (.scalar false found.1, found.2)) :=
    fun s' => ((reads_quotedScalar c _).of_leads s'.leads_next).map fun codes s _ => ⟨trivial, .refl s⟩
  unfold readToken
  refine .ite (meets_readDirective h) ?_
  refine .ite (meets_readDocumentMark h trivial) ?_
  refine .ite (meets_readDocumentMark h trivial) ?_
  refine .ite (meets_openFlow h trivial) ?_
  refine .ite (meets_openFlow h trivial) ?_
  refine .ite (meets_closeFlow h trivial) ?_
  refine .ite (meets_closeFlow h trivial) ?_
  refine .ite (meets_readFlowEntry h) ?_
  refine .ite (meets_readEntry h) ?_
  refine .ite (meets_readKey h) ?_
  refine .ite (meets_readValue h) ?_
  refine .ite (meets_readKeyed (fun s' => hname s' .alias fun _ => trivial) h) ?_
  refine .ite (meets_readKeyed (fun s' => hname s' .anchor fun _ => trivial) h) ?_
  refine .ite (meets_readKeyed reads_tagToken h) ?_
  refine .ite (meets_readBlockScalar false h) ?_
  refine .ite (meets_readBlockScalar true h) ?_
  refine .ite (meets_readKeyed hquoted h) ?_
  exact .ite (meets_readPlain h) (Refusal.isDue_malformed s)

theorem meets_readEnd (h : l.Follows s) (hcut : s.cut = none) : Meets (Follows s) s l.readEnd :=
  Meets.bind (meets_dropKey (h.unwind (-1))) fun _ h' => h'.push hcut

theorem meets_readNext (h : l.Follows s) : Meets (fun found => found.2.Follows s) s l.readNext := by
  have hnext := h.toNextToken (l.spot.ahead + 1)
  unfold readNext
  generalize Lexer.toNextToken (l.spot.ahead + 1) l = l₁ at hnext
  dsimp only
  refine Meets.bind ((meets_check l₁.spot).of_leads hnext.spot) fun _ hcheck => ?_
  refine Meets.bind (meets_dropStaleKey hnext) fun l₂ ⟨hstale, hspot⟩ => ?_
  have hunwind := hstale.unwind l₂.spot.column
  have hsame : (l₂.unwind l₂.spot.column).spot = l₁.spot := (spot_unwind _ l₂).trans hspot
  generalize l₂.unwind l₂.spot.column = l₃ at hunwind hsame
  split
  · rename_i hend
    have hcut : s.cut = none := by
      rw [← hnext.spot.cut]
      refine hcheck ?_
      rwa [← hsame, Spot.isEnd, List.isEmpty_iff, ← List.head?_eq_none_iff]
    exact Meets.bind (meets_readEnd hunwind hcut) fun _ h' => h'
  · rename_i c hchar
    refine Meets.bind (meets_readToken c hunwind) fun l₄ h₄ => ?_
    refine Meets.bind ((meets_check l₄.spot).of_leads h₄.spot) fun _ _ => ?_
    exact Meets.bind (meets_dropStaleKey h₄) fun _ h₅ => h₅.1

theorem isDue_of_mem_refusedWith {e : Refusal} (h : l.Follows s) (he : e.IsDue s) :
    ∀ t ∈ l.refusedWith e, t.IsDue s := by
  intro t ht
  rcases List.mem_cons.mp (List.mem_reverse.mp ht) with rfl | ht
  · exact he
  · exact h.tokens t (List.mem_of_mem_drop ht)

theorem isDue_of_mem_readAll (steps : Nat) (h : l.Follows s) : ∀ t ∈ readAll steps l, t.IsDue s := by
  induction steps generalizing l with
  | zero => exact isDue_of_mem_refusedWith h (Refusal.isDue_malformed s)
  | succ steps ih =>
    have hnext := meets_readNext h
    rw [readAll]
    split
    · rename_i e he
      rw [he] at hnext
      exact isDue_of_mem_refusedWith h hnext
    · rename_i l' hl'
      rw [hl'] at hnext
      exact ih hnext
    · rename_i l' hl'
      rw [hl'] at hnext
      exact fun t ht => hnext.tokens t (List.mem_reverse.mp ht)

end

end Lexer

theorem isDue_of_mem_tokens (text : List Char) (cut : Option Refusal) :
    ∀ t ∈ tokens text cut, t.IsDue (.start text cut) := by
  unfold tokens
  refine Lexer.isDue_of_mem_readAll _ ⟨?_, fun t ht => absurd ht List.not_mem_nil⟩
  dsimp only
  split
  · exact Spot.leads_next _
  · exact .refl _

end CodeCensus.Yaml
