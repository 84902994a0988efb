import CodeCensus.Proofs.Pattern.Taking
import CodeCensus.Proofs.Pattern.Words
import CodeCensus.Proofs.Text.Class
import CodeCensus.Proofs.Text.Cutting
import CodeCensus.Remote.GitHub

/-! Ids of repositories as they may be written, and what is read of them. The ending of a clone's address and a last
slash are taken off once each, so a name that ends like an address is only read whole where that ending stands a second
time, or where the name is nothing else. -/

namespace CodeCensus.RepoId

open Text

variable {c : Char}

/-! ## Characters of ids -/

section

variable {ending front text owner rest host : List Char}

theorem not_isBlank_of_isIdChar (h : isIdChar c = true) : isBlank c = false := by
  rw [isIdChar, Bool.or_eq_true, List.contains_iff_mem] at h
  rcases h with h | h
  · refine not_isBlank_of_isWord ?_
    rw [isWord]
    simp only [toNat_lt_of_isAlphanum h, if_true, h, Bool.true_or]
  · have hmarks : ∀ c ∈ ['_', '.', '-'], isBlank c = false := forall_of_any_eq_false rfl
    exact hmarks c h

theorem isIdWord_iff : isIdWord text = true ↔ text ≠ [] ∧ ∀ c ∈ text, isIdChar c = true := by
  simp [isIdWord]

theorem not_mem_of_isIdWord (h : isIdWord text = true) (hc : isIdChar c = false) : c ∉ text :=
  fun hmem => by simp [(isIdWord_iff.mp h).2 c hmem] at hc

/-! ## Endings -/

theorem withoutEnding_append (h : front ≠ []) : withoutEnding ending (front ++ ending) = front := by
  have hsuffix : (ending.isSuffixOf (front ++ ending) && ending.length < (front ++ ending).length) = true := by
    simpa using List.length_pos_of_ne_nil h
  rw [withoutEnding, if_pos hsuffix, List.length_append, Nat.add_sub_cancel, List.take_left]

theorem withoutEnding_eq_self (h : ∀ front, text = front ++ ending → front = []) : withoutEnding ending text = text := by
  refine if_neg fun hsuffix => ?_
  rw [Bool.and_eq_true, List.isSuffixOf_iff_suffix, decide_eq_true_iff] at hsuffix
  obtain ⟨⟨front, hfront⟩, hlt⟩ := hsuffix
  obtain rfl := h front hfront.symm
  rw [← hfront] at hlt
  exact Nat.lt_irrefl _ hlt

/-- A text is what is left of it with the ending behind it, or it is left whole because nothing stands before such an
ending. -/
theorem exists_withoutEnding_eq (ending text : List Char) : ∃ tail, text = withoutEnding ending text ++ tail ∧
    (tail = ending ∨ tail = [] ∧ ∀ front, text = front ++ ending → front = []) := by
  by_cases h : ∀ front, text = front ++ ending → front = []
  · exact ⟨[], by rw [withoutEnding_eq_self h, List.append_nil], .inr ⟨rfl, h⟩⟩
  · obtain ⟨front, hfront⟩ := not_forall.mp h
    obtain ⟨rfl, hne⟩ := Classical.not_imp.mp hfront
    exact ⟨ending, by rw [withoutEnding_append hne], .inl rfl⟩

/-! ## Hosts -/

/-- The first character of a host that no id has is a colon, that of an owner with what follows it a slash. -/
theorem not_host_prefix (hhost : host ∈ hosts) (howner : ∀ c ∈ owner, isIdChar c = true) (rest : List Char) :
    ¬ host <+: owner ++ '/' :: rest := by
  have hscheme : ∀ host ∈ hosts, ∃ scheme more, host = scheme ++ ':' :: more ∧ ∀ c ∈ scheme, isIdChar c = true := by
    refine List.forall_mem_cons.mpr ⟨⟨"http".toList, "//github.com/".toList, rfl, List.all_eq_true.mp rfl⟩, ?_⟩
    exact List.forall_mem_singleton.mpr ⟨"https".toList, "//github.com/".toList, rfl, List.all_eq_true.mp rfl⟩
  obtain ⟨scheme, more, rfl, hletters⟩ := hscheme host hhost
  rintro ⟨after, h⟩
  rw [List.append_assoc, List.cons_append] at h
  have hnot {front : List Char} (h : ∀ c ∈ front, isIdChar c = true) : ∀ c ∈ front, (!isIdChar c) = false :=
    fun c hc => congrArg not (h c hc)
  obtain ⟨-, hmark, -⟩ := append_cons_inj_of (hnot hletters) (hnot howner) (by decide) (by decide) h
  exact absurd hmark (by decide)

theorem withoutHost_append (hhost : host ∈ [] :: hosts) (howner : ∀ c ∈ owner, isIdChar c = true) (rest : List Char) :
    withoutHost (host ++ (owner ++ '/' :: rest)) = owner ++ '/' :: rest := by
  rcases List.mem_cons.mp hhost with rfl | hhost
  · have hnone : (hosts.find? fun host => host.isPrefixOf (owner ++ '/' :: rest)) = none :=
      List.find?_eq_none.mpr fun host hmem => by simpa using not_host_prefix hmem howner rest
    rw [List.nil_append, withoutHost, hnone]
  · rw [hosts, List.mem_cons, List.mem_singleton] at hhost
    rcases hhost with rfl | rfl <;> rfl

theorem exists_withoutHost_eq (text : List Char) : ∃ host ∈ [] :: hosts, text = host ++ withoutHost text := by
  rw [withoutHost]
  split
  · rename_i host hfind
    have hprefix : host.isPrefixOf text = true := by
      simpa using List.find?_some hfind
    obtain ⟨rest, rfl⟩ := List.isPrefixOf_iff_prefix.mp hprefix
    exact ⟨host, List.mem_cons_of_mem _ (List.mem_of_find?_eq_some hfind), by rw [List.drop_left]⟩
  · exact ⟨[], List.mem_cons_self, rfl⟩

end

/-! ## Ids as written -/

/-- An id as it may be written: an owner and a name with a slash between them, after a host or none, and behind them the
ending of a clone's address or not and a slash or not, all of it with blanks around. -/
structure Writing where
  before : List Char
  host : List Char
  owner : List Char
  name : List Char
  ending : List Char
  slash : List Char
  after : List Char
  before_isBlank : ∀ c ∈ before, isBlank c = true
  host_mem : host ∈ [] :: hosts
  owner_isIdWord : isIdWord owner = true
  name_isIdWord : isIdWord name = true
  ending_mem : ending ∈ [[], ".git".toList]
  slash_mem : slash ∈ [[], ['/']]
  after_isBlank : ∀ c ∈ after, isBlank c = true

namespace Writing

variable (w : Writing)

/-- What is written between the blanks. -/
def core : List Char := w.host ++ (w.owner ++ '/' :: (w.name ++ w.ending ++ w.slash))

def text : List Char := w.before ++ (w.core ++ w.after)

def repo : RepoId := ⟨String.ofList w.owner, String.ofList w.name⟩

theorem name_ne_nil : w.name ≠ [] := (isIdWord_iff.mp w.name_isIdWord).1

theorem isIdChar_of_mem_ending (hc : c ∈ w.ending) : isIdChar c = true := by
  have hall : ∀ ending ∈ [[], ".git".toList], ending.all isIdChar = true := by decide
  exact List.all_eq_true.mp (hall _ w.ending_mem) c hc

theorem not_isBlank_of_mem_core : ∀ c ∈ w.core, isBlank c = false := by
  have hhosts : ∀ host ∈ [] :: hosts, host.any isBlank = false := by decide
  have hslashes : ∀ slash ∈ [[], ['/']], slash.any isBlank = false := by decide
  have hword {word : List Char} (h : isIdWord word = true) : ∀ c ∈ word, isBlank c = false :=
    fun c hc => not_isBlank_of_isIdChar ((isIdWord_iff.mp h).2 c hc)
  simp only [core, List.forall_mem_append, List.forall_mem_cons]
  exact ⟨forall_of_any_eq_false (hhosts _ w.host_mem), hword w.owner_isIdWord, by decide,
    ⟨hword w.name_isIdWord, fun c hc => not_isBlank_of_isIdChar (w.isIdChar_of_mem_ending hc)⟩,
    forall_of_any_eq_false (hslashes _ w.slash_mem)⟩

theorem trim_text : trim w.text = w.core := by
  rw [text, trim, trimBy_append_of_pos w.before_isBlank w.after_isBlank]
  exact trim_eq_self (fun c hc => w.not_isBlank_of_mem_core c (List.mem_of_mem_head? hc))
    fun c hc => w.not_isBlank_of_mem_core c (List.mem_of_getLast? hc)

/-- The ending of an address belongs to the name only where it is all of the name, or stands a second time. -/
def IsShort : Prop := w.ending = [] → ∀ front, w.name = front ++ ".git".toList → front = []

theorem withoutEnding_slash : withoutEnding ['/'] (w.name ++ w.ending ++ w.slash) = w.name ++ w.ending := by
  have hslash : '/' ∉ w.name ++ w.ending := by
    rw [List.mem_append, not_or]
    exact ⟨not_mem_of_isIdWord w.name_isIdWord (by decide), fun hmem => absurd (w.isIdChar_of_mem_ending hmem) (by decide)⟩
  rcases List.mem_pair.mp w.slash_mem with heq | heq
  · rw [heq, List.append_nil]
    exact withoutEnding_eq_self fun front hfront => absurd (hfront ▸ by simp) hslash
  · rw [heq]
    exact withoutEnding_append (List.append_ne_nil_of_left_ne_nil w.name_ne_nil _)

theorem withoutEnding_ending (h : w.IsShort) : withoutEnding ".git".toList (w.name ++ w.ending) = w.name := by
  rcases List.mem_pair.mp w.ending_mem with heq | heq
  · rw [heq, List.append_nil]
    exact withoutEnding_eq_self (h heq)
  · rw [heq]
    exact withoutEnding_append w.name_ne_nil

/-- What is written is read, if the name is as short as it can be. -/
theorem parse?_text (h : w.IsShort) : parse? (String.ofList w.text) = some w.repo := by
  have howner := (isIdWord_iff.mp w.owner_isIdWord).2
  have hslash : '/' ∉ w.owner := not_mem_of_isIdWord w.owner_isIdWord (by decide)
  have hcut : cutFirst ['/'] (w.owner ++ '/' :: (w.name ++ w.ending ++ w.slash)) =
      some (w.owner, w.name ++ w.ending ++ w.slash) := by
    have hpasses : Passes ['/'] w.owner (['/'] ++ (w.name ++ w.ending ++ w.slash)) := passes_of_not_mem rfl hslash _
    rw [Passes, cutFirst_needle_append (List.cons_ne_nil _ _), Option.map_some, List.append_nil] at hpasses
    exact hpasses
  rw [parse?, String.toList_ofList, w.trim_text, core, withoutHost_append w.host_mem howner, hcut, Option.bind_eq_bind,
    Option.bind_some]
  dsimp only
  rw [w.withoutEnding_slash, w.withoutEnding_ending h, w.owner_isIdWord, w.name_isIdWord]
  rfl

/-- A name that ends like an address can be taken for a shorter one and that ending. -/
theorem exists_isShort : ∃ w' : Writing, w'.IsShort ∧ w'.text = w.text ∧ (w'.name = w.name → w.IsShort) := by
  by_cases h : w.IsShort
  · exact ⟨w, h, rfl, fun _ => h⟩
  · obtain ⟨hending, hlong⟩ := Classical.not_imp.mp h
    obtain ⟨front, hfront⟩ := not_forall.mp hlong
    obtain ⟨hname, hne⟩ := Classical.not_imp.mp hfront
    have hword : isIdWord front = true := isIdWord_iff.mpr ⟨hne, fun c hc =>
      (isIdWord_iff.mp w.name_isIdWord).2 c (hname ▸ List.mem_append_left _ hc)⟩
    refine ⟨{ w with name := front, ending := ".git".toList, name_isIdWord := hword, ending_mem := by simp },
      fun hnil => absurd (show ".git".toList = [] from hnil) (by decide), ?_, fun heq => ?_⟩
    · rw [text, text, core, core, hname, hending, List.append_nil]
    · exact absurd (List.self_eq_append_right.mp (Eq.trans heq hname)) (by decide)

theorem parse?_ne_none : parse? (String.ofList w.text) ≠ none := by
  obtain ⟨w', hshort, htext, -⟩ := w.exists_isShort
  rw [← htext, w'.parse?_text hshort]
  exact Option.some_ne_none _

end Writing

/-- What is read is written so, with a name as short as it can be. -/
theorem exists_writing_of_parse? {id : String} {repo : RepoId} (h : parse? id = some repo) :
    ∃ w : Writing, w.IsShort ∧ w.text = id.toList ∧ w.repo = repo := by
  rw [parse?, Option.bind_eq_bind, Option.bind_eq_some_iff] at h
  obtain ⟨⟨owner, rest⟩, hcut, h⟩ := h
  simp only [Option.ite_none_right_eq_some, Bool.and_eq_true, Option.some.injEq] at h
  obtain ⟨⟨howner, hname⟩, rfl⟩ := h
  obtain ⟨before, after, hid, hbefore, hafter, -, -⟩ := exists_trim_eq id.toList
  obtain ⟨host, hhost, hcore⟩ := exists_withoutHost_eq (trim id.toList)
  obtain ⟨slash, hrest, hslash⟩ := exists_withoutEnding_eq ['/'] rest
  obtain ⟨ending, hlong, hending⟩ := exists_withoutEnding_eq ".git".toList (withoutEnding ['/'] rest)
  have hparts : host ++ (owner ++ '/' :: (withoutEnding ".git".toList (withoutEnding ['/'] rest) ++ ending ++ slash)) =
      trim id.toList := by
    rw [← hlong, ← hrest, hcore, cutFirst_eq_some hcut, List.append_assoc]
    rfl
  have hshort : ending = [] → ∀ front, withoutEnding ".git".toList (withoutEnding ['/'] rest) = front ++ ".git".toList →
      front = [] := by
    rintro rfl front hfront
    rw [List.append_nil] at hlong
    rcases hending with heq | ⟨-, hnone⟩
    · exact absurd heq (by decide)
    · exact hnone front (hlong.trans hfront)
  refine ⟨⟨before, host, owner, withoutEnding ".git".toList (withoutEnding ['/'] rest), ending, slash, after, hbefore,
    hhost, howner, hname, ?_, ?_, hafter⟩, ?_, ?_, rfl⟩
  · exact List.mem_pair.mpr (hending.symm.imp_left And.left)
  · exact List.mem_pair.mpr (hslash.symm.imp_left And.left)
  · exact hshort
  · rw [Writing.text, Writing.core, hparts, ← List.append_assoc]
    exact hid.symm

/-! ## Ids as one pattern -/

open Pattern Cursor

def hostPattern : Pattern := inOrder ["http", opt "s", "://github.com/"]

def endPattern : Pattern := inOrder [opt ".git", opt "/", .edge .lastLineEnd]

/-- The name is taken only as far as it has to go. -/
def pattern : Pattern := inOrder [
  .edge .textStart, opt hostPattern, keep 1 [some1 isIdChar], "/", keep 2 [lazy1 isIdChar], endPattern]

section

variable {text rest tail : List Char} {word : String} {i j : Nat}

theorem exists_tail_of_spans_opt (h : (opt (Pattern.text word)).Spans text i j) :
    ∃ tail ∈ [[], word.toList], text.drop i = tail ++ text.drop j := by
  rcases h with h | h
  · exact ⟨word.toList, by simp, drop_of_spans_text h⟩
  · obtain rfl : j = i := h
    exact ⟨[], by simp, rfl⟩

theorem takes_opt_text (htail : tail ∈ [[], word.toList]) (h : text.drop i = tail ++ rest)
    (hrest : ¬ word.toList <+: rest) : Takes text (opt (Pattern.text word)) i (i + tail.length) [] := by
  rcases List.mem_pair.mp htail with rfl | rfl
  · refine takes_opt_none fun e hspans => hrest ?_
    rw [List.nil_append] at h
    exact ⟨text.drop e, by rw [← drop_of_spans_text hspans, h]⟩
  · exact (takes_text h).left

/-! ### Hosts -/

theorem mem_hosts_iff {host : List Char} :
    host ∈ hosts ↔ ∃ tail ∈ [[], "s".toList], host = "http".toList ++ (tail ++ "://github.com/".toList) := by
  simp [hosts]

theorem exists_host_of_spans (h : hostPattern.Spans text i j) : ∃ host ∈ hosts, text.drop i = host ++ text.drop j := by
  obtain ⟨m, hscheme, m', hs, hrest⟩ := h
  obtain ⟨tail, htail, hdrop⟩ := exists_tail_of_spans_opt hs
  refine ⟨_, mem_hosts_iff.mpr ⟨tail, htail, rfl⟩, ?_⟩
  rw [drop_of_spans_text hscheme, hdrop, drop_of_spans_text hrest]
  simp only [List.append_assoc]

theorem exists_host_of_spans_opt (h : (opt hostPattern).Spans text i j) :
    ∃ host ∈ [] :: hosts, text.drop i = host ++ text.drop j := by
  rcases h with h | h
  · obtain ⟨host, hhost, hdrop⟩ := exists_host_of_spans h
    exact ⟨host, List.mem_cons_of_mem _ hhost, hdrop⟩
  · obtain rfl : j = i := h
    exact ⟨[], List.mem_cons_self, rfl⟩

theorem takes_host {host owner : List Char} (hhost : host ∈ [] :: hosts) (howner : ∀ c ∈ owner, isIdChar c = true)
    (h : text.drop i = host ++ (owner ++ '/' :: rest)) : Takes text (opt hostPattern) i (i + host.length) [] := by
  rcases List.mem_cons.mp hhost with rfl | hhost
  · refine takes_opt_none fun e hspans => ?_
    obtain ⟨host, hhost, hdrop⟩ := exists_host_of_spans hspans
    exact not_host_prefix hhost howner rest ⟨_, hdrop.symm.trans h⟩
  · obtain ⟨tail, htail, rfl⟩ := mem_hosts_iff.mp hhost
    rw [List.append_assoc, List.append_assoc] at h
    have hs := drop_add_length h
    have hrest := drop_add_length hs
    have hcolon : ¬ "s".toList <+: "://github.com/".toList ++ (owner ++ '/' :: rest) := by
      rintro ⟨after, heq⟩
      exact absurd (List.cons.inj heq).1 (by decide)
    have htaken := (((takes_text hrest).after (takes_opt_text htail hs hcolon)).after (takes_text h)).left (q := .empty)
    rwa [Nat.add_assoc, Nat.add_assoc, ← List.length_append, ← List.length_append] at htaken

/-! ### What stands behind a name -/

theorem exists_end_of_spans (h : endPattern.Spans text i j) : ∃ ending ∈ [[], ".git".toList], ∃ slash ∈ [[], ['/']],
    ∃ last ∈ [[], ['\n']], text.drop i = ending ++ slash ++ last := by
  obtain ⟨m, hgit, m', hslash, hedge, rfl⟩ := h
  obtain ⟨ending, hending, hdrop⟩ := exists_tail_of_spans_opt hgit
  obtain ⟨slash, hslash, hdrop'⟩ := exists_tail_of_spans_opt hslash
  refine ⟨ending, hending, slash, hslash, text.drop j, ?_, by rw [hdrop, hdrop', List.append_assoc]⟩
  simpa [Edge.holds, List.isEmpty_iff] using hedge

theorem takes_end {ending slash : List Char} (hending : ending ∈ [[], ".git".toList]) (hslash : slash ∈ [[], ['/']])
    (h : text.drop i = ending ++ slash) : ∃ e, Takes text endPattern i e [] := by
  have hnone : ¬ ".git".toList <+: slash := by
    rcases List.mem_pair.mp hslash with rfl | rfl <;> decide
  have hbehind := drop_add_length h
  rw [← List.append_nil slash] at hbehind
  have hend : text.drop (i + ending.length + slash.length) = [] := drop_add_length hbehind
  have hedge : Edge.lastLineEnd.holds (on text (i + ending.length + slash.length)) = true := by
    rw [Edge.holds, on_rest, hend]
    rfl
  have hslashTaken := takes_opt_text (show slash ∈ [[], "/".toList] from hslash) hbehind (by decide)
  exact ⟨_, ((takes_edge hedge).after hslashTaken).after (takes_opt_text hending h hnone)⟩

/-- A name that is as short as it can be is not left before its end. -/
theorem Writing.not_spans_end {w : Writing} (hshort : w.IsShort) (h : text.drop i = w.name ++ (w.ending ++ w.slash))
    (hij : i < j) (hj : j < i + w.name.length) (e : Nat) : ¬ endPattern.Spans text j e := by
  intro hspans
  obtain ⟨ending, hending, slash, hslash, last, hlast, hdrop⟩ := exists_end_of_spans hspans
  obtain ⟨m, rfl⟩ := Nat.exists_eq_add_of_le (Nat.le_of_lt hij)
  have hback : w.name.drop m ≠ [] := List.ne_nil_of_length_pos (by rw [List.length_drop]; omega)
  have hsplit : w.name.drop m ++ w.ending ++ w.slash = ending ++ (slash ++ last) := by
    rw [← List.drop_drop, h, List.drop_append_of_le_length (by omega), List.append_assoc] at hdrop
    rw [List.append_assoc, hdrop]
  have hmarks : ∀ slash ∈ [[], ['/']], (slash.all fun c => !isIdChar c) = true := by decide
  have hfeed : ∀ last ∈ [[], ['\n']], (last.all fun c => !isIdChar c) = true := by decide
  have hgit : ∀ ending ∈ [[], ".git".toList], (ending.any fun c => !isIdChar c) = false := by decide
  have hname : ∀ c ∈ w.name.drop m, (!isIdChar c) = false := fun c hc =>
    congrArg not ((isIdWord_iff.mp w.name_isIdWord).2 c (List.mem_of_mem_drop hc))
  have hbehind : ∀ c ∈ slash ++ last, (!isIdChar c) = true := List.forall_mem_append.mpr
    ⟨List.all_eq_true.mp (hmarks _ hslash), List.all_eq_true.mp (hfeed _ hlast)⟩
  have hfront : ∀ c ∈ w.name.drop m ++ w.ending, (!isIdChar c) = false := List.forall_mem_append.mpr
    ⟨hname, forall_of_any_eq_false (hgit _ w.ending_mem)⟩
  -- on either side what is no character of an id begins behind the ending
  obtain ⟨heq, -⟩ := append_inj_of (List.all_eq_true.mp (hmarks _ w.slash_mem)) hbehind
    (fun c hc => hfront c (List.mem_of_getLast? hc))
    (fun c hc => forall_of_any_eq_false (hgit _ hending) c (List.mem_of_getLast? hc)) hsplit
  rcases List.mem_pair.mp hending with rfl | rfl
  · exact hback (List.append_eq_nil_iff.mp heq).1
  · rcases List.mem_pair.mp w.ending_mem with hnil | hnext
    · rw [hnil, List.append_nil] at heq
      have htake := hshort hnil (w.name.take m) (by rw [← heq, List.take_append_drop])
      have hlength := congrArg List.length htake
      rw [List.length_take, List.length_nil] at hlength
      omega
    · rw [hnext] at heq
      exact hback (List.append_left_eq_self.mp heq)

end

/-! ### From end to end -/

theorem Writing.exists_here? {w : Writing} (hshort : w.IsShort) : ∃ m, pattern.here? (Cursor.start w.core) = some m ∧
    m.groupText 1 = w.owner ∧ m.groupText 2 = w.name := by
  have howner := isIdWord_iff.mp w.owner_isIdWord
  have hname := isIdWord_iff.mp w.name_isIdWord
  have hpos := List.length_pos_of_ne_nil hname.1
  have h : w.core.drop 0 = w.host ++ (w.owner ++ '/' :: (w.name ++ (w.ending ++ w.slash))) := by
    rw [List.drop_zero, core, List.append_assoc]
  have hownerDrop := drop_add_length h
  have hslashDrop : w.core.drop (0 + w.host.length + w.owner.length) =
      "/".toList ++ (w.name ++ (w.ending ++ w.slash)) := drop_add_length hownerDrop
  have hnameDrop := drop_add_length hslashDrop
  obtain ⟨e, hend⟩ := takes_end w.ending_mem w.slash_mem (drop_add_length hnameDrop)
  have hkeep := hend.keep_lazy1_seq (n := 2) (by omega) (throughout_of_drop hnameDrop hname.2) fun l hil hlj =>
    Writing.not_spans_end hshort hnameDrop hil hlj
  have hownerTaken := takes_some1_of_ne_nil howner.1 hownerDrop howner.2 (forall_mem_head? (by decide))
  have hstart : Takes w.core (.edge .textStart) 0 0 [] := takes_edge rfl
  have hwords := (hownerTaken.group (n := 1)).seq (hkeep.after (takes_text hslashDrop))
  have htaken : Takes w.core pattern 0 e _ := (hwords.after (takes_host w.host_mem howner.2 h)).after hstart
  exact ⟨_, htaken.here?, text_stretch hownerDrop, text_stretch hnameDrop⟩

theorem exists_writing_of_spans {id : List Char} {e : Nat} (h : pattern.Spans (trim id) 0 e) :
    ∃ w : Writing, w.text = id := by
  obtain ⟨_, ⟨-, rfl⟩, i, hhost, j, howner, k, hslash, l, hname, hend⟩ := h
  obtain ⟨host, hhost, hhostDrop⟩ := exists_host_of_spans_opt hhost
  obtain ⟨owner, hownerDrop, -, hownerNe, howner⟩ := exists_append_of_spans_some1 howner
  obtain ⟨name, hnameDrop, -, hnameNe, hname⟩ := exists_append_of_spans_some1 hname
  obtain ⟨ending, hending, slash, hslashMem, last, hlastMem, hendDrop⟩ := exists_end_of_spans hend
  obtain ⟨before, after, hid, hbefore, hafter, -, hsolid⟩ := exists_trim_eq id
  have hcore : trim id = host ++ (owner ++ '/' :: (name ++ ending ++ slash)) ++ last := by
    rw [← List.drop_zero (l := trim id), hhostDrop, hownerDrop, drop_of_spans_text hslash, hnameDrop, hendDrop]
    simp [List.append_assoc]
  -- a text without blanks around it does not end with a line feed
  obtain rfl : last = [] := by
    rcases List.mem_pair.mp hlastMem with rfl | rfl
    · rfl
    · exact absurd (hsolid '\n' (by rw [hcore, List.getLast?_append_of_ne_nil _ (List.cons_ne_nil _ _)]; rfl)) (by decide)
  refine ⟨⟨before, host, owner, name, ending, slash, after, hbefore, hhost, isIdWord_iff.mpr ⟨hownerNe, howner⟩,
    isIdWord_iff.mpr ⟨hnameNe, hname⟩, hending, hslashMem, hafter⟩, ?_⟩
  rw [List.append_nil] at hcore
  rw [hid, hcore, List.append_assoc]
  rfl

/-- An id is read as the one pattern says of it, without the blanks around it. -/
theorem parse?_eq_here? (id : String) : parse? id = (pattern.here? (Cursor.start (trim id.toList))).map
    fun m => ⟨String.ofList (m.groupText 1), String.ofList (m.groupText 2)⟩ := by
  cases hparse : parse? id with
  | some repo =>
    obtain ⟨w, hshort, htext, rfl⟩ := exists_writing_of_parse? hparse
    obtain ⟨m, hm, howner, hname⟩ := Writing.exists_here? hshort
    rw [← htext, w.trim_text, hm, Option.map_some, howner, hname]
    rfl
  | none =>
    rw [eq_comm, Option.map_eq_none_iff, Option.eq_none_iff_forall_ne_some]
    intro m hm
    have hstart : pattern.here? (on (trim id.toList) 0) = some m := hm
    obtain ⟨-, e, -, hspans⟩ := here?_eq_some hstart
    obtain ⟨w, hw⟩ := exists_writing_of_spans hspans
    exact w.parse?_ne_none (by rw [hw, String.ofList_toList, hparse])

/-! ## The whole -/

/-- An id that is written with a name which does not end like an address is read as its owner and that name. What is read
is written so, and nothing else is read. A name is read whole exactly if that ending is all of it or stands a second
time. All of this is what the one pattern says. -/
theorem parse?_writings :
    (∀ w : Writing, ¬ ".git".toList <:+ w.name → parse? (String.ofList w.text) = some w.repo) ∧
    (∀ id repo, parse? id = some repo → ∃ w : Writing, w.text = id.toList ∧ w.repo = repo) ∧
    (∀ id, parse? id = none ↔ ∀ w : Writing, w.text ≠ id.toList) ∧
    (∀ w : Writing, parse? (String.ofList w.text) = some w.repo ↔ w.IsShort) ∧
    ∀ id, parse? id = (pattern.here? (Cursor.start (trim id.toList))).map
      fun m => ⟨String.ofList (m.groupText 1), String.ofList (m.groupText 2)⟩ := by
  refine ⟨fun w hname => ?_, fun id repo h => ?_, fun id => ⟨fun h w hw => ?_, fun h => ?_⟩, fun w =>
    ⟨fun h => ?_, w.parse?_text⟩, parse?_eq_here?⟩
  · exact w.parse?_text fun _ front hfront => absurd ⟨front, hfront.symm⟩ hname
  · obtain ⟨w, -, hw⟩ := exists_writing_of_parse? h
    exact ⟨w, hw⟩
  · exact w.parse?_ne_none (by rw [hw, String.ofList_toList, h])
  · cases hparse : parse? id with
    | none => rfl
    | some repo =>
      obtain ⟨w, -, hw, -⟩ := exists_writing_of_parse? hparse
      exact absurd hw (h w)
  · obtain ⟨w', hshort, htext, hname⟩ := w.exists_isShort
    have hread := w'.parse?_text hshort
    rw [htext, h] at hread
    have hrepo : w.repo = w'.repo := Option.some.inj hread
    exact hname (String.ofList_inj.mp (congrArg RepoId.name hrepo)).symm

/-- Words of ids that look like a host or an ending are read as owner and name. -/
theorem parse?_writings_lookalike : parse? "\thttp://github.com/.git/github.com.git/ " = some ⟨".git", "github.com"⟩ :=
  parse?_writings.1 ⟨['\t'], "http://github.com/".toList, ".git".toList, "github.com".toList, ".git".toList, ['/'], [' '],
    List.all_eq_true.mp rfl, by decide, by decide, by decide, by decide, by decide, List.all_eq_true.mp rfl⟩ (by decide)

end CodeCensus.RepoId
