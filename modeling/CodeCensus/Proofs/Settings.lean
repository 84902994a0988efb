import CodeCensus.Proofs.Lookup
import CodeCensus.Proofs.Record.Codec
import CodeCensus.Settings

/-! How settings are made from options. The first attempt finds every option that is not valid and the second, without
these, succeeds, so that each setting comes of its own option or is the usual one. -/

namespace CodeCensus

/-- What the settings consist of. -/
inductive Setting where
  | batchSize
  | batchDelay
  | maxContentChars
  | excludeDirs
  | extraExcludeDirs
  deriving DecidableEq, Repr

namespace Setting

/-- The option that a setting comes of. -/
def key : Setting → String
  | .batchSize => "batch_size"
  | .batchDelay => "batch_delay"
  | .maxContentChars => "max_content_chars"
  | .excludeDirs => "exclude_dirs"
  | .extraExcludeDirs => "extra_exclude_dirs"

def Value : Setting → Type
  | .batchSize => { n : Nat // 1 ≤ n }
  | .batchDelay => Double
  | .maxContentChars => Nat
  | .excludeDirs => List String
  | .extraExcludeDirs => List String

def of : (setting : Setting) → Settings → setting.Value
  | .batchSize, s => ⟨s.batchSize, s.batchSize_pos⟩
  | .batchDelay, s => s.batchDelay
  | .maxContentChars, s => s.maxContentChars
  | .excludeDirs, s => s.excludeDirs
  | .extraExcludeDirs, s => s.extraExcludeDirs

/-- A value is valid for a setting and stands for what the setting then is. -/
def Accepts : (setting : Setting) → Data → setting.Value → Prop
  | .batchSize, d, n => Lax.int d = some (n.1 : Int)
  | .batchDelay, d, x => Lax.double d = some x ∧ x.nonNegative = true
  | .maxContentChars, d, n => Lax.int d = some (Int.ofNat n)
  | .excludeDirs, d, names | .extraExcludeDirs, d, names =>
    ∃ items, d.items? = some items ∧ List.Forall₂ (fun item name => Lax.text item = some name) items names

def read : (setting : Setting) → Lax.Reader setting.Value
  | .batchSize => Lax.natAtLeast 1
  | .batchDelay => Lax.nonNegativeDouble
  | .maxContentChars => Lax.natFrom 0
  | .excludeDirs => Lax.list Lax.text
  | .extraExcludeDirs => Lax.list Lax.text

def check : Setting → Data → List (Option Nat)
  | .batchSize => Settings.valueFlaws (Lax.natAtLeast 1)
  | .batchDelay => Settings.valueFlaws Lax.nonNegativeDouble
  | .maxContentChars => Settings.valueFlaws (Lax.natFrom 0)
  | .excludeDirs => Settings.listFlaws Lax.text
  | .extraExcludeDirs => Settings.listFlaws Lax.text

def all : List Setting := [.batchSize, .batchDelay, .maxContentChars, .excludeDirs, .extraExcludeDirs]

theorem mem_all (setting : Setting) : setting ∈ all := by
  cases setting <;> decide

theorem key_injective : Function.Injective key := by
  intro a b h
  cases a <;> cases b <;> first | rfl | (revert h; decide)

theorem checks_eq : Settings.checks = all.map fun setting => (setting.key, setting.check) := rfl

end Setting

/-! ## Valid values -/

namespace Lax

theorem natAtLeast_eq_some_iff {least : Nat} {d : Data} {n : { n : Nat // least ≤ n }} :
    natAtLeast least d = some n ↔ int d = some (n.1 : Int) := by
  obtain ⟨n, hn⟩ := n
  rw [natAtLeast, Option.bind_eq_some_iff]
  constructor
  · rintro ⟨m, hm, hbound⟩
    split at hbound
    · have hvalue : m.toNat = n := congrArg Subtype.val (Option.some.inj hbound)
      refine hm.trans (congrArg some ?_)
      change m = (n : Int)
      omega
    · cases hbound
  · intro hd
    refine ⟨n, hd, ?_⟩
    rw [dif_pos (Int.ofNat_le.mpr hn)]
    simp

theorem natFrom_eq_some_iff {least : Nat} {d : Data} {n : Nat} :
    natFrom least d = some n ↔ least ≤ n ∧ int d = some (n : Int) := by
  rw [natFrom, Option.map_eq_some_iff]
  constructor
  · rintro ⟨m, hm, rfl⟩
    exact ⟨m.2, natAtLeast_eq_some_iff.mp hm⟩
  · exact fun h => ⟨⟨n, h.1⟩, natAtLeast_eq_some_iff.mpr h.2, rfl⟩

theorem nonNegativeDouble_eq_some_iff {d : Data} {x : Double} :
    nonNegativeDouble d = some x ↔ double d = some x ∧ x.nonNegative = true := by
  rw [nonNegativeDouble, Option.bind_eq_some_iff]
  constructor
  · rintro ⟨y, hy, hx⟩
    obtain ⟨hbound, hsame⟩ := Option.ite_none_right_eq_some.mp hx
    obtain rfl := Option.some.inj hsame
    exact ⟨hy, hbound⟩
  · exact fun h => ⟨x, h.1, if_pos h.2⟩

theorem list_eq_some_iff {α : Type} {item : Reader α} {d : Data} {found : List α} :
    list item d = some found ↔
      ∃ items, d.items? = some items ∧ List.Forall₂ (fun i a => item i = some a) items found := by
  rw [list, Option.bind_eq_some_iff]
  exact exists_congr fun items => and_congr_right fun _ => mapM_eq_some_iff

theorem mapM_eq_none_iff {α β : Type} {f : α → Option β} {l : List α} : l.mapM f = none ↔ ∃ a ∈ l, f a = none := by
  induction l with
  | nil => simp
  | cons a l ih =>
    rw [List.mapM_cons]
    cases ha : f a with
    | none => simp [ha]
    | some b =>
      have hcons : (∃ a' ∈ a :: l, f a' = none) ↔ ∃ a' ∈ l, f a' = none := by simp [ha]
      rw [hcons, ← ih]
      cases l.mapM f <;> simp

end Lax

namespace Setting

theorem read_eq_some_iff {setting : Setting} {d : Data} {x : setting.Value} :
    setting.read d = some x ↔ setting.Accepts d x := by
  cases setting with
  | batchSize => exact Lax.natAtLeast_eq_some_iff
  | batchDelay => exact Lax.nonNegativeDouble_eq_some_iff
  | maxContentChars => exact Lax.natFrom_eq_some_iff.trans (and_iff_right (Nat.zero_le x))
  | excludeDirs => exact Lax.list_eq_some_iff
  | extraExcludeDirs => exact Lax.list_eq_some_iff

theorem read_eq_none_iff {setting : Setting} {d : Data} : setting.read d = none ↔ ∀ x, ¬ setting.Accepts d x := by
  rw [Option.eq_none_iff_forall_ne_some]
  exact forall_congr' fun x => not_congr read_eq_some_iff

/-- An option is there for a setting, not null and valid, and this is what it says. -/
def IsSaid (setting : Setting) (options : Data) (x : setting.Value) : Prop :=
  ∃ d, options.get? setting.key = some d ∧ d ≠ .null ∧ setting.Accepts d x

theorem read_null (setting : Setting) : setting.read .null = none := by
  cases setting <;> rfl

end Setting

namespace Settings

/-! ## What is not valid -/

theorem valueFlaws_ne_nil_iff {α : Type} {read : Lax.Reader α} {d : Data} : valueFlaws read d ≠ [] ↔ read d = none := by
  rw [valueFlaws]
  cases read d <;> simp

theorem listFlaws_ne_nil_iff {α : Type} {item : Lax.Reader α} {d : Data} :
    listFlaws item d ≠ [] ↔ Lax.list item d = none := by
  rw [listFlaws, Lax.list]
  cases d.items? with
  | none => simp
  | some items =>
    rw [Option.bind_some, Lax.mapM_eq_none_iff]
    simp only [ne_eq, List.map_eq_nil_iff, List.filter_eq_nil_iff, Option.isNone_iff_eq_none, not_forall, not_not]
    constructor
    · rintro ⟨entry, hentry, hnone⟩
      exact ⟨entry.1, List.fst_mem_of_mem_zipIdx hentry, hnone⟩
    · rintro ⟨d, hd, hnone⟩
      obtain ⟨i, hi, rfl⟩ := List.getElem_of_mem hd
      exact ⟨(items[i], i), List.mk_mem_zipIdx_iff_getElem?.mpr (List.getElem?_eq_getElem hi), hnone⟩

theorem check_ne_nil_iff {setting : Setting} {d : Data} : setting.check d ≠ [] ↔ setting.read d = none := by
  cases setting with
  | batchSize => exact valueFlaws_ne_nil_iff
  | batchDelay => exact valueFlaws_ne_nil_iff
  | maxContentChars => exact valueFlaws_ne_nil_iff
  | excludeDirs => exact listFlaws_ne_nil_iff
  | extraExcludeDirs => exact listFlaws_ne_nil_iff

theorem mem_flaws_iff {setting : Setting} {options : Data} :
    setting.key ∈ (flaws options).map Flaw.option ↔ ∃ d, options.get? setting.key = some d ∧ setting.read d = none := by
  have hoption {flaw : Flaw} : flaw ∈ flaws options ↔ ∃ other : Setting, ∃ d, options.get? other.key = some d ∧
      ∃ item ∈ other.check d, ⟨other.key, item⟩ = flaw := by
    rw [flaws, Setting.checks_eq, List.flatMap_map, List.mem_flatMap]
    refine exists_congr fun other => (and_iff_right other.mem_all).trans ?_
    dsimp only
    cases options.get? other.key with
    | none => simp
    | some d => simp
  simp only [List.mem_map, hoption]
  constructor
  · rintro ⟨_, ⟨other, d, hd, item, hitem, rfl⟩, hkey⟩
    obtain rfl := Setting.key_injective hkey
    exact ⟨d, hd, check_ne_nil_iff.mp (List.ne_nil_of_mem hitem)⟩
  · rintro ⟨d, hd, hnone⟩
    obtain ⟨item, hitem⟩ := List.exists_mem_of_ne_nil _ (check_ne_nil_iff.mpr hnone)
    exact ⟨_, ⟨setting, d, hd, item, hitem, rfl⟩, rfl⟩

/-! ## One attempt -/

/-- Every option that is there for a setting is valid for it. -/
def AllValid (options : Data) : Prop :=
  ∀ (setting : Setting) (d : Data), options.get? setting.key = some d → setting.read d ≠ none

theorem optional_eq_some_iff {α : Type} {read : Lax.Reader α} {missing x : α} {key : String} {options : Data} :
    Lax.optional read missing key key options = some x ↔
      (∀ d, options.get? key = some d → read d ≠ none) ∧ (option? read key options).getD missing = x := by
  have hentry : Lax.entry key key options = options.get? key := by
    rw [Lax.entry]
    cases options.get? key <;> rfl
  rw [Lax.optional, hentry, option?]
  cases options.get? key with
  | none => simp
  | some d =>
    rw [Option.bind_some]
    cases hread : read d with
    | none => simp [hread]
    | some y => simp [hread]

theorem ofOptions?_eq_some_iff {options : Data} {s : Settings} :
    ofOptions? options = some s ↔ AllValid options ∧ ofOptions options = s := by
  simp only [ofOptions?, Option.bind_eq_bind, Option.bind_eq_some_iff, optional_eq_some_iff, Option.pure_def,
    Option.some.injEq]
  constructor
  · rintro ⟨size, ⟨hsize, rfl⟩, delay, ⟨hdelay, rfl⟩, chars, ⟨hchars, rfl⟩, dirs, ⟨hdirs, rfl⟩, extra, ⟨hextra, rfl⟩, rfl⟩
    refine ⟨fun setting => ?_, rfl⟩
    cases setting with
    | batchSize => exact hsize
    | batchDelay => exact hdelay
    | maxContentChars => exact hchars
    | excludeDirs => exact hdirs
    | extraExcludeDirs => exact hextra
  · rintro ⟨hvalid, rfl⟩
    exact ⟨_, ⟨hvalid .batchSize, rfl⟩, _, ⟨hvalid .batchDelay, rfl⟩, _, ⟨hvalid .maxContentChars, rfl⟩, _,
      ⟨hvalid .excludeDirs, rfl⟩, _, ⟨hvalid .extraExcludeDirs, rfl⟩, rfl⟩

theorem of_ofOptions (setting : Setting) (options : Data) :
    setting.of (ofOptions options) = ((options.get? setting.key).bind setting.read).getD (setting.of {}) := by
  cases setting <;> rfl

theorem ofOptions_congr {options options' : Data} (h : ∀ setting : Setting,
    (options'.get? setting.key).bind setting.read = (options.get? setting.key).bind setting.read) :
    ofOptions options' = ofOptions options := by
  have hsize : option? (Lax.natAtLeast 1) "batch_size" options' = option? (Lax.natAtLeast 1) "batch_size" options :=
    h .batchSize
  have hdelay : option? Lax.nonNegativeDouble "batch_delay" options' = option? Lax.nonNegativeDouble "batch_delay" options :=
    h .batchDelay
  have hchars : option? (Lax.natFrom 0) "max_content_chars" options' =
      option? (Lax.natFrom 0) "max_content_chars" options := h .maxContentChars
  have hdirs : option? (Lax.list Lax.text) "exclude_dirs" options' =
      option? (Lax.list Lax.text) "exclude_dirs" options := h .excludeDirs
  have hextra : option? (Lax.list Lax.text) "extra_exclude_dirs" options' =
      option? (Lax.list Lax.text) "extra_exclude_dirs" options := h .extraExcludeDirs
  simp only [ofOptions, hsize, hdelay, hchars, hdirs, hextra]

/-! ## Two attempts -/

theorem get?_keeping (p : String → Bool) (name : String) (options : Data) :
    (keeping p options).get? name = if p name then options.get? name else none := by
  have hentries (entries : List (Data × Data)) :
      Data.find? (.text name) (entries.filter fun entry => entry.1.text?.any p) =
        if p name then Data.find? (.text name) entries else none := by
    induction entries with
    | nil => simp [Data.find?]
    | cons entry entries ih =>
      obtain ⟨k, value⟩ := entry
      rw [List.filter_cons, Data.find?]
      by_cases hk : Data.sameKey k (.text name) = true
      · obtain rfl := Data.sameKey_text_iff.mp hk
        cases hp : p name <;> simp_all [Data.find?, Data.text?]
      · rw [if_neg hk]
        split
        · rw [Data.find?, if_neg hk, ih]
        · exact ih
  cases options with
  | table entries => exact hentries entries
  | _ => simp [keeping, Data.get?, Data.table?, Data.find?]

theorem get?_stated_eq_some_iff {setting : Setting} {options d : Data} :
    (stated options).get? setting.key = some d ↔ options.get? setting.key = some d ∧ d ≠ .null := by
  have hname : (checks.map Prod.fst).contains setting.key = true := by cases setting <;> decide
  rw [stated, get?_keeping, hname, Bool.true_and, isStated]
  cases options.get? setting.key with
  | none => simp
  | some value =>
    cases value with
    | null =>
      simp only [Bool.false_eq_true, if_false, Option.some.injEq]
      exact ⟨fun h => (Option.some_ne_none d h.symm).elim, fun h => absurd h.1.symm h.2⟩
    | _ =>
      simp only [if_true, Option.some.injEq, iff_self_and]
      rintro rfl
      simp

/-- What is null is valid for no setting, so to leave it out makes no difference. -/
theorem bind_read_stated (setting : Setting) (options : Data) :
    ((stated options).get? setting.key).bind setting.read = (options.get? setting.key).bind setting.read := by
  refine Option.ext fun x => ?_
  simp only [Option.bind_eq_some_iff, get?_stated_eq_some_iff]
  refine exists_congr fun d => and_congr_left fun hread => and_iff_left ?_
  rintro rfl
  rw [setting.read_null] at hread
  cases hread

/-- The options that a first attempt leaves for a second one. -/
def unflawed (options : Data) : Data :=
  keeping (fun name => !((flaws options).map Flaw.option).contains name) options

theorem get?_unflawed_eq_some_iff {setting : Setting} {options d : Data} :
    (unflawed options).get? setting.key = some d ↔ options.get? setting.key = some d ∧ setting.read d ≠ none := by
  rw [unflawed, get?_keeping]
  by_cases hflawed : setting.key ∈ (flaws options).map Flaw.option
  · obtain ⟨value, hvalue, hnone⟩ := mem_flaws_iff.mp hflawed
    rw [if_neg (by simpa using hflawed), hvalue]
    refine iff_of_false (Option.some_ne_none d).symm ?_
    rintro ⟨hd, hread⟩
    rw [← Option.some.inj hd] at hread
    exact hread hnone
  · rw [if_pos (by simpa using hflawed)]
    exact (and_iff_left_of_imp fun hd hnone => hflawed (mem_flaws_iff.mpr ⟨d, hd, hnone⟩)).symm

theorem bind_read_unflawed (setting : Setting) (options : Data) :
    ((unflawed options).get? setting.key).bind setting.read = (options.get? setting.key).bind setting.read := by
  refine Option.ext fun x => ?_
  simp only [Option.bind_eq_some_iff, get?_unflawed_eq_some_iff]
  refine exists_congr fun d => and_congr_left fun hread => and_iff_left ?_
  rw [hread]
  exact Option.some_ne_none x

theorem inTwoAttempts_eq (options : Data) : inTwoAttempts options = .ok (ofOptions options) := by
  have hstated : ofOptions (stated options) = ofOptions options :=
    ofOptions_congr fun setting => bind_read_stated setting options
  rw [inTwoAttempts, validated]
  cases hfirst : ofOptions? (stated options) with
  | some s =>
    obtain ⟨-, rfl⟩ := ofOptions?_eq_some_iff.mp hfirst
    exact congrArg Except.ok hstated
  | none =>
    have hvalid : AllValid (unflawed (stated options)) := fun setting d hd => (get?_unflawed_eq_some_iff.mp hd).2
    have hkept : ofOptions (unflawed (stated options)) = ofOptions options :=
      (ofOptions_congr fun setting => bind_read_unflawed setting (stated options)).trans hstated
    have hsecond := ofOptions?_eq_some_iff.mpr ⟨hvalid, hkept⟩
    rw [unflawed] at hsecond
    dsimp only
    rw [validated, hsecond]

/-! ## Setting by setting -/

/-- Options with one more, or with another value for one. -/
def withOption (key value options : Data) : Data := .table (Data.put key value (options.table?.getD []))

theorem get?_withOption_of_ne {name : String} {key : Data} (h : key ≠ .text name) (value options : Data) :
    (withOption key value options).get? name = options.get? name := by
  have hput := Data.find?_put_of_ne_text h value (options.table?.getD [])
  rw [withOption, Data.get?, hput]
  cases options <;> rfl

theorem bind_read_eq_some_iff {setting : Setting} {options : Data} {x : setting.Value} :
    (options.get? setting.key).bind setting.read = some x ↔ setting.IsSaid options x := by
  rw [Option.bind_eq_some_iff]
  refine exists_congr fun d => and_congr_right fun _ => ?_
  rw [Setting.read_eq_some_iff]
  refine (and_iff_right_of_imp fun haccepts => ?_).symm
  rintro rfl
  exact Setting.read_eq_none_iff.mp setting.read_null x haccepts

/-- Settings are made of any options, in two attempts, of which the second leaves out just what is not valid in the
first. Each setting is what its own option says, or the usual one if that says nothing, and no other option bears on
it. -/
theorem inTwoAttempts_settles (options : Data) :
    inTwoAttempts options = .ok (ofOptions options) ∧
    ∀ setting : Setting,
      (setting.IsSaid options (setting.of (ofOptions options)) ∨
        (∀ x, ¬ setting.IsSaid options x) ∧ setting.of (ofOptions options) = setting.of {}) ∧
      (setting.key ∈ (flaws (stated options)).map Flaw.option ↔
        ∃ d, options.get? setting.key = some d ∧ d ≠ .null ∧ ∀ x, ¬ setting.Accepts d x) ∧
      ∀ key value, key ≠ .text setting.key →
        setting.of (ofOptions (withOption key value options)) = setting.of (ofOptions options) := by
  refine ⟨inTwoAttempts_eq options, fun setting => ⟨?_, ?_, fun key value hkey => ?_⟩⟩
  · rw [of_ofOptions]
    cases hvalue : (options.get? setting.key).bind setting.read with
    | some x => exact .inl (bind_read_eq_some_iff.mp hvalue)
    | none => exact .inr ⟨fun x hx => Option.some_ne_none x ((bind_read_eq_some_iff.mpr hx).symm.trans hvalue), rfl⟩
  · simp only [mem_flaws_iff, get?_stated_eq_some_iff, Setting.read_eq_none_iff, and_assoc]
  · rw [of_ofOptions, of_ofOptions, get?_withOption_of_ne hkey]

/-- A number in a text and a truth value for one, and next to them a delay that is no number, a list with an item that
is no text, a null, and an option for no setting. -/
def mixedOptions : Data := .record [
  ("batch_size", .text " 3 "), ("batch_delay", .float .nan), ("max_content_chars", .bool true),
  ("exclude_dirs", .list [.text "out", .int 3]), ("extra_exclude_dirs", .null), ("batchsize", .int 9)]

theorem inTwoAttempts_settles_mixed :
    inTwoAttempts mixedOptions = .ok { batchSize := 3, maxContentChars := 1 } ∧
    flaws (stated mixedOptions) = [⟨"batch_delay", none⟩, ⟨"exclude_dirs", some 1⟩] ∧
    Data.text "batch_size" ≠ .text Setting.maxContentChars.key ∧
    Setting.maxContentChars.of (ofOptions (withOption (.text "batch_size") (.int 0) mixedOptions)) =
      Setting.maxContentChars.of (ofOptions mixedOptions) := by
  have hsettings : ofOptions mixedOptions = { batchSize := 3, maxContentChars := 1 } := by decide +kernel
  have hother : Data.text "batch_size" ≠ .text Setting.maxContentChars.key :=
    fun h => absurd (Data.text.inj h) (by decide)
  obtain ⟨hattempts, hsettles⟩ := inTwoAttempts_settles mixedOptions
  obtain ⟨-, -, hapart⟩ := hsettles .maxContentChars
  exact ⟨by rw [hattempts, hsettings], by decide +kernel, hother, hapart _ _ hother⟩

end Settings

end CodeCensus
