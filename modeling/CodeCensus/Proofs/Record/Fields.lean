import CodeCensus.Proofs.Record.Codec
import Mathlib.Data.List.Pairwise

/-! Codecs of records from what their fields are. A record is read through the entries of its fields alone, so that
what else a table holds makes no difference, nor does an entry under the underscored spelling of a name beside one
under the other. -/

namespace CodeCensus.Lax

/-! ## Names of fields -/

structure Naming where
  camelCase : String
  underscored : String
  deriving DecidableEq, Repr

namespace Naming

def spelled (n : Naming) : Spelling → String
  | .camelCase => n.camelCase
  | .underscored => n.underscored

def entry (n : Naming) (d : Data) : Option Data := Lax.entry n.camelCase n.underscored d

/-- No spelling of one name is a spelling of the other. -/
def Apart (m n : Naming) : Prop :=
  m.camelCase ≠ n.camelCase ∧ m.underscored ≠ n.underscored ∧
    m.camelCase ≠ n.underscored ∧ m.underscored ≠ n.camelCase

instance (m n : Naming) : Decidable (Apart m n) :=
  inferInstanceAs (Decidable (_ ∧ _ ∧ _ ∧ _))

instance : Std.Symm Apart where
  symm _ _ h := ⟨h.1.symm, h.2.1.symm, h.2.2.2.symm, h.2.2.1.symm⟩

theorem Apart.spelled_ne {m n : Naming} (h : Apart m n) (s t : Spelling) : m.spelled s ≠ n.spelled t := by
  cases s <;> cases t
  · exact h.1
  · exact h.2.2.1
  · exact h.2.2.2
  · exact h.2.1

end Naming

def Unambiguous (names : List Naming) : Prop := names.Pairwise Naming.Apart

instance (names : List Naming) : Decidable (Unambiguous names) :=
  inferInstanceAs (Decidable (names.Pairwise Naming.Apart))

def spelledFields (s : Spelling) (fields : List (Naming × Data)) : List (String × Data) :=
  fields.map fun field => (field.1.spelled s, field.2)

theorem nodup_spelledFields {fields : List (Naming × Data)} (h : Unambiguous (fields.map Prod.fst)) (s : Spelling) :
    ((spelledFields s fields).map Prod.fst).Nodup := by
  rw [spelledFields, List.map_map]
  exact List.pairwise_map.mpr ((List.pairwise_map.mp h).imp fun happart => happart.spelled_ne s s)

/-- In a table with all names spelled in one of the two ways, each field is found. -/
theorem entry_record {fields : List (Naming × Data)} (h : Unambiguous (fields.map Prod.fst)) (s : Spelling)
    {field : Naming × Data} (hfield : field ∈ fields) :
    field.1.entry (.record (spelledFields s fields)) = some field.2 := by
  have hfound (f : Naming × Data) (hf : f ∈ fields) :
      (Data.record (spelledFields s fields)).get? (f.1.spelled s) = some f.2 := by
    rw [Data.get?_record]
    exact lookup_eq_some_of_mem (nodup_spelledFields h s) (List.mem_map_of_mem hf)
  rw [Naming.entry, Lax.entry]
  cases s with
  | camelCase =>
    rw [show (Data.record _).get? field.1.camelCase = _ from hfound field hfield]
    rfl
  | underscored =>
    cases hcamelCase : (Data.record (spelledFields .underscored fields)).get? field.1.camelCase with
    | none => exact hfound field hfield
    | some v =>
      rw [Data.get?_record] at hcamelCase
      obtain ⟨other, hother, heq⟩ := List.mem_map.mp (mem_of_lookup_eq_some hcamelCase)
      obtain ⟨hname, rfl⟩ := Prod.mk.inj heq
      have hsame : other.1 = field.1 := by
        by_contra hne
        have happart := List.Pairwise.forall h (List.mem_map_of_mem hother) (List.mem_map_of_mem hfield) hne
        exact happart.spelled_ne .underscored .camelCase hname
      have hvalue := hfound field hfield
      rw [← hsame, hfound other hother] at hvalue
      exact hvalue

/-! ## Fields -/

/-- Some fields of a record: what they are called, when what is found there is alike, and how their values are read
from a table and written. -/
structure Fields (α : Type) where
  asked : List (Naming × (Data → Data → Prop))
  read : Data → Option α
  write : Spelling → α → List (Naming × Data)
  IsValid : α → Prop
  alike_refl : ∀ f ∈ asked, ∀ d, f.2 d d
  names_write : ∀ s a, (write s a).map Prod.fst = asked.map Prod.fst
  read_write : ∀ s {a d}, IsValid a → (∀ f ∈ write s a, f.1.entry d = some f.2) → read d = some a
  isValid_of_read : ∀ {d a}, read d = some a → IsValid a
  read_congr : ∀ {d e}, (∀ f ∈ asked, Option.Rel f.2 (f.1.entry d) (f.1.entry e)) → read d = read e

namespace Fields

variable {α β : Type}

/-- One field, with what its value is where there is no entry, if it may be missing. -/
def single (camelCase underscored : String) (value : Codec α) (missing : Option α)
    (hmissing : ∀ a ∈ missing, value.IsValid a) : Fields α where
  asked := [(⟨camelCase, underscored⟩, value.Alike)]
  read d :=
    match Lax.entry camelCase underscored d with
    | none => missing
    | some v => value.read v
  write s a := [(⟨camelCase, underscored⟩, value.write s a)]
  IsValid := value.IsValid
  alike_refl f hf := by
    obtain rfl := List.mem_singleton.mp hf
    exact value.alike_refl
  names_write _ _ := rfl
  read_write s a d h hentries := by
    have hentry := hentries _ List.mem_cons_self
    rw [Naming.entry] at hentry
    rw [hentry]
    exact value.read_write s h
  isValid_of_read {d a} h := by
    cases hentry : Lax.entry camelCase underscored d with
    | none =>
      rw [hentry] at h
      exact hmissing a h
    | some v =>
      rw [hentry] at h
      exact value.isValid_of_read h
  read_congr {d e} h := by
    have hentry := h _ List.mem_cons_self
    simp only [Naming.entry] at hentry
    generalize Lax.entry camelCase underscored d = found, Lax.entry camelCase underscored e = other at hentry ⊢
    cases hentry with
    | none => rfl
    | some halike => exact value.read_congr halike

def required (camelCase underscored : String) (value : Codec α) : Fields α :=
  single camelCase underscored value none nofun

def optional (camelCase underscored : String) (value : Codec α) (missing : α) (hmissing : value.IsValid missing) :
    Fields α :=
  single camelCase underscored value (some missing) fun _ ha => Option.some.inj ha ▸ hmissing

def and (f : Fields α) (g : Fields β) : Fields (α × β) where
  asked := f.asked ++ g.asked
  read d := do
    let a ← f.read d
    let b ← g.read d
    return (a, b)
  write s both := f.write s both.1 ++ g.write s both.2
  IsValid both := f.IsValid both.1 ∧ g.IsValid both.2
  alike_refl field hfield := (List.mem_append.mp hfield).elim (f.alike_refl field) (g.alike_refl field)
  names_write s both := by rw [List.map_append, List.map_append, f.names_write, g.names_write]
  read_write s both d h hentries := by
    have hf := f.read_write s h.1 fun field hfield => hentries field (List.mem_append_left _ hfield)
    have hg := g.read_write s h.2 fun field hfield => hentries field (List.mem_append_right _ hfield)
    rw [hf, hg]
    rfl
  isValid_of_read {d both} h := by
    obtain ⟨a, ha, h⟩ := Option.bind_eq_some_iff.mp h
    obtain ⟨b, hb, h⟩ := Option.bind_eq_some_iff.mp h
    obtain rfl := Option.some.inj h
    exact ⟨f.isValid_of_read ha, g.isValid_of_read hb⟩
  read_congr {d e} h := by
    rw [f.read_congr fun field hfield => h field (List.mem_append_left _ hfield),
      g.read_congr fun field hfield => h field (List.mem_append_right _ hfield)]

section

variable {camelCase underscored : String} {value : Codec α} {missing a : α} {f : Fields α} {g : Fields β} {both : α × β}

@[simp] theorem read_required :
    (required camelCase underscored value).read = Lax.required value.read camelCase underscored := by
  funext d
  change (match Lax.entry camelCase underscored d with | none => none | some v => value.read v) = _
  rw [Lax.required]
  cases Lax.entry camelCase underscored d <;> rfl

@[simp] theorem read_optional {h : value.IsValid missing} :
    (optional camelCase underscored value missing h).read =
      Lax.optional value.read missing camelCase underscored := rfl

@[simp] theorem read_and (d : Data) :
    (f.and g).read d = (f.read d).bind fun a => (g.read d).bind fun b => some (a, b) := rfl

@[simp] theorem isValid_required : (required camelCase underscored value).IsValid a ↔ value.IsValid a := Iff.rfl

@[simp] theorem isValid_optional {h : value.IsValid missing} :
    (optional camelCase underscored value missing h).IsValid a ↔ value.IsValid a := Iff.rfl

@[simp] theorem isValid_and : (f.and g).IsValid both ↔ f.IsValid both.1 ∧ g.IsValid both.2 := Iff.rfl

end

end Fields

/-! ## Records -/

/-- A codec of records, whose tables are alike if they are for all of its fields. -/
structure RecordCodec (α : Type) extends Codec α where
  names : List Naming
  unambiguous : Unambiguous names
  write_eq_record : ∀ s a, ∃ fields, write s a = .record fields ∧ fields.map Prod.fst = names.map (·.spelled s)
  alike_of_entries : ∀ {entries others}, (∀ n ∈ names, n.entry (.table entries) = n.entry (.table others)) →
    Alike (.table entries) (.table others)

def Fields.record {α β : Type} (f : Fields α) (make : α → β) (parts : β → α) (IsValid : β → Prop)
    (unambiguous : Unambiguous (f.asked.map Prod.fst)) (make_parts : ∀ b, make (parts b) = b)
    (isValid_make : ∀ a, IsValid (make a) ↔ f.IsValid a) : RecordCodec β where
  read := ofTable fun d => (f.read d).map make
  write s b := .record (spelledFields s (f.write s (parts b)))
  IsValid := IsValid
  Alike d e := d = e ∨ d.isTable ∧ e.isTable ∧ ∀ field ∈ f.asked, Option.Rel field.2 (field.1.entry d) (field.1.entry e)
  alike_refl _ := .inl rfl
  read_write s b h := by
    have hvalid : f.IsValid (parts b) := by rwa [← isValid_make, make_parts]
    have hnames : Unambiguous ((f.write s (parts b)).map Prod.fst) := by rwa [f.names_write]
    have hread := f.read_write s hvalid fun field hfield => entry_record hnames s hfield
    have htable : (Data.record (spelledFields s (f.write s (parts b)))).isTable = true := rfl
    rw [ofTable, if_pos htable, hread, Option.map_some, make_parts]
  isValid_of_read {d b} h := by
    rw [ofTable] at h
    split at h
    · obtain ⟨a, ha, rfl⟩ := Option.map_eq_some_iff.mp h
      exact (isValid_make a).mpr (f.isValid_of_read ha)
    · cases h
  read_congr {d e} h := by
    rcases h with rfl | ⟨hd, he, halike⟩
    · rfl
    · rw [ofTable, ofTable, if_pos hd, if_pos he, f.read_congr halike]
  names := f.asked.map Prod.fst
  unambiguous := unambiguous
  write_eq_record s b := by
    refine ⟨_, rfl, ?_⟩
    rw [← f.names_write s (parts b), spelledFields, List.map_map, List.map_map]
    rfl
  alike_of_entries {entries others} h := by
    refine .inr ⟨rfl, rfl, fun field hfield => ?_⟩
    rw [h field.1 (List.mem_map_of_mem hfield)]
    cases field.1.entry (.table others) with
    | none => exact .none
    | some v => exact .some (f.alike_refl field hfield v)

section

variable {α β : Type} {f : Fields α} {make : α → β} {parts : β → α} {IsValid : β → Prop}
  {unambiguous : Unambiguous (f.asked.map Prod.fst)} {make_parts : ∀ b, make (parts b) = b}
  {isValid_make : ∀ a, IsValid (make a) ↔ f.IsValid a}

@[simp] theorem Fields.read_record (d : Data) :
    (f.record make parts IsValid unambiguous make_parts isValid_make).read d =
      if d.isTable then (f.read d).bind fun a => some (make a) else none := by
  have hmap : (f.read d).map make = (f.read d).bind fun a => some (make a) := Option.map_eq_bind
  rw [← hmap]
  rfl

@[simp] theorem Fields.isValid_record :
    (f.record make parts IsValid unambiguous make_parts isValid_make).IsValid = IsValid := rfl

end

namespace RecordCodec

variable {α : Type} (c : RecordCodec α) {n : Naming} {key value v : Data} {entries : List (Data × Data)}

/-- A key that is no spelling of a name is passed over. -/
theorem alike_put_of_unknown (h : ∀ n ∈ c.names, ∀ s, key ≠ .text (n.spelled s)) :
    c.Alike (.table (Data.put key value entries)) (.table entries) := by
  refine c.alike_of_entries fun n hn => ?_
  have hcamelCase : key ≠ .text n.camelCase := h n hn .camelCase
  have hunderscored : key ≠ .text n.underscored := h n hn .underscored
  rw [Naming.entry, Naming.entry, Lax.entry, Lax.entry, Data.get?, Data.get?, Data.get?, Data.get?,
    Data.find?_put_of_ne_text hcamelCase, Data.find?_put_of_ne_text hunderscored]

/-- What stands under the underscored spelling of a name is passed over beside an entry under the other. -/
theorem alike_put_underscored (hn : n ∈ c.names) (hne : n.camelCase ≠ n.underscored)
    (h : (Data.table entries).get? n.camelCase = some v) :
    c.Alike (.table (Data.put (.text n.underscored) value entries)) (.table entries) := by
  have hfound : (Data.table (Data.put (.text n.underscored) value entries)).get? n.camelCase = some v :=
    (Data.find?_put_of_ne hne value entries).trans h
  refine c.alike_of_entries fun m hm => ?_
  by_cases hmn : m = n
  · rw [hmn, Naming.entry, Naming.entry, Lax.entry, Lax.entry, h, hfound]
    rfl
  · have happart := List.Pairwise.forall c.unambiguous hm hn hmn
    rw [Naming.entry, Naming.entry, Lax.entry, Lax.entry, Data.get?, Data.get?, Data.get?, Data.get?,
      Data.find?_put_of_ne happart.2.2.1, Data.find?_put_of_ne happart.2.1]

end RecordCodec

end CodeCensus.Lax
