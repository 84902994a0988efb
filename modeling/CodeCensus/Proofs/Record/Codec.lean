import CodeCensus.Proofs.Lookup
import CodeCensus.Record.Codec
import Mathlib.Data.List.Forall2

/-! How values are read and written, put together from how their parts are. What is valid is read back from what is
written, whatever is read is valid, and data that differ only in what is passed over are read alike. -/

namespace CodeCensus.Lax

/-! ## Items read one after the other -/

section mapM

variable {α β : Type} {f g : α → Option β}

theorem mapM_eq_some_iff {l : List α} {found : List β} :
    l.mapM f = some found ↔ List.Forall₂ (fun a b => f a = some b) l found := by
  induction l generalizing found with
  | nil => simp [eq_comm]
  | cons a l ih =>
    rw [List.mapM_cons]
    simp only [Option.bind_eq_bind, Option.bind_eq_some_iff, ih, Option.pure_def, Option.some.injEq]
    constructor
    · rintro ⟨b, hb, rest, hrest, rfl⟩
      exact .cons hb hrest
    · rintro (_ | ⟨hb, hrest⟩)
      exact ⟨_, hb, _, hrest, rfl⟩

theorem exists_of_mem_of_mapM {l : List α} {found : List β} (h : l.mapM f = some found) {b : β} (hb : b ∈ found) :
    ∃ a ∈ l, f a = some b := by
  induction mapM_eq_some_iff.mp h with
  | nil => cases hb
  | cons hab hrest ih =>
    rcases List.mem_cons.mp hb with rfl | hb
    · exact ⟨_, List.mem_cons_self, hab⟩
    · obtain ⟨a, ha, hab⟩ := ih (mapM_eq_some_iff.mpr hrest) hb
      exact ⟨a, List.mem_cons_of_mem _ ha, hab⟩

theorem mapM_congr_forall₂ {l m : List α} (h : List.Forall₂ (fun a b => f a = f b) l m) : l.mapM f = m.mapM f := by
  induction h with
  | nil => rfl
  | cons hab _ ih => rw [List.mapM_cons, List.mapM_cons, hab, ih]

theorem mapM_map_of_forall {write : β → α} {l : List β} (h : ∀ b ∈ l, f (write b) = some b) :
    (l.map write).mapM f = some l := by
  rw [mapM_eq_some_iff, List.forall₂_map_left_iff, List.forall₂_same]
  exact h

end mapM

theorem nullable_of_ne_null {α : Type} {value : Reader α} {d : Data} (h : d ≠ .null) :
    nullable value d = (value d).map some := by
  cases d with
  | null => exact absurd rfl h
  | _ => rfl

theorem text_text (s : String) : text (.text s) = some s := by
  rw [text, written?, Option.map_some, String.ofList_toList]

theorem natFrom_int {least n : Nat} (h : least ≤ n) : natFrom least (.int n) = some n := by
  have hle : (least : Int) ≤ (n : Int) := Int.ofNat_le.mpr h
  rw [natFrom, natAtLeast, int, Option.bind_some, dif_pos hle, Option.map_some]
  exact congrArg some (Int.toNat_natCast n)

/-! ## Codecs -/

/-- The two ways in which names within data are spelled. -/
inductive Spelling where
  | camelCase
  | underscored
  deriving DecidableEq, Repr

/-- How values are read from data and written, with what reading and writing have to do with one another. Data are
alike if they differ only in what is passed over. -/
structure Codec (α : Type) where
  read : Reader α
  write : Spelling → α → Data
  IsValid : α → Prop
  Alike : Data → Data → Prop
  alike_refl : ∀ d, Alike d d
  read_write : ∀ s {a}, IsValid a → read (write s a) = some a
  isValid_of_read : ∀ {d a}, read d = some a → IsValid a
  read_congr : ∀ {d e}, Alike d e → read d = read e

namespace Codec

variable {α : Type}

/-- A codec of values that hold no names. -/
def plain (read : Reader α) (write : α → Data) (IsValid : α → Prop)
    (read_write : ∀ {a}, IsValid a → read (write a) = some a)
    (isValid_of_read : ∀ {d a}, read d = some a → IsValid a) : Codec α where
  read := read
  write _ := write
  IsValid := IsValid
  Alike := Eq
  alike_refl := Eq.refl
  read_write _ _ := read_write
  isValid_of_read := isValid_of_read
  read_congr := congrArg read

def text : Codec String :=
  .plain Lax.text .text (fun _ => True) (fun _ => text_text _) (fun _ => trivial)

def int : Codec Int :=
  .plain Lax.int .int (fun _ => True) (fun _ => rfl) (fun _ => trivial)

def double : Codec Double :=
  .plain Lax.double .float (fun _ => True) (fun _ => rfl) (fun _ => trivial)

def natFrom (least : Nat) : Codec Nat :=
  .plain (Lax.natFrom least) (fun n => .int n) (least ≤ ·) natFrom_int fun h => by
    obtain ⟨⟨n, hn⟩, -, rfl⟩ := Option.map_eq_some_iff.mp h
    exact hn

def percentage : Codec Nat :=
  .plain Census.percentage (fun n => .int n) (· ≤ 100)
    (fun h => by rw [Census.percentage, natFrom_int (Nat.zero_le _), Option.bind_some, if_pos h])
    (fun h => by
      obtain ⟨n, -, hn⟩ := Option.bind_eq_some_iff.mp h
      split at hn
      · obtain rfl := Option.some.inj hn
        assumption
      · cases hn)

/-- One of some words, each of which stands for something else. -/
def word [BEq α] (words : List (String × α)) (h : ∀ a, Lax.word words (wordOf words a) = some a) : Codec α :=
  .plain (Lax.word words) (wordOf words) (fun _ => True) (fun _ => h _) (fun _ => trivial)

def list (item : Codec α) : Codec (List α) where
  read := Lax.list item.read
  write s l := .list (l.map (item.write s))
  IsValid l := ∀ a ∈ l, item.IsValid a
  Alike d e := d = e ∨ ∃ ds es, d = .list ds ∧ e = .list es ∧ List.Forall₂ item.Alike ds es
  alike_refl _ := .inl rfl
  read_write s l h := mapM_map_of_forall fun a ha => item.read_write s (h a ha)
  isValid_of_read {d l} h := by
    obtain ⟨items, -, hitems⟩ := Option.bind_eq_some_iff.mp h
    intro a ha
    obtain ⟨d, -, hd⟩ := exists_of_mem_of_mapM hitems ha
    exact item.isValid_of_read hd
  read_congr {d e} h := by
    rcases h with rfl | ⟨ds, es, rfl, rfl, halike⟩
    · rfl
    · exact mapM_congr_forall₂ (halike.imp fun _ _ => item.read_congr)

def nullable (value : Codec α) (hnull : ∀ s a, value.write s a ≠ .null) : Codec (Option α) where
  read := Lax.nullable value.read
  write s o := (o.map (value.write s)).getD .null
  IsValid o := ∀ a ∈ o, value.IsValid a
  Alike d e := d = e ∨ d ≠ .null ∧ e ≠ .null ∧ value.Alike d e
  alike_refl _ := .inl rfl
  read_write s o h := by
    cases o with
    | none => rfl
    | some a =>
      rw [Option.map_some, Option.getD_some, nullable_of_ne_null (hnull s a), value.read_write s (h a rfl),
        Option.map_some]
  isValid_of_read {d o} h a ha := by
    obtain rfl := Option.mem_def.mp ha
    by_cases hd : d = .null
    · subst hd
      cases h
    · rw [nullable_of_ne_null hd] at h
      obtain ⟨b, hb, hba⟩ := Option.map_eq_some_iff.mp h
      obtain rfl := Option.some.inj hba
      exact value.isValid_of_read hb
  read_congr {d e} h := by
    rcases h with rfl | ⟨hd, he, halike⟩
    · rfl
    · rw [nullable_of_ne_null hd, nullable_of_ne_null he, value.read_congr halike]

def table (value : Codec α) : Codec (List (String × α)) where
  read := Lax.table value.read
  write s named := .record (named.map fun entry => (entry.1, value.write s entry.2))
  IsValid named := (named.map Prod.fst).Nodup ∧ ∀ entry ∈ named, value.IsValid entry.2
  Alike := Eq
  alike_refl := Eq.refl
  read_write s named h := by
    have hentries (entry : String × α) (hentry : entry ∈ named) :
        (do
          let name ← Lax.text (.text entry.1)
          let v ← value.read (value.write s entry.2)
          return (name, v)) = some entry := by
      rw [text_text, value.read_write s (h.2 entry hentry)]
      rfl
    rw [Data.record, List.map_map, Lax.table, mapM_map_of_forall hentries, Option.bind_eq_bind, Option.bind_some]
    exact congrArg some (foldl_assign_of_nodup h.1)
  isValid_of_read {d named} h := by
    cases d with
    | table entries =>
      obtain ⟨read, hread, hnamed⟩ := Option.bind_eq_some_iff.mp h
      obtain rfl := Option.some.inj hnamed
      refine ⟨nodup_keys_foldl_assign List.nodup_nil, fun entry hentry => ?_⟩
      have hmem := (mem_foldl_assign hentry).resolve_right List.not_mem_nil
      obtain ⟨⟨k, v⟩, -, hentry⟩ := exists_of_mem_of_mapM hread hmem
      obtain ⟨name, -, hentry⟩ := Option.bind_eq_some_iff.mp hentry
      obtain ⟨a, ha, hentry⟩ := Option.bind_eq_some_iff.mp hentry
      obtain rfl := Option.some.inj hentry
      exact value.isValid_of_read ha
    | _ => cases h
  read_congr := congrArg _

section

variable {s : String} {n : Int} {x : Double} {m least : Nat} {item : Codec α}

@[simp] theorem read_text : text.read = Lax.text := rfl

@[simp] theorem read_int : int.read = Lax.int := rfl

@[simp] theorem read_double : double.read = Lax.double := rfl

@[simp] theorem read_natFrom : (natFrom least).read = Lax.natFrom least := rfl

@[simp] theorem read_percentage : percentage.read = Census.percentage := rfl

@[simp] theorem read_word [BEq α] {words : List (String × α)}
    {h : ∀ a, Lax.word words (wordOf words a) = some a} : (word words h).read = Lax.word words := rfl

@[simp] theorem read_list : (list item).read = Lax.list item.read := rfl

@[simp] theorem read_nullable {hnull : ∀ s a, item.write s a ≠ .null} :
    (nullable item hnull).read = Lax.nullable item.read := rfl

@[simp] theorem read_table : (table item).read = Lax.table item.read := rfl

@[simp] theorem isValid_text : text.IsValid s := trivial

@[simp] theorem isValid_int : int.IsValid n := trivial

@[simp] theorem isValid_double : double.IsValid x := trivial

@[simp] theorem isValid_natFrom : (natFrom least).IsValid m ↔ least ≤ m := Iff.rfl

@[simp] theorem isValid_percentage : percentage.IsValid m ↔ m ≤ 100 := Iff.rfl

@[simp] theorem isValid_word [BEq α] {words : List (String × α)}
    {h : ∀ a, Lax.word words (wordOf words a) = some a} {a : α} : (word words h).IsValid a := trivial

@[simp] theorem isValid_list {l : List α} : (list item).IsValid l ↔ ∀ a ∈ l, item.IsValid a := Iff.rfl

@[simp] theorem isValid_nullable {hnull : ∀ s a, item.write s a ≠ .null} {o : Option α} :
    (nullable item hnull).IsValid o ↔ ∀ a ∈ o, item.IsValid a := Iff.rfl

@[simp] theorem isValid_table {named : List (String × α)} :
    (table item).IsValid named ↔ (named.map Prod.fst).Nodup ∧ ∀ entry ∈ named, item.IsValid entry.2 := Iff.rfl

end

end Codec

end CodeCensus.Lax
