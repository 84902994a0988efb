import CodeCensus.Proofs.Except
import CodeCensus.Proofs.Text.Base64
import CodeCensus.Proofs.Text.Utf8
import CodeCensus.Remote.GitHub

/-! The content of a file, whatever the interface replies: it is read exactly where the reply gives base64, and
every other reply is a failure to fetch that file. What is read are the bytes that were encoded, and of these the parts
that are UTF-8 are read as they were written. -/

namespace CodeCensus.Remote

open Text

/-- A reply gives a content: that text stands under the name of the content, and nothing is said of its encoding but that
it is base64. -/
def Reply.Gives (reply : Reply) (content : String) : Prop :=
  ∃ fields, reply = .document (.table fields) ∧
    (Data.table fields).get? "content" = some (.text content) ∧
    ∀ encoding, (Data.table fields).get? "encoding" = some encoding → encoding = .text "base64"

/-- A reply holds a text: the content that it gives is base64 for bytes that are read as that text. -/
def Reply.Holds (reply : Reply) (text : String) : Prop :=
  ∃ content bytes, reply.Gives content ∧ Base64.decode content.toList = .ok bytes ∧
    text = String.ofList (Utf8.decode bytes)

variable {reply : Reply} {content path text : String} {bytes : List UInt8}

theorem bytesOf_eq_ok_iff {d : Data} :
    bytesOf d = .ok bytes ↔ ∃ content : String, d = .text content ∧ Base64.decode content.toList = .ok bytes := by
  constructor
  · intro h
    cases d with
    | text content =>
      refine ⟨content, rfl, ?_⟩
      rw [bytesOf] at h
      cases hdecode : Base64.decode content.toList with
      | error refusal => simp [hdecode] at h
      | ok found => simpa [hdecode] using h
    | _ => cases h
  · rintro ⟨content, rfl, hdecode⟩
    rw [bytesOf, hdecode]

theorem getD_eq_iff {α : Type} {found : Option α} {a : α} : found.getD a = a ↔ ∀ b, found = some b → b = a := by
  cases found <;> simp

theorem contentOfDocument_eq_ok_iff {d : Data} :
    contentOfDocument d = .ok text ↔ (Reply.document d).Holds text := by
  constructor
  · intro h
    cases d with
    | table fields =>
      unfold contentOfDocument at h
      cases hcontent : (Data.table fields).get? "content" with
      | none => simp [hcontent] at h
      | some value =>
        simp only [hcontent] at h
        split at h
        · rename_i hkind
          split at h
          · rename_i bytes hbytes
            obtain ⟨content, rfl, hdecode⟩ := bytesOf_eq_ok_iff.mp hbytes
            exact ⟨content, bytes, ⟨fields, rfl, hcontent, getD_eq_iff.mp hkind⟩, hdecode, (Except.ok.inj h).symm⟩
          · cases h
        · cases h
    | _ => cases h
  · rintro ⟨content, bytes, ⟨fields, hreply, hcontent, hencoding⟩, hdecode, rfl⟩
    obtain rfl := Reply.document.inj hreply
    have hkind : ((Data.table fields).get? "encoding").getD (.text "base64") = .text "base64" := getD_eq_iff.mpr hencoding
    have hbytes : bytesOf (.text content) = .ok bytes := bytesOf_eq_ok_iff.mpr ⟨content, rfl, hdecode⟩
    simp only [contentOfDocument, hcontent, hkind, hbytes]

theorem contentOf_eq_ok_iff : contentOf path reply = .ok text ↔ reply.Holds text := by
  have hnone (h : ∀ d, reply ≠ .document d) : ¬ reply.Holds text := by
    rintro ⟨-, -, ⟨fields, hreply, -⟩, -⟩
    exact h _ hreply
  cases reply with
  | document d =>
    have hcontent : contentOf path (.document d) = (contentOfDocument d).mapError (.fetch path) := rfl
    rw [← contentOfDocument_eq_ok_iff, hcontent, Except.mapError_eq_ok_iff]
  | _ => exact ⟨(by cases ·), fun h => absurd h (hnone (by simp))⟩

/-- Nothing but a failure to fetch the file at that path comes of a reply that is not read. -/
theorem contentOf_eq_ok_or_error (path : String) (reply : Reply) :
    (∃ text, contentOf path reply = .ok text) ∨ ∃ reason, contentOf path reply = .error (.fetch path reason) := by
  cases reply with
  | document d =>
    have hcontent : contentOf path (.document d) = (contentOfDocument d).mapError (.fetch path) := rfl
    rw [hcontent]
    cases contentOfDocument d with
    | ok text => exact .inl ⟨text, rfl⟩
    | error reason => exact .inr ⟨reason, rfl⟩
  | _ => exact .inr ⟨_, rfl⟩

end CodeCensus.Remote
