import CodeCensus.Files.Checkout
import CodeCensus.Proofs.Remote.Contents
import CodeCensus.Proofs.Text.Lines

/-! The same file read from a checkout and through the interface. Both read ill-formed bytes alike,
but only the checkout turns every line end into a line feed, so the two texts differ where the file
has a carriage return. -/

namespace CodeCensus

open Text

namespace Files.Checkout

/-- A path leads to a file with these bytes that lies within the repository. -/
def Holds (c : Checkout) (path : String) (bytes : List UInt8) : Prop :=
  '\x00' ∉ path.toList ∧ ∃ root target, c.top.resolve c.place c.path = some root ∧
    c.top.resolve root path = some target ∧ root <+: target ∧
    c.top.file? [] target.text = some bytes

theorem Holds.fetch_eq {c : Checkout} {path : String} {bytes : List UInt8}
    (h : c.Holds path bytes) : c.source.fetch path = .ok (textOf bytes) := by
  obtain ⟨hnull, root, target, hroot, htarget, hprefix, hfile⟩ := h
  have hread : c.top.read [] target.text = .ok bytes := by
    rw [Node.file?] at hfile
    cases hread : c.top.read [] target.text with
    | error e => simp [hread, Except.toOption] at hfile
    | ok found => simpa [hread, Except.toOption] using hfile
  have hnull' : path.toList.contains '\x00' = false := by simpa using hnull
  have hinside : (!root.isPrefixOf target) = false := by simpa using hprefix
  change (c.read path).mapError (ReadFault.failure path) = _
  rw [read, hnull', hroot]
  simp only [htarget, hinside, hread]
  rfl

end Files.Checkout

namespace Remote

/-- A reply carries bytes: its content is base64 for them, with line breaks anywhere, and says so or
says nothing about it. -/
def Reply.Carries (reply : Reply) (bytes : List UInt8) : Prop :=
  ∃ fields text, reply = .document (.table fields) ∧
    (Data.table fields).get? "content" = some (.text text) ∧
    (∀ encoding, (Data.table fields).get? "encoding" = some encoding → encoding = .text "base64") ∧
    Base64.Spells text.toList bytes

theorem Reply.Carries.contentOf_eq {reply : Reply} {bytes : List UInt8} (h : reply.Carries bytes)
    (path : String) : contentOf path reply = .ok (String.ofList (Utf8.decode bytes)) := by
  obtain ⟨fields, content, hreply, hcontent, hencoding, hspells⟩ := h
  exact contentOf_eq_ok_iff.mpr
    ⟨content, bytes, ⟨fields, hreply, hcontent, hencoding⟩, Base64.decode_of_spells hspells, rfl⟩

theorem fetch_eq {api : Api} {id path : String} {ask : Request → Reply} {repo : RepoId}
    {bytes : List UInt8} (hrepo : RepoId.parse? id = some repo)
    (h : (ask (api.contentRequest repo path)).Carries bytes) :
    (source api id ask).fetch path = .ok (String.ofList (Utf8.decode bytes)) := by
  rw [source, hrepo]
  exact h.contentOf_eq path

end Remote

/-- A file in a checkout and the same bytes through the interface are both read, the text from the
checkout is the other one with its line ends unified, and they are the same text exactly if no byte
is a carriage return. -/
theorem fetch_checkout_eq_iff {c : Files.Checkout} {api : Remote.Api} {id path : String}
    {ask : Remote.Request → Remote.Reply} {repo : RepoId} {bytes : List UInt8}
    (hholds : c.Holds path bytes) (hrepo : RepoId.parse? id = some repo)
    (hcarries : (ask (api.contentRequest repo path)).Carries bytes) :
    ∃ here there : String, c.source.fetch path = .ok here ∧
      (Remote.source api id ask).fetch path = .ok there ∧
      here.toList = unifyLines there.toList ∧ (here = there ↔ 0x0D ∉ bytes) := by
  refine ⟨Files.Checkout.textOf bytes, String.ofList (Utf8.decode bytes), hholds.fetch_eq,
    Remote.fetch_eq hrepo hcarries, ?_, ?_⟩
  · rw [Files.Checkout.textOf, String.toList_ofList, String.toList_ofList]
  · have hreturn : '\r' ∈ Utf8.decode bytes ↔ 0x0D ∈ bytes :=
      Utf8.mem_decode (b := 0x0D) (by decide) (by decide)
    rw [Files.Checkout.textOf, String.ofList_inj, unifyLines_eq_self, hreturn]

def Files.Checkout.ofFile (name : String) (bytes : List UInt8) : Checkout where
  top := .dir [(name, .file bytes)]
  place := []
  path := "/"

/-- An interface that answers everything with the same bytes. -/
def Remote.answerWith (bytes : List UInt8) (_ : Remote.Request) : Remote.Reply :=
  .document (.record [
    ("content", .text (String.ofList (Base64.encode bytes))), ("encoding", .text "base64")])

theorem Remote.answerWith_carries (bytes : List UInt8) (request : Remote.Request) :
    (answerWith bytes request).Carries bytes := by
  refine ⟨_, _, rfl, rfl, fun encoding hget => ?_, by simpa using Base64.spells_encode bytes⟩
  exact (Option.some.inj hget).symm

theorem fetch_checkout_eq_iff_lineFeed :
    ∃ here there : String,
      (Files.Checkout.ofFile "f.txt" [0x61, 0x0A, 0x62]).source.fetch "f.txt" = .ok here ∧
      (Remote.source {} "o/r" (Remote.answerWith [0x61, 0x0A, 0x62])).fetch "f.txt" = .ok there ∧
      here.toList = unifyLines there.toList ∧
      (here = there ↔ 0x0D ∉ ([0x61, 0x0A, 0x62] : List UInt8)) := by
  have hholds :
      (Files.Checkout.ofFile "f.txt" [0x61, 0x0A, 0x62]).Holds "f.txt" [0x61, 0x0A, 0x62] :=
    ⟨by decide +kernel, [], ["f.txt"],
      by decide +kernel, by decide +kernel, by decide +kernel, by decide +kernel⟩
  have hrepo : RepoId.parse? "o/r" = some ⟨"o", "r"⟩ := by decide +kernel
  exact fetch_checkout_eq_iff hholds hrepo (Remote.answerWith_carries _ _)

/-- A carriage return before a line feed is read from the interface and not from the checkout. -/
theorem fetch_checkout_ne_carriageReturn :
    (Files.Checkout.ofFile "f.txt" [0x61, 0x0D, 0x0A, 0x62]).source.fetch "f.txt" = .ok "a\nb" ∧
    (Remote.source {} "o/r" (Remote.answerWith [0x61, 0x0D, 0x0A, 0x62])).fetch "f.txt" =
      .ok "a\r\nb" := by
  have hholds : (Files.Checkout.ofFile "f.txt" [0x61, 0x0D, 0x0A, 0x62]).Holds "f.txt"
      [0x61, 0x0D, 0x0A, 0x62] :=
    ⟨by decide +kernel, [], ["f.txt"],
      by decide +kernel, by decide +kernel, by decide +kernel, by decide +kernel⟩
  have hrepo : RepoId.parse? "o/r" = some ⟨"o", "r"⟩ := by decide +kernel
  have hhere : Files.Checkout.textOf [0x61, 0x0D, 0x0A, 0x62] = "a\nb" := by decide +kernel
  have hthere : String.ofList (Utf8.decode [0x61, 0x0D, 0x0A, 0x62]) = "a\r\nb" := by decide +kernel
  refine ⟨?_, ?_⟩
  · rw [hholds.fetch_eq, hhere]
  · rw [Remote.fetch_eq hrepo (Remote.answerWith_carries [0x61, 0x0D, 0x0A, 0x62] _), hthere]

end CodeCensus
