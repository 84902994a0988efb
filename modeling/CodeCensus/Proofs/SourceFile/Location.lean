import CodeCensus.Proofs.Language.Registry
import CodeCensus.Proofs.SourceFile.Outcome

/-! An analysis looks at the path of its file for the capabilities of the language, for the format of a
manifest and for the sign of a binary file, and nowhere else. All of these depend on the last component of
the path alone, so that neither the directory of a file nor the server side changes what is found in it. -/

namespace CodeCensus

theorem Manifest.read_congr {p q : String} (text : List Char)
    (h : Path.name (Path.unify p) = Path.name (Path.unify q)) : read p text = read q text := by
  have hformat : formatOf? p = formatOf? q := by rw [formatOf?, formatOf?, Path.lowerName_congr h]
  unfold read
  rw [hformat]

namespace SourceFile

variable {r r' : Registry} {p q content : String}

/-- The record of the same text at another path, with the language that that path tells. -/
def movedTo (file : SourceFile) (path : String) : SourceFile :=
  { file with path := path, language := Language.ofPath path }

theorem movedTo_eq_self {file : SourceFile} {path : String} (hpath : file.path = path)
    (hlanguage : file.language = Language.ofPath path) : file.movedTo path = file := by
  rw [movedTo, ← hlanguage, ← hpath]

/-- The guess from the text is looked up only for a language without branches of its own. -/
theorem fileComplexity_congr {language language' : String} {text : List Char}
    (hown : r'.supportFor language' = r.supportFor language)
    (hguess : (r.supportFor language).branches = none →
      r'.supportFor (Language.ofContent text) = r.supportFor (Language.ofContent text)) :
    fileComplexity r' language' text = fileComplexity r language text := by
  rw [fileComplexity, fileComplexity, hown]
  cases hbranches : (r.supportFor language).branches with
  | some branches => rfl
  | none => rw [hguess hbranches]

theorem analyse_congr
    (hown : r'.supportFor (Language.ofPath q) = r.supportFor (Language.ofPath p))
    (hguess : (r.supportFor (Language.ofPath p)).branches = none →
      r'.supportFor (Language.ofContent content.toList) = r.supportFor (Language.ofContent content.toList))
    (hmanifest : Manifest.read q content.toList = Manifest.read p content.toList) :
    analyse r' q content = (movedTo · q) <$> analyse r p content := by
  have hcomplexity := fileComplexity_congr hown hguess
  rw [analyse, analyse, hown, hmanifest, hcomplexity]
  -- no stage of the one analysis differs from that of the other, only the record at the end
  simp only [map_bind, map_pure, movedTo]

theorem parse_congr (maxChars : Int)
    (hown : r'.supportFor (Language.ofPath q) = r.supportFor (Language.ofPath p))
    (hguess : (r.supportFor (Language.ofPath p)).branches = none →
      r'.supportFor (Language.ofContent content.toList) = r.supportFor (Language.ofContent content.toList))
    (hmanifest : Manifest.read q content.toList = Manifest.read p content.toList)
    (hbinary : Language.isBinary q = Language.isBinary p) :
    parse r' maxChars q content =
      ((parse r maxChars p content).1.movedTo q, (parse r maxChars p content).2) := by
  have hsame : IsSkipped maxChars q content ↔ IsSkipped maxChars p content := by
    rw [IsSkipped, IsSkipped, hbinary]
  by_cases hskip : IsSkipped maxChars p content
  · rw [parse_of_isSkipped hskip, parse_of_isSkipped (hsame.mpr hskip), movedTo]
  · rw [parse_of_not_isSkipped hskip, parse_of_not_isSkipped (hsame.not.mpr hskip),
      analyse_congr hown hguess hmanifest]
    cases analyse r p content with
    | ok file => rfl
    | error e => rfl

/-- Two files with the same text whose paths end in the same name give the same record but for the path and
the language, and the same fault if there is one; their languages differ at most in the mark of the server
side, which neither of them has twice. -/
theorem parse_of_name_eq (r : Registry) (maxChars : Int) (content : String)
    (hname : Path.name (Path.unify p) = Path.name (Path.unify q)) :
    parse r maxChars q content =
      ((parse r maxChars p content).1.movedTo q, (parse r maxChars p content).2) ∧
    (parse r maxChars p content).1.path = p ∧
    (parse r maxChars p content).1.language = Language.ofPath p ∧
    Language.base (Language.ofPath p) = Language.base (Language.ofPath q) ∧
    ¬ (Language.backendSuffix ++ Language.backendSuffix).toList <:+ (Language.ofPath p).toList ∧
    ¬ (Language.backendSuffix ++ Language.backendSuffix).toList <:+ (Language.ofPath q).toList := by
  have hparse : parse r maxChars q content =
      ((parse r maxChars p content).1.movedTo q, (parse r maxChars p content).2) :=
    parse_congr maxChars (r.supportFor_congr hname.symm) (fun _ => rfl)
      (Manifest.read_congr content.toList hname.symm) (Language.isBinary_congr hname.symm)
  have hbase : Language.base (Language.ofPath p) = Language.base (Language.ofPath q) := by
    rw [Language.base_ofPath, Language.base_ofPath, Language.plainTag_congr hname]
  exact ⟨hparse, path_parse r maxChars p content, language_parse r maxChars p content, hbase,
    Language.not_isSuffix_ofPath p, Language.not_isSuffix_ofPath q⟩

theorem parse_of_name_eq_serverSide :
    Path.name (Path.unify "server\\api/x.py") = Path.name (Path.unify "lib/x.py") ∧
    Language.ofPath "server\\api/x.py" = "python-backend" ∧
    parse .standard 100 "lib/x.py" "if a: b" =
      ((parse .standard 100 "server\\api/x.py" "if a: b").1.movedTo "lib/x.py",
        (parse .standard 100 "server\\api/x.py" "if a: b").2) := by
  have hserver : Path.name (Path.unify "server\\api/x.py") = "x.py" := by decide +kernel
  have hlib : Path.name (Path.unify "lib/x.py") = "x.py" := by decide +kernel
  have hlanguage : Language.ofPath "server\\api/x.py" = "python-backend" := by decide +kernel
  have hname := hserver.trans hlib.symm
  exact ⟨hname, hlanguage, (parse_of_name_eq .standard 100 "if a: b" hname).1⟩

open Registry

/-! ## Registrations that make no difference

The analysis of a file takes notice of two base languages at most: that of its path, and that which its
text suggests if the path's has no branches of its own. What is registered for others makes no difference. -/

/-- A registration changes nothing in the analysis of a file if it is neither for the language of the path
nor for the one that the text suggests where the former has no branches of its own. -/
theorem parse_registerAll_of_ne {r : Registry} {before after : List (String × Support)}
    {call : String × Support} {path content : String}
    (hpath : Language.base call.1 ≠ Language.base (Language.ofPath path))
    (hguess : ((r.registerAll (before ++ after)).supportFor (Language.ofPath path)).branches = none →
      Language.base call.1 ≠ Language.base (Language.ofContent content.toList)) (maxChars : Int) :
    parse (r.registerAll (before ++ call :: after)) maxChars path content =
      parse (r.registerAll (before ++ after)) maxChars path content := by
  have hown : (r.registerAll (before ++ call :: after)).supportFor (Language.ofPath path) =
      (r.registerAll (before ++ after)).supportFor (Language.ofPath path) :=
    supportFor_registerAll_of_ne hpath
  rw [parse_congr maxChars hown (fun hnone => supportFor_registerAll_of_ne (hguess hnone)) rfl rfl,
    movedTo_eq_self (path_parse ..) (language_parse ..)]

/-- Registrations on top of the standard ones: of those for one base language the last counts; the languages
known, in strict order, are the standard ones and the base languages registered; and a registration changes
nothing in the analysis of a file with which its base language has nothing to do. -/
theorem registerAll_standard (calls : List (String × Support)) :
    (∀ language, (standard.registerAll calls).supportFor language =
      (((calls.filter fun call => Language.base call.1 == Language.base language).getLast?).map
        Prod.snd).getD (standard.supportFor language)) ∧
    (standard.registerAll calls).languages.Pairwise (· < ·) ∧
    (∀ language, language ∈ (standard.registerAll calls).languages ↔
      language ∈ standard.languages ∨ ∃ call ∈ calls, Language.base call.1 = language) ∧
    ∀ before call after, calls = before ++ call :: after → ∀ path content,
      Language.base call.1 ≠ Language.base (Language.ofPath path) →
      (((standard.registerAll (before ++ after)).supportFor (Language.ofPath path)).branches = none →
        Language.base call.1 ≠ Language.base (Language.ofContent content.toList)) →
      ∀ maxChars, parse (standard.registerAll calls) maxChars path content =
        parse (standard.registerAll (before ++ after)) maxChars path content := by
  have hkeys := nodup_keys_registerAll nodup_keys_standard calls
  refine ⟨supportFor_registerAll standard calls, languages_pairwise hkeys, fun language => ?_, ?_⟩
  · rw [mem_languages, mem_languages, mem_keys_registerAll]
  · rintro before call after rfl path content hpath hguess maxChars
    exact parse_registerAll_of_ne hpath hguess maxChars

theorem registerAll_standard_twiceMarked :
    Language.base "python-backend-backend" = "python-backend" ∧
    Language.base (Language.ofPath "notes.txt") = "text" ∧
    Language.base (Language.ofContent "def f():".toList) = "python" ∧
    parse (standard.registerAll [("go-backend", {}), ("python-backend-backend", {}), ("go", {})]) 100
        "notes.txt" "def f():" =
      parse (standard.registerAll [("go-backend", {}), ("go", {})]) 100 "notes.txt" "def f():" := by
  have hbase : Language.base "python-backend-backend" = "python-backend" := by decide +kernel
  have hpath : Language.base (Language.ofPath "notes.txt") = "text" := by decide +kernel
  have hcontent : Language.base (Language.ofContent "def f():".toList) = "python" := by decide +kernel
  have hlocal := (registerAll_standard
    [("go-backend", {}), ("python-backend-backend", {}), ("go", {})]).2.2.2
  refine ⟨hbase, hpath, hcontent, hlocal [("go-backend", {})] _ [("go", {})] rfl "notes.txt" "def f():"
    ?_ (fun _ => ?_) 100⟩
  · rw [hbase, hpath]
    decide
  · rw [hbase, hcontent]
    decide

end SourceFile

end CodeCensus
