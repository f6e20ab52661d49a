import Ollama.Names.Name

/-!
# Model paths

`server/modelpath.go`, the names of `GetModel` and of the registry client of the server.
-/

namespace Ollama.Server

open Lib Model List Names

/-! ## §1  Definitions -/

structure ModelPath where
  ProtocolScheme : Str
  Registry : Str
  Namespace : Str
  Repository : Str
  Tag : Str

def DefaultRegistry : Str := "registry.ollama.ai".toList

def DefaultNamespace : Str := "library".toList

def DefaultTag : Str := "latest".toList

def DefaultProtocolScheme : Str := "https".toList

def splitPath (name : Str) : Str × Str × Str :=
  match name.splitOn '/' with
  | [registry, ns, repository] => (registry, ns, repository)
  | [ns, repository] => (DefaultRegistry, ns, repository)
  | [repository] => (DefaultRegistry, DefaultNamespace, repository)
  | _ => (DefaultRegistry, DefaultNamespace, [])

/-- The path separator is the slash. -/
def ParseModelPath (name : Str) : ModelPath :=
  let (scheme, name) := (cut name "://".toList).getD (DefaultProtocolScheme, name)
  let (registry, ns, repository) := splitPath name
  let (repository, tag) := (cutFirst (· == ':') repository).getD (repository, DefaultTag)
  ⟨scheme, registry, ns, repository, tag⟩

def ModelPath.name (mp : ModelPath) : Model.Name := ⟨mp.Registry, mp.Namespace, mp.Repository, mp.Tag⟩

/-- `GetManifestPath` of a model path; `models` is `envconfig.Models()`. -/
def ModelPath.GetManifestPath (models : Str) (mp : ModelPath) : Option Str :=
  if mp.name.IsValid then
    mp.name.Filepath.map fun path => Path.join [models, "manifests".toList, path]
  else none

/-- The directory of the manifests. -/
def GetManifestPath (models : Str) : Str := Path.join [models, "manifests".toList]

/-- The path that `ParseNamedManifest` opens. -/
def namedManifestPath (models : Str) (n : Model.Name) : Option Str :=
  if n.IsFullyQualified then
    n.Filepath.map fun path => Path.join [GetManifestPath models, path]
  else none

/-! ## §2  The names that are spelled -/

variable {s m : Str} {n : Model.Name}

/-- `s` spells the valid name `n`, with the defaults for what is left out. -/
def Spells (s : Str) (n : Model.Name) : Prop :=
  n.Parts ∧ ∃ front back, s = front ++ (n.model ++ back) ∧
    (back = [] ∧ n.tag = defaultTag ∨ back = ':' :: n.tag) ∧
    (front = [] ∧ n.ns = defaultNamespace ∧ n.host = defaultHost ∨
      front = n.ns ++ ['/'] ∧ n.host = defaultHost ∨ front = n.host ++ '/' :: (n.ns ++ ['/']))

theorem cutFirst_tag {tag : Str} (hm : ':' ∉ m) :
    ((cutFirst (· == ':') m).getD (m, tag) = (m, tag)) ∧
      ∀ t, (cutFirst (· == ':') (m ++ ':' :: t)).getD (m ++ ':' :: t, tag) = (m, t) := by
  constructor
  · rw [cutFirst_eq_none (forall_ne hm)]
    rfl
  · intro t
    have hcut : cutFirst (· == ':') (m ++ ':' :: t) = some (m, t) :=
      cutFirst_append (p := fun x => x == ':') (beq_self_eq_true ':') (forall_ne hm) t
    rw [hcut]
    rfl

theorem splitPath_back {back : Str} (hmodel : '/' ∉ m ++ back) :
    splitPath (m ++ back) = (DefaultRegistry, DefaultNamespace, m ++ back) ∧
      ∀ ns, '/' ∉ ns → splitPath (ns ++ '/' :: (m ++ back)) = (DefaultRegistry, ns, m ++ back) ∧
        ∀ host, '/' ∉ host →
          splitPath (host ++ '/' :: (ns ++ '/' :: (m ++ back))) = (host, ns, m ++ back) := by
  have hsplit := splitOn_eq_singleton hmodel
  refine ⟨?_, fun ns hns => ⟨?_, fun host hhost => ?_⟩⟩
  · unfold splitPath
    rw [hsplit]
  · unfold splitPath
    rw [splitOn_append_cons_self_of_not_mem hns, hsplit]
  · unfold splitPath
    rw [splitOn_append_cons_self_of_not_mem hhost, splitOn_append_cons_self_of_not_mem hns, hsplit]

theorem modelPath_of_spells (hs : Schemeless s) (h : Spells s n) : (ParseModelPath s).name = n := by
  obtain ⟨hparts, front, back, rfl, hback, hfront⟩ := h
  have hmodel := Model.no_colon hparts.model (by decide)
  have htag : (cutFirst (· == ':') (n.model ++ back)).getD (n.model ++ back, DefaultTag) =
      (n.model, n.tag) := by
    rcases hback with ⟨rfl, htag⟩ | rfl
    · rw [append_nil, htag]
      exact (cutFirst_tag hmodel).1
    · exact (cutFirst_tag hmodel).2 n.tag
  have hslash : '/' ∉ n.model ++ back := by
    rw [mem_append, not_or]
    refine ⟨Model.no_slash hparts.model, ?_⟩
    rcases hback with ⟨rfl, -⟩ | rfl
    · exact nofun
    · rw [mem_cons, not_or]
      exact ⟨by decide, Model.no_slash hparts.tag⟩
  obtain ⟨hone, hrest⟩ := splitPath_back hslash
  obtain ⟨htwo, hthree⟩ := hrest n.ns (Model.no_slash hparts.ns)
  have hthree := hthree n.host (Model.no_slash hparts.host)
  have hpath : splitPath (front ++ (n.model ++ back)) = (n.host, n.ns, n.model ++ back) := by
    rcases hfront with ⟨rfl, hns, hhost⟩ | ⟨rfl, hhost⟩ | rfl
    · rw [hns, hhost]
      exact hone
    · rw [append_assoc, hhost]
      exact htwo
    · rw [append_assoc, cons_append, append_assoc]
      exact hthree
  unfold ParseModelPath ModelPath.name
  rw [show cut (front ++ (n.model ++ back)) "://".toList = none from hs]
  simp only [Option.getD_none]
  rw [hpath]
  rw [htag]

theorem spells_of_modelPath (hs : Schemeless s) (h : (ParseModelPath s).name = n)
    (hparts : n.Parts) : Spells s n := by
  refine ⟨hparts, ?_⟩
  unfold ParseModelPath ModelPath.name at h
  rw [show cut s "://".toList = none from hs] at h
  simp only [Option.getD_none] at h
  have hback : ∀ repository : Str,
      (cutFirst (· == ':') repository).getD (repository, DefaultTag) = (n.model, n.tag) →
      ∃ back, repository = n.model ++ back ∧
        (back = [] ∧ n.tag = defaultTag ∨ back = ':' :: n.tag) := by
    intro repository hcut
    rcases cutFirst_spec (· == ':') repository with
      ⟨hnone, -⟩ | ⟨before, sep, after, hsome, rfl, hsep, -⟩
    · rw [hnone] at hcut
      injection hcut with hmodel htag
      exact ⟨[], by rw [hmodel, append_nil], Or.inl ⟨rfl, htag.symm⟩⟩
    · obtain rfl := beq_iff_eq.mp hsep
      rw [hsome] at hcut
      injection hcut with hmodel htag
      rw [hmodel, htag]
      exact ⟨_, rfl, Or.inr rfl⟩
  have hjoin : ['/'].intercalate (s.splitOn '/') = s := intercalate_splitOn '/'
  unfold splitPath at h
  have hne := ne_nil_of_valid hparts.model
  split at h
  · next host ns repository hsplit =>
    rw [hsplit] at hjoin
    obtain ⟨back, rfl, hback⟩ := hback repository (by rw [← h])
    refine ⟨host ++ '/' :: (ns ++ ['/']), back, ?_, hback, Or.inr (Or.inr ?_)⟩
    · rw [← hjoin]
      simp
    · rw [← h]
  · next ns repository hsplit =>
    rw [hsplit] at hjoin
    obtain ⟨back, rfl, hback⟩ := hback repository (by rw [← h])
    refine ⟨ns ++ ['/'], back, ?_, hback, Or.inr (Or.inl ⟨?_, ?_⟩)⟩
    · rw [← hjoin]
      simp
    · rw [← h]
    · rw [← h]
      rfl
  · next repository hsplit =>
    rw [hsplit] at hjoin
    obtain ⟨back, rfl, hback⟩ := hback repository (by rw [← h])
    refine ⟨[], back, ?_, hback, Or.inl ⟨rfl, ?_, ?_⟩⟩
    · rw [← hjoin]
      simp
    · rw [← h]
      rfl
    · rw [← h]
      rfl
  · -- no repository
    exact absurd (by rw [← h]; rfl) hne

theorem parseName_of_spells (h : Spells s n) : ParseName s = n := by
  obtain ⟨hparts, front, back, rfl, hback, hfront⟩ := h
  have hslash := Model.no_slash hparts.model
  have hcolon := Model.no_colon hparts.model (by decide)
  have hcut : ∃ tag, cutTag (front ++ (n.model ++ back)) = (front ++ n.model, tag) ∧
      cmpOr tag defaultTag = n.tag := by
    rcases hback with ⟨rfl, htag⟩ | rfl
    · refine ⟨[], ?_, htag.symm⟩
      rw [append_nil]
      rcases hfront with ⟨rfl, -⟩ | ⟨rfl, -⟩ | rfl
      · exact cutTag_none hcolon
      · rw [append_assoc]
        exact cutTag_slash hslash hcolon n.ns
      · rw [append_assoc, cons_append, append_assoc]
        have hslash := cutTag_slash hslash hcolon (n.host ++ '/' :: n.ns)
        rwa [append_assoc, cons_append] at hslash
    · refine ⟨n.tag, ?_, cmpOr_of_valid hparts.tag _⟩
      have hne : front ++ n.model ≠ [] := by simp [ne_nil_of_valid hparts.model]
      rw [← append_assoc, cutTag_append (Model.no_slash hparts.tag)
        (Model.no_colon hparts.tag (by decide)), cmpOr_of_valid hparts.tag]
      exact Prod.ext (if_neg hne) rfl
  obtain ⟨tag, hcut, htag⟩ := hcut
  unfold ParseName Merge
  rcases hfront with ⟨rfl, hns, hhost⟩ | ⟨rfl, hhost⟩ | rfl
  · rw [parse_model hcut hslash]
    exact Model.Name.ext hhost.symm hns.symm rfl htag
  · have hfront : n.ns ++ ['/'] ++ n.model = n.ns ++ '/' :: n.model := by simp
    rw [hfront] at hcut
    rw [parse_namespace hcut (Model.no_slash hparts.ns) hslash, cmpOr_of_valid hparts.ns,
      cmpOr_of_valid hparts.model]
    exact Model.Name.ext hhost.symm (cmpOr_of_valid hparts.ns _) rfl htag
  · have hfront : n.host ++ '/' :: (n.ns ++ ['/']) ++ n.model =
        n.host ++ '/' :: (n.ns ++ '/' :: n.model) := by simp
    rw [hfront] at hcut
    rw [parse_host hcut (Model.no_slash hparts.ns) hslash, cmpOr_of_valid hparts.host,
      cmpOr_of_valid hparts.ns, cmpOr_of_valid hparts.model,
      cutScheme_none (Model.no_slash hparts.host)]
    exact Model.Name.ext (cmpOr_of_valid hparts.host _) (cmpOr_of_valid hparts.ns _) rfl htag

theorem spells_of_parseName (hs : Schemeless s) (h : ParseName s = n) (hparts : n.Parts) :
    Spells s n := by
  obtain ⟨bare, hbare⟩ : ∃ bare, ParseNameBare s = bare := ⟨_, rfl⟩
  have hmerge : Merge bare DefaultName = n := by
    rw [← hbare]
    exact h
  subst hmerge
  have hopt : ∀ {kind : PartKind} {t d : Str}, isValidPart kind (cmpOr t d) = true →
      Optional kind t := by
    intro kind t d hvalid
    by_cases ht : t = []
    · exact Or.inl ht
    · rw [show cmpOr t d = t from if_neg ht] at hvalid
      exact Or.inr hvalid
  obtain ⟨hstring, hns⟩ := string_of_bare hs hbare (hopt hparts.host) (hopt hparts.ns)
    hparts.model (hopt hparts.tag)
  have hsome : ∀ {t d : Str}, t ≠ [] → cmpOr t d = t := fun ht => if_neg ht
  have hback : ∃ back, bare.model ++ (if bare.tag ≠ [] then ':' :: bare.tag else []) =
      bare.model ++ back ∧ (back = [] ∧ cmpOr bare.tag defaultTag = defaultTag ∨
        back = ':' :: cmpOr bare.tag defaultTag) := by
    by_cases ht : bare.tag = []
    · exact ⟨[], by rw [if_neg (not_not.mpr ht)], Or.inl ⟨rfl, if_pos ht⟩⟩
    · exact ⟨':' :: bare.tag, by rw [if_pos ht], Or.inr (by rw [hsome ht])⟩
  obtain ⟨back, hstring', hback⟩ := hback
  unfold Model.Name.String at hstring
  rw [append_assoc, hstring'] at hstring
  refine ⟨hparts, _, back, hstring, hback, ?_⟩
  by_cases hhost : bare.host = []
  · by_cases hns : bare.ns = []
    · refine Or.inl ⟨?_, if_pos hns, if_pos hhost⟩
      rw [if_neg (not_not.mpr hhost), if_neg (not_not.mpr hns)]
      rfl
    · refine Or.inr (Or.inl ⟨?_, if_pos hhost⟩)
      rw [if_neg (not_not.mpr hhost), if_pos hns]
      show bare.ns ++ ['/'] = cmpOr bare.ns defaultNamespace ++ ['/']
      rw [hsome hns]
  · have hns := hns.resolve_left hhost
    refine Or.inr (Or.inr ?_)
    rw [if_pos hhost, if_pos hns, append_assoc]
    show _ = cmpOr bare.host defaultHost ++ '/' :: (cmpOr bare.ns defaultNamespace ++ ['/'])
    rw [hsome hhost, hsome hns]
    rfl

/-! ## §3  The three parsers -/

/-- A model path has the manifest path of the name, if that is valid. -/
theorem manifestPath_eq (hs : Schemeless s) (models : Str) :
    (ParseModelPath s).GetManifestPath models = namedManifestPath models (ParseName s) ∧
      (((ParseModelPath s).GetManifestPath models).isSome ↔ (ParseName s).IsValid = true) := by
  by_cases hvalid : (ParseName s).IsValid = true
  · have hparts := isValid_iff.mp hvalid
    have hname := modelPath_of_spells hs (spells_of_parseName hs rfl hparts)
    obtain ⟨hpath, -⟩ := hparts.filepath
    have heq : (ParseModelPath s).GetManifestPath models = namedManifestPath models (ParseName s) := by
      unfold ModelPath.GetManifestPath namedManifestPath GetManifestPath
      rw [hname, if_pos hvalid, if_pos (show (ParseName s).IsFullyQualified = true from hvalid),
        hpath, Option.map_some, Option.map_some, Path.join_join (by decide)]
    refine ⟨heq, fun _ => hvalid, fun _ => ?_⟩
    rw [heq]
    unfold namedManifestPath
    rw [if_pos (show (ParseName s).IsFullyQualified = true from hvalid), hpath]
    rfl
  · have hinvalid : ¬(ParseModelPath s).name.IsValid = true := fun h => hvalid <| by
      rw [parseName_of_spells (spells_of_modelPath hs rfl (isValid_iff.mp h))]
      exact h
    have hnone : (ParseModelPath s).GetManifestPath models = none := if_neg hinvalid
    rw [hnone]
    exact ⟨(if_neg hvalid).symm, nofun, fun h => absurd h hvalid⟩

/-- **The parsers of names.** The registry client takes what derives from the grammar, where a
host, a namespace and a tag may be empty next to their separators; it reads a fully qualified name
as `types/model` does; what it prints is read back, but for a host without a namespace; and a
model path is found exactly when the name is valid, at the manifest path of that name. -/
theorem parsers_agree (s models : Str) (name : Names.Name) :
    (OneColon s → ((Parse s).IsValid = true ↔ Derives Optional s)) ∧
    (Schemeless s → (Parse s).IsValid = true → (ParseNameBare s).IsValid = true →
      Parse s = ofModel (ParseNameBare s)) ∧
    (name.IsValid = true → name.h = [] ∨ name.n ≠ [] → Parse name.String = name) ∧
    (Schemeless s →
      (ParseModelPath s).GetManifestPath models = namedManifestPath models (ParseName s) ∧
        (((ParseModelPath s).GetManifestPath models).isSome ↔ (ParseName s).IsValid = true)) :=
  ⟨Names.parse_isValid_iff, fun hs _ hvalid => Names.parse_same hs hvalid, Names.parse_string,
    fun hs => manifestPath_eq hs models⟩

theorem parsers_agree_example : (ParseModelPath "h:1/n/m".toList).GetManifestPath "/models".toList =
      some "/models/manifests/h:1/n/m/latest".toList := by
  decide

/-- A tag that is left out after its colon is accepted; the documented grammar has none. -/
theorem empty_tag_accepted : ¬∀ s : Str, '@' ∉ s → Schemeless s →
      ((Parse s).IsValid = true ↔ Documented s) := by
  intro h
  have hempty : IsBack ":".toList := Or.inr ⟨[], rfl, nofun, nofun⟩
  have hparse : Parse "mm:".toList = ⟨[], [], "mm".toList, []⟩ :=
    (parse_of_derives (m := "mm".toList) (by decide) hempty (Or.inl rfl)).1
  obtain ⟨front, m, back, hs, hm, hback, -⟩ :=
    (h "mm:".toList (by decide) (by rw [Schemeless]; decide)).mp (by rw [hparse]; decide)
  have hlast : (front ++ (m ++ back)).getLast? = some ':' := by rw [← hs]; decide
  have hmlast : m.getLast? ≠ some ':' := fun heq =>
    Model.no_colon hm (by decide) (mem_of_getLast? heq)
  rcases hback with rfl | ⟨t, rfl, ht⟩
  · rw [append_nil, getLast?_append_of_ne_nil _ (ne_nil_of_valid hm)] at hlast
    exact hmlast hlast
  · rw [← append_assoc, getLast?_append_of_ne_nil _ (by simp),
      getLast?_cons_of_ne_nil (ne_nil_of_valid ht)] at hlast
    exact Model.no_colon ht (by decide) (mem_of_getLast? hlast)

end Ollama.Server
