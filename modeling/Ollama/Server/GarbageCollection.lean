import Ollama.Server.Layers

/-!
# Garbage collection
-/

namespace Ollama.Server.Garbage

open Lib Model List

variable {Blob V Msg : Type} {s s' : Disk Blob} {k f : Str} {n : Model.Name} {m : Manifest}

/-! ## §1  What is kept -/

def Disk.Uses (s : Disk Blob) (f : Str) : Prop :=
  ∃ m ∈ s.Manifests, ∃ l ∈ m.all, GetBlobsPath l.Digest = some f

/-- Each readable manifest has the blobs that were there when it was written. -/
def Disk.Kept (s : Disk Blob) : Prop :=
  ∀ e ∈ s.manifests, ∀ m, e.2.manifest = some m → ∀ l ∈ m.all, ∀ f,
    GetBlobsPath l.Digest = some f → f ∈ e.2.there → f ∈ s.files

def Disk.Clean (s : Disk Blob) (k : Str) : Prop :=
  s.lists k = true ∨ ∀ f, GetBlobsPath k = some f → ¬s.Uses f

theorem Disk.Clean.congr (h : s'.Manifests = s.Manifests) (hk : s.Clean k) : s'.Clean k := by
  unfold Disk.Clean Disk.lists Disk.Uses at hk ⊢
  rwa [h]

theorem manifests_congr (h : s'.manifests = s.manifests) : s'.Manifests = s.Manifests := by
  unfold Disk.Manifests
  rw [h]

theorem manifests_write (h : s'.manifests = s.manifests) (n : Model.Name) (m : Option Manifest) :
    (s'.writeManifest n m).Manifests = (s.writeManifest n m).Manifests := by
  unfold Disk.Manifests Disk.writeManifest
  rw [h, filterMap_cons, filterMap_cons]

theorem mem_manifests {e : Model.Name × ManifestFile} (he : e ∈ s.manifests)
    (hm : e.2.manifest = some m) : m ∈ s.Manifests :=
  mem_filterMap.mpr ⟨e, he, hm⟩

theorem mem_files_removeBlob {g : Str} : g ∈ (s.removeBlob f).files ↔ g ∈ s.files ∧ g ≠ f := by
  unfold Disk.files Disk.removeBlob Listing.remove
  rw [mem_map, mem_map]
  constructor
  · rintro ⟨e, he, rfl⟩
    obtain ⟨hmem, hne⟩ := mem_filter.mp he
    exact ⟨⟨e, hmem, rfl⟩, of_decide_eq_true hne⟩
  · rintro ⟨⟨e, he, rfl⟩, hne⟩
    exact ⟨e, mem_filter.mpr ⟨he, decide_eq_true hne⟩, rfl⟩

theorem Disk.Kept.mono (hs : s.Kept) (hm : s'.manifests = s.manifests) (hf : s.files ⊆ s'.files) :
    s'.Kept := by
  intro e he m hem l hl f hpath hthere
  rw [hm] at he
  exact hf (hs e he m hem l hl f hpath hthere)

theorem Disk.Kept.removeBlob (hs : s.Kept) (hf : ¬s.Uses f) : (s.removeBlob f).Kept := by
  intro e he m hem l hl g hpath hthere
  refine mem_files_removeBlob.mpr ⟨hs e he m hem l hl g hpath hthere, ?_⟩
  rintro rfl
  exact hf ⟨m, mem_manifests he hem, l, hl, hpath⟩

theorem Disk.Kept.writeManifest (hs : s.Kept) (n : Model.Name) (m : Option Manifest) :
    (s.writeManifest n m).Kept := by
  intro e he m' hem l hl f hpath hthere
  rcases mem_cons.mp he with rfl | he
  · exact hthere
  · exact hs e (mem_filter.mp he).1 m' hem l hl f hpath hthere

theorem Disk.Kept.removeManifest (hs : s.Kept) (n : Model.Name) : (s.removeManifest n).Kept :=
  fun e he => hs e (mem_filter.mp he).1

/-! ## §2  Removing -/

/-- What removing a layer does: nothing, or it removes the file of a digest that is not listed. -/
theorem remove_cases (s : Disk Blob) (k : Str) : (s.Remove k).1 = s ∨
    ∃ f, GetBlobsPath k = some f ∧ s.lists k = false ∧ (s.Remove k).1 = s.removeBlob f := by
  unfold Disk.Remove
  split
  · exact Or.inl rfl
  split
  · exact Or.inl rfl
  next hlists =>
  split
  · exact Or.inl rfl
  next f hpath =>
  split
  · exact Or.inr ⟨f, hpath, (Bool.not_eq_true _).mp hlists, rfl⟩
  · exact Or.inl rfl

theorem remove_manifests (s : Disk Blob) (k : Str) : (s.Remove k).1.manifests = s.manifests := by
  rcases remove_cases s k with h | ⟨f, -, -, h⟩
  · rw [h]
  · rw [h]
    rfl

theorem Disk.Kept.remove (hs : s.Kept) (hk : s.Clean k) : (s.Remove k).1.Kept := by
  rcases remove_cases s k with h | ⟨f, hpath, hlists, h⟩
  · rwa [h]
  rw [h]
  refine hs.removeBlob ?_
  rcases hk with hk | hk
  · rw [hk] at hlists
    cases hlists
  · exact hk f hpath

theorem Disk.Kept.removeLayers {layers : List Layer} (hs : s.Kept)
    (hk : ∀ l ∈ layers, s.Clean l.Digest) : (RemoveLayers s layers).1.Kept := by
  induction layers generalizing s with
  | nil => exact hs
  | cons l layers ih =>
    obtain ⟨hl, hlayers⟩ := forall_mem_cons.mp hk
    have hm := remove_manifests s l.Digest
    have hkept := hs.remove hl
    rw [RemoveLayers]
    split
    · next s' heq =>
      rw [heq] at hm hkept
      exact ih hkept fun l hl => (hlayers l hl).congr (manifests_congr hm)
    · next s' heq =>
      rw [heq] at hm hkept
      exact ih hkept fun l hl => (hlayers l hl).congr (manifests_congr hm)
    · next s' e _ heq =>
      rw [heq] at hkept
      exact hkept

/-! ## §3  Pruning -/

theorem Disk.Kept.removeFiles {keys : List Str} (hs : s.Kept)
    (hk : ∀ k ∈ keys, ∀ f, GetBlobsPath k = some f → ¬s.Uses f) : (removeFiles s keys).Kept := by
  induction keys generalizing s with
  | nil => exact hs
  | cons k keys ih =>
    obtain ⟨hk, hkeys⟩ := forall_mem_cons.mp hk
    rw [Garbage.removeFiles]
    split
    · exact ih hs hkeys
    · next f hpath => exact ih (hs.removeBlob (hk f hpath)) hkeys

theorem Disk.Kept.deleteUnusedLayers {keys : List Str} (hs : s.Kept) (hk : ∀ k ∈ keys, s.Clean k) :
    (deleteUnusedLayers s keys).Kept := by
  refine hs.removeFiles fun k hmem f hpath => ?_
  obtain ⟨hmem, hlists⟩ := mem_filter.mp hmem
  rcases hk k hmem with h | h
  · rw [h] at hlists
    cases hlists
  · exact h f hpath

/-- The file of a digest, with colons again, is a digest. -/
theorem isDigest_replace (h : isDigest k = true) :
    isDigest (replaceAll (replaceAll k ':' '-') '-' ':') = true := by
  unfold isDigest at h
  split at h
  · next c hex =>
    rw [Bool.and_eq_true, Bool.and_eq_true] at h
    obtain ⟨⟨hc, hlen⟩, hhex⟩ := h
    have hsame : replaceAll (replaceAll hex ':' '-') '-' ':' = hex := by
      unfold replaceAll
      rw [map_map]
      refine (map_congr_left fun x hx => ?_).trans (map_id hex)
      have hhex := all_eq_true.mp hhex x hx
      have hcolon : x ≠ ':' := by
        rintro rfl
        cases hhex
      have hdash : x ≠ '-' := by
        rintro rfl
        cases hhex
      simp only [Function.comp_apply, if_neg hcolon, if_neg hdash, id_eq]
    have hback : replaceAll (replaceAll ('s' :: 'h' :: 'a' :: '2' :: '5' :: '6' :: c :: hex) ':' '-')
        '-' ':' = 's' :: 'h' :: 'a' :: '2' :: '5' :: '6' :: ':' :: hex := by
      have hsep : c = ':' ∨ c = '-' := by simpa using hc
      rcases hsep with rfl | rfl
      · exact congrArg (List.append "sha256:".toList) hsame
      · exact congrArg (List.append "sha256:".toList) hsame
    rw [hback]
    show (true && (hex.length == 64) && hex.all isHex) = true
    rw [hlen, hhex]
    rfl
  · cases h

/-- The name of a listed blob is a digest again. -/
theorem path_of_path (h : GetBlobsPath k = some f) : GetBlobsPath (replaceAll f '-' ':') ≠ none := by
  unfold GetBlobsPath at h ⊢
  split at h
  · cases h
  rename_i hd
  cases h
  rw [if_neg]
  · exact nofun
  rintro ⟨hne, hfalse⟩
  by_cases hk : k = []
  · rw [hk] at hne
    exact hne rfl
  · have hdigest : isDigest k = true := by
      rw [← Bool.not_eq_false]
      exact fun hf => hd ⟨hk, hf⟩
    rw [isDigest_replace hdigest] at hfalse
    cases hfalse

theorem pruneNames_spec (hs : s.Kept) (names keys : List Str) :
    (pruneNames s keys names).1.Kept ∧ (pruneNames s keys names).1.manifests = s.manifests ∧
      ∀ k ∈ (pruneNames s keys names).2, k ∈ keys ∨ ∃ f ∈ names, k = replaceAll f '-' ':' := by
  induction names generalizing s keys with
  | nil => exact ⟨hs, rfl, fun k hk => Or.inl hk⟩
  | cons g names ih =>
    rw [pruneNames]
    split
    · next hnone =>
      have huse : ¬s.Uses g := by
        rintro ⟨m, hm, l, hl, hpath⟩
        exact path_of_path hpath hnone
      obtain ⟨hkept, hm, hkeys⟩ := ih (hs.removeBlob huse) keys
      refine ⟨hkept, hm, fun k hk => ?_⟩
      rcases hkeys k hk with h | ⟨f, hf, rfl⟩
      · exact Or.inl h
      · exact Or.inr ⟨f, mem_cons_of_mem _ hf, rfl⟩
    · obtain ⟨hkept, hm, hkeys⟩ := ih hs (replaceAll g '-' ':' :: keys)
      refine ⟨hkept, hm, fun k hk => ?_⟩
      rcases hkeys k hk with h | ⟨f, hf, rfl⟩
      · rcases mem_cons.mp h with rfl | h
        · exact Or.inr ⟨g, mem_cons_self, rfl⟩
        · exact Or.inl h
      · exact Or.inr ⟨f, mem_cons_of_mem _ hf, rfl⟩

theorem Disk.Kept.pruneLayers (hs : s.Kept) (hk : ∀ f ∈ s.files, s.Clean (replaceAll f '-' ':')) :
    (PruneLayers s).Kept := by
  obtain ⟨hkept, hm, hkeys⟩ := pruneNames_spec hs s.files []
  refine hkept.deleteUnusedLayers fun k hmem => ?_
  rcases hkeys k hmem with h | ⟨f, hf, rfl⟩
  · cases h
  · exact (hk f hf).congr (manifests_congr hm)

/-! ## §4  Pulling -/

theorem files_addBlob (s : Disk Blob) (f : Str) (b : Blob) : s.files ⊆ (s.addBlob f b).files :=
  subset_cons_self f s.files

/-- What was not there when it was downloaded. -/
theorem downloadAll_spec (fetch : Str → Option Blob) (digests : List Str) (s : Disk Blob)
    (skipVerify : Str → Bool) :
    (downloadAll fetch digests s skipVerify).1.manifests = s.manifests ∧
      s.files ⊆ (downloadAll fetch digests s skipVerify).1.files ∧
      ∀ d, (downloadAll fetch digests s skipVerify).2.1 d = false →
        (downloadAll fetch digests s skipVerify).2.2 = true →
        (skipVerify d = false ∧ d ∉ digests) ∨ ∀ f, GetBlobsPath d = some f → f ∉ s.files := by
  induction digests generalizing s skipVerify with
  | nil => exact ⟨rfl, List.Subset.refl _, fun d hd _ => Or.inl ⟨hd, not_mem_nil⟩⟩
  | cons digest digests ih =>
    rw [downloadAll]
    split
    · exact ⟨rfl, List.Subset.refl _, nofun⟩
    next cacheHit s₁ hdownload =>
    have hstep : s₁.manifests = s.manifests ∧ s.files ⊆ s₁.files ∧
        (cacheHit = false → ∀ f, GetBlobsPath digest = some f → f ∉ s.files) := by
      unfold downloadBlob at hdownload
      split at hdownload
      · cases hdownload
      split at hdownload
      · cases hdownload
      next f hpath =>
      split at hdownload
      · cases hdownload
        exact ⟨rfl, List.Subset.refl _, nofun⟩
      rename_i hmem
      obtain ⟨b, -, hb⟩ := Option.map_eq_some_iff.mp hdownload
      cases hb
      refine ⟨rfl, files_addBlob s f b, fun _ g hg => ?_⟩
      rw [hpath] at hg
      cases hg
      exact hmem
    obtain ⟨hm, hsub, hmiss⟩ := hstep
    obtain ⟨hm', hsub', hspec⟩ := ih s₁ (Function.update skipVerify digest cacheHit)
    refine ⟨hm'.trans hm, List.Subset.trans hsub hsub', fun d hd hend => ?_⟩
    rcases hspec d hd hend with ⟨hskip, hnot⟩ | hnot
    · by_cases heq : d = digest
      · subst heq
        rw [Function.update_self] at hskip
        exact Or.inr (hmiss hskip)
      · rw [Function.update_of_ne heq] at hskip
        refine Or.inl ⟨hskip, ?_⟩
        rw [mem_cons, not_or]
        exact ⟨heq, hnot⟩
    · exact Or.inr fun f hf hmem => hnot f hf (hsub hmem)

theorem verifyAll_spec (sum : Blob → Str) {skipVerify : Str → Bool} (old : List Str)
    (hold : old ⊆ s.files) (digests : List Str)
    (hskip : ∀ d ∈ digests, skipVerify d = false → ∀ f, GetBlobsPath d = some f → f ∉ old) :
    (verifyAll sum s skipVerify digests).1.manifests = s.manifests ∧
      old ⊆ (verifyAll sum s skipVerify digests).1.files := by
  induction digests with
  | nil => exact ⟨rfl, hold⟩
  | cons digest digests ih =>
    obtain ⟨hd, hdigests⟩ := forall_mem_cons.mp hskip
    rw [verifyAll]
    split
    · exact ih hdigests
    next hverify =>
    split
    · exact ih hdigests
    · split
      · exact ⟨rfl, hold⟩
      · next f hpath =>
        refine ⟨rfl, fun g hg => mem_files_removeBlob.mpr ⟨hold hg, ?_⟩⟩
        rintro rfl
        exact hd ((Bool.not_eq_true _).mp hverify) g hpath hg
    · exact ⟨rfl, hold⟩

/-- Pulling blobs takes none away. -/
theorem pullBlobs_spec (sum : Blob → Str) (fetch : Str → Option Blob) (s : Disk Blob)
    (m : Manifest) : (pullBlobs sum fetch s m).1.manifests = s.manifests ∧
      s.files ⊆ (pullBlobs sum fetch s m).1.files := by
  obtain ⟨hm, hsub, hskip⟩ := downloadAll_spec fetch m.digests s fun _ => false
  unfold pullBlobs
  split
  · next s₁ _ heq =>
    rw [heq] at hm hsub
    exact ⟨hm, hsub⟩
  · next s₁ skipVerify heq =>
    rw [heq] at hm hsub hskip
    obtain ⟨hm', hsub'⟩ := verifyAll_spec sum s.files hsub m.digests
      fun d hd hfalse f hf => (hskip d hfalse rfl).elim (fun h => absurd hd h.2) fun h => h f hf
    exact ⟨hm'.trans hm, hsub'⟩

def PullClean (sum : Blob → Str) (NoPrune : Bool) (s : Disk Blob) (n : Model.Name)
    (r : Registry Blob) : Prop :=
  ∀ m, r.manifest = some m → (pullBlobs sum r.fetch s m).2 = none → n.IsValid = true →
    NoPrune = false → ∀ k ∈ deleteMap (s.ParseNamedManifest n) m,
      (s.writeManifest n (some m)).Clean k

variable {NoPrune : Bool}

theorem Disk.Kept.pullModel {sum : Blob → Str} {r : Registry Blob} (hs : s.Kept)
    (hclean : PullClean sum NoPrune s n r) : (PullModel sum NoPrune s n r).1.Kept := by
  unfold PullModel
  cases hmanifest : r.manifest with
  | none => exact hs
  | some m =>
    obtain ⟨hm, hsub⟩ := pullBlobs_spec sum r.fetch s m
    simp only
    split
    · next s₁ e heq =>
      rw [heq] at hm hsub
      exact hs.mono hm hsub
    rename_i s₁ heq
    rw [heq] at hm hsub
    have hkept := (hs.mono hm hsub).writeManifest n (some m)
    split
    · next hvalid =>
      cases NoPrune with
      | true => exact hkept
      | false =>
        refine hkept.deleteUnusedLayers fun k hk => ?_
        exact (hclean m hmanifest (by rw [heq]) hvalid rfl k hk).congr
          (manifests_write hm n (some m))
    · exact hs.mono hm hsub

/-! ## §5  Creating -/

variable {α β : Type} {c : Codec Blob V Msg} {base layers : List Layer} {seen : List Str}

/-- No manifest is written, what is kept stays, and a result has the property `P`. -/
structure Keeps (s : Disk Blob) (x : Result Blob α) (P : α → Prop) : Prop where
  manifests : x.1.manifests = s.manifests
  kept : s.Kept → x.1.Kept
  result : ∀ a, x.2 = .ok a → P a

variable {P : α → Prop}

theorem Keeps.ok {a : α} (h : P a) : Keeps s (s, .ok a) P := by
  refine ⟨rfl, id, ?_⟩
  rintro a' heq
  cases heq
  exact h

theorem Keeps.error {e : Failure} : Keeps s (s, .error e) P := ⟨rfl, id, nofun⟩

theorem Keeps.andThen {x : Result Blob α} {f : Disk Blob → α → Result Blob β}
    {Q : β → Prop} (h : Keeps s x P)
    (hf : ∀ s' a, s'.manifests = s.manifests → P a → Keeps s' (f s' a) Q) :
    Keeps s (x.andThen f) Q := by
  obtain ⟨s', r⟩ := x
  cases r with
  | error e => exact ⟨h.manifests, h.kept, nofun⟩
  | ok a =>
    have hnext := hf s' a h.manifests (h.result a rfl)
    exact ⟨hnext.manifests.trans h.manifests, fun hs => hnext.kept (h.kept hs), hnext.result⟩

theorem Keeps.of_kept {x : Result Blob α} (h : Keeps s' x P)
    (hm : s'.manifests = s.manifests) (hkept : s.Kept → s'.Kept) : Keeps s x P :=
  ⟨h.manifests.trans hm, fun hs => h.kept (hkept hs), h.result⟩

theorem newLayer_keeps (c : Codec Blob V Msg) (s : Disk Blob) (b : Blob) (mediatype : Str) :
    Keeps s (NewLayer c s b mediatype) fun l => l.MediaType = mediatype := by
  unfold NewLayer
  split
  · exact Keeps.error
  split
  · exact Keeps.ok rfl
  · refine ⟨rfl, fun hs => hs.mono rfl (files_addBlob s _ b), ?_⟩
    rintro a heq
    cases heq
    rfl

/-- The layers are base layers, or of the media types `seen`. -/
def From (base : List Layer) (seen : List Str) (layers : List Layer) : Prop :=
  ∀ l ∈ layers, l ∈ base ∨ l.MediaType ∈ seen

theorem From.mono {seen' : List Str} (h : From base seen layers) (hseen : seen ⊆ seen') :
    From base seen' layers := fun l hl => (h l hl).imp id fun hmem => hseen hmem

theorem appendLayer_keeps (c : Codec Blob V Msg) (s : Disk Blob) (h : From base seen layers)
    (b : Blob) (mediatype : Str) :
    Keeps s (appendLayer c s layers b mediatype) (From base (mediatype :: seen)) := by
  refine (newLayer_keeps c s b mediatype).andThen fun s' l _ hl => Keeps.ok fun l' hl' => ?_
  rcases mem_append.mp hl' with hl' | hl'
  · exact (h l' hl').imp id fun hmem => mem_cons_of_mem _ hmem
  · rw [mem_singleton.mp hl', hl]
    exact Or.inr mem_cons_self

def Disk.Replaces (s : Disk Blob) (base : List Layer) (mediatype : Str) : Prop :=
  ∀ l ∈ base, l.MediaType = mediatype → s.Clean l.Digest

variable {mediatype : Str}

theorem Disk.Replaces.congr (h : s.Replaces base mediatype)
    (hm : s'.manifests = s.manifests) : s'.Replaces base mediatype :=
  fun l hl hmedia => (h l hl hmedia).congr (manifests_congr hm)

theorem removeLayer_keeps (layers : List Layer) (s : Disk Blob)
    (hclean : s.Replaces layers mediatype) :
    (removeLayer mediatype s layers).1.manifests = s.manifests ∧
      (s.Kept → (removeLayer mediatype s layers).1.Kept) ∧
      (removeLayer mediatype s layers).2 ⊆ layers := by
  induction layers generalizing s with
  | nil => exact ⟨rfl, id, List.Subset.refl _⟩
  | cons l layers ih =>
    obtain ⟨hl, hlayers⟩ := forall_mem_cons.mp hclean
    have hlayers : s.Replaces layers mediatype := hlayers
    rw [removeLayer]
    split
    · obtain ⟨hm, hkept, hsub⟩ := ih s hlayers
      exact ⟨hm, hkept, cons_subset_cons l hsub⟩
    · next hmedia =>
      have hrm := remove_manifests s l.Digest
      obtain ⟨hm, hkept, hsub⟩ := ih (s.Remove l.Digest).1 (hlayers.congr hrm)
      exact ⟨hm.trans hrm, fun hs => hkept (hs.remove (hl (not_not.mp hmedia))),
        List.Subset.trans hsub (subset_cons_self l layers)⟩

theorem Disk.Replaces.of_from (h : s.Replaces base mediatype)
    (hfrom : From base seen layers) (hseen : mediatype ∉ seen) : s.Replaces layers mediatype := by
  intro l hl hmedia
  rcases hfrom l hl with hbase | hmem
  · exact h l hbase hmedia
  · rw [hmedia] at hmem
    exact absurd hmem hseen

theorem replace_keeps {f : Disk Blob → List Layer → Result Blob (List Layer)}
    {Q : List Layer → Prop} (hbase : s.Replaces base mediatype) (hfrom : From base seen layers)
    (hseen : mediatype ∉ seen)
    (hf : ∀ s' layers', From base seen layers' → Keeps s' (f s' layers') Q) :
    Keeps s (f (removeLayer mediatype s layers).1 (removeLayer mediatype s layers).2) Q := by
  obtain ⟨hm, hkept, hsub⟩ := removeLayer_keeps layers s (hbase.of_from hfrom hseen)
  exact (hf _ _ fun l hl => hfrom l (hsub hl)).of_kept hm hkept

theorem setTemplate_keeps (t : Str) (hbase : s.Replaces base mediaTemplate)
    (hfrom : From base seen layers) (hseen : mediaTemplate ∉ seen) :
    Keeps s (setTemplate c s layers t) (From base (mediaTemplate :: seen)) := by
  refine replace_keeps hbase hfrom hseen
    (f := fun s layers => if !c.templateParses t then (s, .error .badTemplate)
      else appendLayer c s layers (c.text t) mediaTemplate) fun s' layers' hfrom' => ?_
  split
  · exact Keeps.error
  · exact appendLayer_keeps c s' hfrom' (c.text t) mediaTemplate

theorem setSystem_keeps (t : Str) (hbase : s.Replaces base mediaSystem)
    (hfrom : From base seen layers) (hseen : mediaSystem ∉ seen) :
    Keeps s (setSystem c s layers t) (From base (mediaSystem :: seen)) := by
  refine replace_keeps hbase hfrom hseen
    (f := fun s layers => if t ≠ [] then appendLayer c s layers (c.text t) mediaSystem
      else (s, .ok layers)) fun s' layers' hfrom' => ?_
  split
  · exact appendLayer_keeps c s' hfrom' (c.text t) mediaSystem
  · exact Keeps.ok (hfrom'.mono (subset_cons_self _ _))

theorem setLicenses_keeps (ts : List Str) (s : Disk Blob) (hfrom : From base seen layers)
    (hseen : mediaLicense ∈ seen) :
    Keeps s (setLicenses c s layers ts) (From base seen) := by
  induction ts generalizing s layers with
  | nil => exact Keeps.ok hfrom
  | cons t ts ih =>
    refine (appendLayer_keeps c s hfrom (c.text t) mediaLicense).andThen fun s' layers' _ h' => ?_
    refine ih s' (h'.mono ?_)
    rintro mt hmt
    rcases mem_cons.mp hmt with rfl | hmt
    · exact hseen
    · exact hmt

theorem setParameters_keeps (p : List (Str × V)) (hbase : s.Replaces base mediaParams)
    (hfrom : From base seen layers) (hseen : mediaParams ∉ seen) :
    Keeps s (setParameters c s layers p) (From base (mediaParams :: seen)) := by
  unfold setParameters
  split
  · exact Keeps.error
  · exact Keeps.ok (hfrom.mono (subset_cons_self _ _))
  · next p' _ _ =>
    exact replace_keeps hbase hfrom hseen
      (f := fun s layers => appendLayer c s layers (c.encodeParameters p') mediaParams)
      fun s' layers' hfrom' => appendLayer_keeps c s' hfrom' _ mediaParams

theorem setMessages_keeps (ms : List Msg) (hbase : s.Replaces base mediaMessages)
    (hfrom : From base seen layers) (hseen : mediaMessages ∉ seen) :
    Keeps s (setMessages c s layers ms) (From base (mediaMessages :: seen)) := by
  unfold setMessages
  split
  · exact Keeps.ok (hfrom.mono (subset_cons_self _ _))
  · exact replace_keeps hbase hfrom hseen
      (f := fun s layers => appendLayer c s layers (c.encodeMessages ms) mediaMessages)
      fun s' layers' hfrom' => appendLayer_keeps c s' hfrom' _ mediaMessages

structure CreateRequest.Replaces (r : CreateRequest Blob V Msg) (s : Disk Blob) : Prop where
  template : r.Template ≠ [] → s.Replaces r.base mediaTemplate
  system : r.System ≠ [] → s.Replaces r.base mediaSystem
  params : s.Replaces r.base mediaParams
  messages : r.Messages ≠ [] → s.Replaces r.base mediaMessages

variable {r : CreateRequest Blob V Msg}

theorem createLayers_keeps (h : r.Replaces s) : Keeps s (createLayers c s r) fun _ => True := by
  have hbase : From r.base [] r.base := fun l hl => Or.inl hl
  have htemplate : Keeps s (if r.Template ≠ [] then setTemplate c s r.base r.Template
      else (s, .ok r.base)) (From r.base [mediaTemplate]) := by
    split
    · next ht => exact setTemplate_keeps r.Template (h.template ht) hbase not_mem_nil
    · exact Keeps.ok (hbase.mono (nil_subset _))
  have hsystem := htemplate.andThen (f := fun s layers =>
      if r.System ≠ [] then setSystem c s layers r.System else (s, .ok layers))
    (Q := From r.base [mediaSystem, mediaTemplate]) fun s' layers hm hfrom => by
      split
      · next hsys => exact setSystem_keeps r.System ((h.system hsys).congr hm) hfrom (by decide)
      · exact Keeps.ok (hfrom.mono (subset_cons_self _ _))
  have hlicense := hsystem.andThen (f := fun s layers => setLicenses c s layers r.License)
    (Q := From r.base [mediaLicense, mediaSystem, mediaTemplate]) fun s' layers _ hfrom =>
      setLicenses_keeps r.License s' (hfrom.mono (subset_cons_self _ _)) mem_cons_self
  have hparams := hlicense.andThen (f := fun s layers => setParameters c s layers r.Parameters)
    (Q := From r.base [mediaParams, mediaLicense, mediaSystem, mediaTemplate])
    fun s' layers hm hfrom =>
      setParameters_keeps r.Parameters (h.params.congr hm) hfrom (by decide)
  exact hparams.andThen fun s' layers hm hfrom => by
    by_cases hmsg : r.Messages = []
    · unfold setMessages
      rw [if_pos hmsg]
      exact Keeps.ok trivial
    · have hkeeps : Keeps s' (setMessages c s' layers r.Messages) _ :=
        setMessages_keeps r.Messages ((h.messages hmsg).congr hm) hfrom (by decide)
      exact ⟨hkeeps.manifests, hkeeps.kept, fun _ _ => trivial⟩

theorem Disk.Kept.createModel (hs : s.Kept) (h : r.Replaces s) : (createModel c s r).1.Kept := by
  have hlayers := createLayers_keeps (c := c) h
  have hkept := hlayers.kept hs
  unfold Garbage.createModel
  generalize createLayers c s r = x at hkept ⊢
  obtain ⟨s₁, layers⟩ := x
  cases layers with
  | error e => exact hkept
  | ok layers =>
    have hconfig := newLayer_keeps c s₁ (c.encodeConfig (layers.map Layer.Digest)) mediaConfig
    simp only [Result.andThen]
    generalize NewLayer c s₁ (c.encodeConfig (layers.map Layer.Digest)) mediaConfig = x at hconfig ⊢
    obtain ⟨s₂, config⟩ := x
    cases config with
    | error e => exact hconfig.kept hkept
    | ok config => exact (hconfig.kept hkept).writeManifest r.name _

/-- A create removes clean layers only: those that a model pulled for it leaves, base layers that
it replaces, and at its end those of the manifest before. -/
structure CreateClean (c : Codec Blob V Msg) (NoPrune : Bool) (s : Disk Blob)
    (r : CreateRequest Blob V Msg) : Prop where
  pulled : ∀ n registry, r.pulled = some (n, registry) → PullClean c.sum NoPrune s n registry
  replaced : r.Replaces (createBase c NoPrune s r)
  old : NoPrune = false → ∀ m, s.ParseNamedManifest r.name = some m →
    (createModel c (createBase c NoPrune s r) r).2 = none →
    ∀ l ∈ m.all, (createModel c (createBase c NoPrune s r) r).1.Clean l.Digest

theorem Disk.Kept.createBase (hs : s.Kept)
    (h : ∀ n registry, r.pulled = some (n, registry) → PullClean c.sum NoPrune s n registry) :
    (createBase c NoPrune s r).Kept := by
  have hmade : ∀ (bs : List Blob) (s : Disk Blob), s.Kept →
      (bs.foldl (fun s b => (NewLayer c s b []).1) s).Kept := by
    intro bs
    induction bs with
    | nil => exact fun s hs => hs
    | cons b bs ih => exact fun s hs => ih _ ((newLayer_keeps c s b []).kept hs)
  unfold Garbage.createBase
  cases hpulled : r.pulled with
  | none => exact hmade r.made s hs
  | some p => exact hmade r.made _ (hs.pullModel (h p.1 p.2 hpulled))

theorem Disk.Kept.createHandler (hs : s.Kept)
    (h : CreateClean c NoPrune s r) : (CreateHandler c NoPrune s r).1.Kept := by
  have hkept := (hs.createBase h.pulled).createModel (c := c) h.replaced
  have hold := h.old
  unfold CreateHandler
  generalize Garbage.createModel c (Garbage.createBase c NoPrune s r) r = x at hkept hold ⊢
  obtain ⟨s', e⟩ := x
  cases e with
  | some e => exact hkept
  | none =>
    cases hparse : s.ParseNamedManifest r.name with
    | none => exact hkept
    | some m =>
      cases NoPrune with
      | true => exact hkept
      | false => exact hkept.removeLayers (hold rfl m hparse rfl)

/-! ## §6  Runs -/

/-- The operation removes only what is clean. -/
def Op.Clean (c : Codec Blob V Msg) (NoPrune : Bool) (s : Disk Blob) : Op Blob V Msg → Prop
  | .upload _ => True
  | .create r => CreateClean c NoPrune s r
  | .copy _ _ => True
  | .pull n r => PullClean c.sum NoPrune s n r
  | .delete n =>
      ∀ m, s.ParseNamedManifest n = some m → ∀ l ∈ m.all, (s.removeManifest n).Clean l.Digest
  | .prune => ∀ f ∈ s.files, s.Clean (replaceAll f '-' ':')

/-- Every operation of a run does. -/
def RunClean (c : Codec Blob V Msg) (NoPrune : Bool) : Disk Blob → List (Op Blob V Msg) → Prop
  | _, [] => True
  | s, op :: ops => op.Clean c NoPrune s ∧ RunClean c NoPrune (step c NoPrune s op) ops

theorem Disk.Kept.step {op : Op Blob V Msg} (hs : s.Kept)
    (h : op.Clean c NoPrune s) : (step c NoPrune s op).Kept := by
  cases op with
  | upload b => exact (newLayer_keeps c s b []).kept hs
  | create r => exact hs.createHandler h
  | copy src dst =>
    show (CopyModel s src dst).1.Kept
    unfold CopyModel
    split
    · exact hs
    split
    · exact hs
    split
    · exact hs
    · exact hs.writeManifest dst _
  | pull n r => exact hs.pullModel h
  | delete n =>
    show (DeleteHandler s n).1.Kept
    unfold DeleteHandler
    cases hparse : s.ParseNamedManifest n with
    | none => exact hs
    | some m => exact (hs.removeManifest n).removeLayers (h m hparse)
  | prune => exact hs.pruneLayers h

/-- **Garbage collection keeps what is referenced.** In every run that removes a digest which no
manifest lists only when none lists it in another spelling either, each readable manifest has the
blobs that were there when it was written, after every operation. -/
theorem run_kept (c : Codec Blob V Msg) (NoPrune : Bool) (s : Disk Blob) (hs : s.Kept)
    (ops : List (Op Blob V Msg)) (hclean : RunClean c NoPrune s ops) :
    ∀ done, done <+: ops → (run c NoPrune s done).Kept := by
  induction ops generalizing s with
  | nil =>
    intro done hdone
    rw [prefix_nil.mp hdone]
    exact hs
  | cons op ops ih =>
    obtain ⟨hop, hops⟩ := hclean
    intro done hdone
    cases done with
    | nil => exact hs
    | cons op' done =>
      obtain ⟨rfl, hrest⟩ := cons_prefix_cons.mp hdone
      exact ih _ (hs.step hop) hops done hrest

/-- Blobs that are their own hashes. -/
def hexCodec : Codec Str Unit Unit where
  sum b := "sha256:".toList ++ b
  text := id
  templateParses _ := true
  decodeParameters _ := none
  encodeParameters _ := []
  encodeMessages _ := []
  encodeConfig _ := List.replicate 64 'c'

/-- A model of one uploaded blob, whose digest is spelled with `sep`. -/
def createOne (sep : Char) : CreateRequest Str Unit Unit where
  name := ⟨"h".toList, "n".toList, "m".toList, "t".toList⟩
  pulled := none
  made := []
  base := [⟨"application/vnd.ollama.image.model".toList,
    "sha256".toList ++ sep :: List.replicate 64 '0'⟩]
  Template := []
  System := []
  License := []
  Parameters := []
  Messages := []

theorem run_kept_colon : (run hexCodec false ⟨[], []⟩
      [.upload (List.replicate 64 '0'), .create (createOne ':'), .prune]).Kept := by
  have hclean : RunClean hexCodec false ⟨[], []⟩
      [.upload (List.replicate 64 '0'), .create (createOne ':'), .prune] := by
    refine ⟨trivial, ⟨nofun, ⟨?_, ?_, ?_, ?_⟩, nofun⟩, ?_, trivial⟩
    · exact fun h => absurd rfl h
    · exact fun h => absurd rfl h
    · intro l hl hmedia
      rw [mem_singleton.mp hl] at hmedia
      exact absurd hmedia (by decide)
    · exact fun h => absurd rfl h
    · intro f hf
      left
      revert f
      decide
  exact run_kept hexCodec false ⟨[], []⟩ nofun _ hclean _ (prefix_refl _)

/-- A digest spelled with a dash is listed, but its blob is pruned. -/
theorem dash_digest_pruned : ¬(run hexCodec false ⟨[], []⟩
      [.upload (List.replicate 64 '0'), .create (createOne '-'), .prune]).Kept := by
  intro h
  have hmem := h _ mem_cons_self _ rfl _ mem_cons_self _ rfl (by decide)
  exact absurd hmem (by decide)

theorem mem_files_removeFiles {keys : List Str} : f ∈ (removeFiles s keys).files ↔
    f ∈ s.files ∧ ∀ k ∈ keys, GetBlobsPath k ≠ some f := by
  induction keys generalizing s with
  | nil => simp [removeFiles]
  | cons k keys ih =>
    rw [removeFiles, forall_mem_cons]
    split
    · next hnone =>
      rw [ih, hnone]
      simp
    · next g hg =>
      rw [ih, mem_files_removeBlob, hg, Option.some_inj.ne, and_assoc, ne_comm]

/-- What the first loop of `PruneLayers` leaves and collects. -/
theorem pruneNames_files (names keys : List Str) :
    (pruneNames s keys names).1.manifests = s.manifests ∧
      (∀ f, f ∈ (pruneNames s keys names).1.files ↔
        f ∈ s.files ∧ (f ∈ names → GetBlobsPath (replaceAll f '-' ':') ≠ none)) ∧
      ∀ k, k ∈ (pruneNames s keys names).2 ↔ k ∈ keys ∨
        ∃ g ∈ names, replaceAll g '-' ':' = k ∧ GetBlobsPath k ≠ none := by
  induction names generalizing s keys with
  | nil => simp [pruneNames]
  | cons g names ih =>
    rw [pruneNames]
    split
    · next hnone =>
      obtain ⟨hm, hfiles, hkeys⟩ := @ih (s.removeBlob g) keys
      refine ⟨hm, fun f => ?_, fun k => ?_⟩
      · rw [hfiles, mem_files_removeBlob]
        grind
      · rw [hkeys]
        grind
    · next p hp =>
      obtain ⟨hm, hfiles, hkeys⟩ := @ih s (replaceAll g '-' ':' :: keys)
      refine ⟨hm, fun f => ?_, fun k => ?_⟩
      · rw [hfiles]
        grind
      · rw [hkeys]
        grind

/-- **What pruning leaves**: of the files whose names are digests, those that no file stands for
whose digest no manifest lists. -/
theorem mem_files_pruneLayers (s : Disk Blob) (f : Str) : f ∈ (PruneLayers s).files ↔
    f ∈ s.files ∧ GetBlobsPath (replaceAll f '-' ':') ≠ none ∧
      ∀ g ∈ s.files, GetBlobsPath (replaceAll g '-' ':') = some f →
        s.lists (replaceAll g '-' ':') = true := by
  obtain ⟨hm, hfiles, hkeys⟩ := @pruneNames_files _ s s.files []
  have hlists : ∀ k, (pruneNames s [] s.files).1.lists k = s.lists k := by
    intro k
    unfold Disk.lists
    rw [manifests_congr hm]
  unfold PruneLayers deleteUnusedLayers
  dsimp only
  rw [mem_files_removeFiles, hfiles]
  simp only [mem_filter, hkeys, hlists]
  grind

end Ollama.Server.Garbage
