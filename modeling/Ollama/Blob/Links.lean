import Ollama.Blob.DiskCache

/-!
# Links resolve to what was linked last
-/

namespace Ollama.Blob

open Lib Lib.Binary Model Names DiskCache Listing

variable {Digest : Type} {c c' : DiskCache Digest} {name v p : Str} {d : Digest}

/-! ## §1  What resolving depends on -/

/-- Names that are equal up to case. -/
def SameName (v name : Str) : Prop :=
  ∃ p q, linkPath v = some p ∧ linkPath name = some q ∧ equalFold p q = true

/-- The operation links or unlinks the name. -/
def Op.Relinks (name : Str) : Op Digest → Prop
  | .link n _ => SameName n name
  | .unlink n => SameName n name
  | _ => False

def DiskCache.manifest (c : DiskCache Digest) (name : Str) : Option Bytes :=
  match c.manifestPath name with
  | .ok file => get c.manifests file
  | .error _ => none

def DiskCache.found (c : DiskCache Digest) (p : Str) : Option (Str × Bytes) :=
  pick (equalFold p) c.manifests

theorem equalFold_iff {s t : Str} : equalFold s t = true ↔ s.map Char.toLower = t.map Char.toLower :=
  beq_iff_eq

theorem equalFold_congr {s t : Str} (h : equalFold s t = true) : equalFold s = equalFold t := by
  funext u
  unfold equalFold
  rw [equalFold_iff.mp h]

theorem linkFile_some {l : Str} {m : Bytes} (h : c.found p = some (l, m)) : c.linkFile p = l := by
  unfold found at h
  unfold linkFile
  rw [h]

theorem linkFile_none (h : c.found p = none) : c.linkFile p = p := by
  unfold found at h
  unfold linkFile
  rw [h]

theorem found_congr {q : Str} (h : equalFold p q = true) : c.found p = c.found q := by
  unfold found
  rw [equalFold_congr h]

theorem manifestPath_none (hp : linkPath name = none) :
    c.manifestPath name = .error .invalidName := by
  unfold manifestPath
  rw [hp]

theorem manifestPath_some (hp : linkPath name = some p) :
    c.manifestPath name = .ok (c.linkFile p) := by
  unfold manifestPath
  rw [hp]

theorem equalFold_linkFile (c : DiskCache Digest) (p : Str) :
    equalFold p (c.linkFile p) = true := by
  cases h : c.found p with
  | none =>
    rw [linkFile_none h]
    exact equalFold_refl p
  | some e =>
    rw [linkFile_some h]
    exact pick_name h

theorem get_linkFile (c : DiskCache Digest) (p : Str) :
    get c.manifests (c.linkFile p) = (c.found p).map Prod.snd := by
  cases h : c.found p with
  | none =>
    rw [linkFile_none h]
    exact get_of_pick_none h (equalFold_refl p)
  | some e =>
    rw [linkFile_some h]
    exact get_of_pick h

theorem manifest_eq (hp : linkPath name = some p) : c.manifest name = (c.found p).map Prod.snd := by
  unfold manifest
  rw [manifestPath_some hp]
  exact get_linkFile c p

theorem splitNameDigest_plain (h : '@' ∉ name) : splitNameDigest name = (name, []) := by
  unfold splitNameDigest
  rw [cutLast_eq_none (forall_ne h)]

variable [DecidableEq Digest] {sum : Bytes → Digest} {ParseDigest : Str → Option Digest}

/-- A name is resolved to the hash of its manifest, of which a mebibyte is read. -/
theorem resolve_eq (hname : '@' ∉ name) : (c.Resolve sum ParseDigest name).1 =
    match linkPath name with
    | none => .error .invalidName
    | some p =>
        match c.found p with
        | none => .error .notExist
        | some e => .ok (sum (e.2.take (1 <<< 20))) := by
  unfold Resolve
  rw [splitNameDigest_plain hname]
  simp only [ne_eq, not_true_eq_false, if_false]
  cases hp : linkPath name with
  | none =>
    rw [manifestPath_none hp]
  | some p =>
    rw [manifestPath_some hp]
    simp only [get_linkFile]
    cases c.found p with
    | none => rfl
    | some e =>
      simp only [Option.map_some, readAndSum]
      have hok : (c.PutBytes sum (sum (e.2.take (1 <<< 20))) (e.2.take (1 <<< 20))).1 = none :=
        (putBytes_ok c rfl).1
      split
      · next herr =>
        rw [herr] at hok
        cases hok
      · rfl

theorem resolve_some {e : Str × Bytes} (hname : '@' ∉ name) (hp : linkPath name = some p)
    (hfound : c.found p = some e) :
    (c.Resolve sum ParseDigest name).1 = .ok (sum (e.2.take (1 <<< 20))) := by
  rw [resolve_eq hname, hp]
  simp only [hfound]

theorem resolve_none (hname : '@' ∉ name) (hp : linkPath name = some p)
    (hfound : c.found p = none) : (c.Resolve sum ParseDigest name).1 = .error .notExist := by
  rw [resolve_eq hname, hp]
  simp only [hfound]

/-! ## §2  Operations on other names -/

/-- What an operation does to the links: nothing, or it writes or removes the file of a name that
it links or unlinks. -/
theorem step_manifests (sum : Bytes → Digest) (ParseDigest : Str → Option Digest)
    (c : DiskCache Digest) (op : Op Digest) :
    (c.step sum ParseDigest op).manifests = c.manifests ∨
      ∃ n q, linkPath n = some q ∧ ((∃ d, op = .link n d) ∨ op = .unlink n) ∧
        ((∃ data, (c.step sum ParseDigest op).manifests =
            write lexical c.manifests (c.linkFile q) data) ∨
          (c.step sum ParseDigest op).manifests = remove c.manifests (c.linkFile q)) := by
  cases op with
  | put d r size => exact Or.inl rfl
  | putBytes d data => exact Or.inl rfl
  | imp r size =>
    left
    unfold step Import
    simp only
    split
    · rfl
    · split <;> rfl
  | link n d =>
    have hstep : c.step sum ParseDigest (.link n d) = (c.Link sum n d).2 := rfl
    rw [hstep]
    unfold Link
    cases hq : linkPath n with
    | none =>
      rw [manifestPath_none hq]
      exact Or.inl rfl
    | some q =>
      rw [manifestPath_some hq]
      cases c.blobs d with
      | none => exact Or.inl rfl
      | some blob => exact Or.inr ⟨n, q, hq, Or.inl ⟨d, rfl⟩, Or.inl ⟨_, rfl⟩⟩
  | unlink n =>
    have hstep : c.step sum ParseDigest (.unlink n) = (c.Unlink n).2 := rfl
    rw [hstep]
    unfold Unlink
    cases hq : linkPath n with
    | none =>
      rw [manifestPath_none hq]
      exact Or.inl rfl
    | some q =>
      rw [manifestPath_some hq]
      simp only
      cases get c.manifests (c.linkFile q) with
      | none => exact Or.inl rfl
      | some old => exact Or.inr ⟨n, q, hq, Or.inr rfl, Or.inr rfl⟩
  | resolve n =>
    left
    unfold step Resolve
    simp only
    split
    · split <;> rfl
    split
    · rfl
    split
    · rfl
    · split
      · next heq => exact (congrArg (fun r => r.2.manifests) heq).symm
      · next heq => exact (congrArg (fun r => r.2.manifests) heq).symm

/-- The link of a name stays when other names are operated on. -/
theorem found_step (hp : linkPath name = some p) {op : Op Digest} (hop : ¬op.Relinks name) :
    (c.step sum ParseDigest op).found p = c.found p := by
  unfold found
  rcases step_manifests sum ParseDigest c op with h | ⟨n, q, hq, hop', hstep⟩
  · rw [h]
  have hother : equalFold p (c.linkFile q) = false := by
    have hne : ¬SameName n name := by
      rcases hop' with ⟨d, rfl⟩ | rfl
      · exact hop
      · exact hop
    rw [← Bool.not_eq_true]
    intro hsame
    have hfold := equalFold_linkFile c q
    refine hne ⟨q, p, hq, hp, ?_⟩
    rw [equalFold_iff] at hsame hfold ⊢
    exact hfold.trans hsame.symm
  rcases hstep with ⟨data, hstep⟩ | hstep
  · rw [hstep]
    exact pick_write_other hother
  · rw [hstep]
    exact pick_remove_other hother

theorem found_run (hp : linkPath name = some p) {ops : List (Op Digest)}
    (hops : ∀ op ∈ ops, ¬op.Relinks name) (c : DiskCache Digest) :
    (c.run sum ParseDigest ops).found p = c.found p := by
  induction ops generalizing c with
  | nil => rfl
  | cons op ops ih =>
    obtain ⟨hop, hops⟩ := List.forall_mem_cons.mp hops
    exact (ih hops _).trans (found_step hp hop)

theorem resolve_run (hname : '@' ∉ name) {ops : List (Op Digest)}
    (hops : ∀ op ∈ ops, ¬op.Relinks name) (c : DiskCache Digest) :
    ((c.run sum ParseDigest ops).Resolve sum ParseDigest name).1 =
      (c.Resolve sum ParseDigest name).1 := by
  rw [resolve_eq hname, resolve_eq hname]
  cases hp : linkPath name with
  | none => rfl
  | some p => simp only [found_run hp hops c]

/-! ## §3  Linking and unlinking -/

/-- The link finds the blob whole: what is read of a manifest with its bytes hashes to `d`, and an
earlier manifest of the same length is the same. -/
def DiskCache.LinksWhole (sum : Bytes → Digest) (c : DiskCache Digest) (name : Str) (d : Digest) :
    Prop :=
  ∃ blob, c.blobs d = some blob ∧ sum (blob.take (1 <<< 20)) = d ∧
    ∀ old, c.manifest name = some old → old.length = blob.length → old = blob

/-- After a link, the name has the bytes of the blob, or of an earlier manifest of its length. -/
theorem link_found (hlink : c.Link sum name d = (none, c')) :
    ∃ p blob data, linkPath name = some p ∧ c.blobs d = some blob ∧
      c'.found p = some (c.linkFile p, data) ∧
      ((∀ old, c.manifest name = some old → old.length = blob.length → data = old) ∧
        ((∀ old, c.manifest name = some old → old.length ≠ blob.length) → data = blob)) := by
  unfold Link at hlink
  cases hp : linkPath name with
  | none =>
    rw [manifestPath_none hp] at hlink
    cases hlink
  | some p =>
    rw [manifestPath_some hp] at hlink
    simp only at hlink
    cases hblob : c.blobs d with
    | none =>
      rw [hblob] at hlink
      cases hlink
    | some blob =>
      rw [hblob] at hlink
      injection hlink with herr hc'
      generalize hcopy : copyNamedFile sum (get c.manifests (c.linkFile p)) (readFile blob) d
        blob.length = copied at herr hc'
      rw [copyNamedFile_exact _ (flatten_readFile blob) rfl, get_linkFile, ← manifest_eq hp] at hcopy
      refine ⟨p, blob, copied.1, rfl, rfl, ?_, ?_⟩
      · rw [← hc']
        refine pick_write (equalFold_linkFile c p) fun e he => ?_
        exact (linkFile_some he).symm
      -- without an error the blob was copied, unless nothing was
      have hcopied : ∀ r : Bytes × Option Error, r = copied →
          r = (if blob = [] ∨ sum blob = d then (blob, none) else ([], some .changedUnderfoot)) →
          copied.1 = blob := by
        rintro r rfl hr
        rw [hr] at herr ⊢
        split at herr
        · next h => rw [if_pos h]
        · cases herr
      cases hold : c.manifest name with
      | none =>
        rw [hold] at hcopy
        exact ⟨nofun, fun _ => hcopied _ hcopy rfl⟩
      | some old =>
        rw [hold] at hcopy
        simp only at hcopy
        by_cases hlen : old.length = blob.length
        · rw [if_pos hlen] at hcopy
          refine ⟨fun old' heq _ => ?_, fun h => absurd hlen (h old rfl)⟩
          cases heq
          rw [← hcopy]
        · rw [if_neg hlen] at hcopy
          refine ⟨fun old' heq hlen' => ?_, fun _ => hcopied _ hcopy rfl⟩
          cases heq
          exact absurd hlen' hlen

/-- The name and its variants have the blob and resolve to its digest. -/
def DiskCache.Linked (sum : Bytes → Digest) (ParseDigest : Str → Option Digest)
    (c : DiskCache Digest) (name : Str) (d : Digest) (blob : Option Bytes) : Prop :=
  ∀ v, SameName v name → '@' ∉ v → (c.Resolve sum ParseDigest v).1 = .ok d ∧ c.manifest v = blob

theorem linked_iff {e : Str × Bytes} (hname : '@' ∉ name) (hp : linkPath name = some p)
    (hfound : c.found p = some e) (blob : Option Bytes) :
    c.Linked sum ParseDigest name d blob ↔ sum (e.2.take (1 <<< 20)) = d ∧ some e.2 = blob := by
  have hvariant : ∀ v, SameName v name → '@' ∉ v →
      (c.Resolve sum ParseDigest v).1 = .ok (sum (e.2.take (1 <<< 20))) ∧
        c.manifest v = some e.2 := by
    rintro v ⟨q, p', hq, hp', hfold⟩ hv
    rw [hp] at hp'
    cases hp'
    have hfound' : c.found q = some e := by rw [found_congr hfold, hfound]
    rw [resolve_some hv hq hfound', manifest_eq hq, hfound']
    exact ⟨rfl, rfl⟩
  constructor
  · intro h
    obtain ⟨hresolve, hmanifest⟩ := h name ⟨p, p, hp, hp, equalFold_refl p⟩ hname
    obtain ⟨hresolve', hmanifest'⟩ := hvariant name ⟨p, p, hp, hp, equalFold_refl p⟩ hname
    rw [hresolve'] at hresolve
    rw [hmanifest'] at hmanifest
    exact ⟨Except.ok.inj hresolve, hmanifest⟩
  · rintro ⟨hsum, hblob⟩ v hv hat
    obtain ⟨hresolve, hmanifest⟩ := hvariant v hv hat
    rw [hresolve, hmanifest, hsum]
    exact ⟨rfl, hblob⟩

/-- The blob is found whole exactly when the link has its bytes and hashes to its digest. -/
theorem linksWhole_iff (hlink : c.Link sum name d = (none, c')) (hname : '@' ∉ name)
    {ops : List (Op Digest)} (hops : ∀ op ∈ ops, ¬op.Relinks name) :
    (c'.run sum ParseDigest ops).Linked sum ParseDigest name d (c.blobs d) ↔
      c.LinksWhole sum name d := by
  obtain ⟨p, blob, data, hp, hblob, hfound, hsame, hcopied⟩ := link_found hlink
  rw [linked_iff hname hp ((found_run hp hops c').trans hfound), hblob]
  have hdata : data = blob ↔
      ∀ old, c.manifest name = some old → old.length = blob.length → old = blob := by
    constructor
    · rintro rfl old hold hlen
      exact (hsame old hold hlen).symm
    intro h
    by_cases hex : ∃ old, c.manifest name = some old ∧ old.length = blob.length
    · obtain ⟨old, hold, hlen⟩ := hex
      exact (hsame old hold hlen).trans (h old hold hlen)
    · exact hcopied fun old hold hlen => hex ⟨old, hold, hlen⟩
  constructor
  · rintro ⟨hsum, hbytes⟩
    obtain rfl := Option.some.inj hbytes
    exact ⟨data, hblob, hsum, hdata.mp rfl⟩
  rintro ⟨blob', hblob', hsum, hold⟩
  rw [hblob] at hblob'
  cases hblob'
  rw [hdata.mpr hold]
  exact ⟨hsum, rfl⟩

omit [DecidableEq Digest] in
theorem unlink_found (hunlink : c.Unlink name = (.ok true, c')) (hp : linkPath name = some p)
    (honly : ∀ e ∈ c.manifests, equalFold p e.1 = true → e.1 = c.linkFile p) :
    c'.found p = none := by
  unfold Unlink at hunlink
  rw [manifestPath_some hp] at hunlink
  simp only at hunlink
  split at hunlink
  · cases hunlink
  · cases hunlink
    exact pick_remove honly

/-- **Links resolve to what was linked last.** Until a name is linked or unlinked again its
variants have the bytes of the blob and resolve to it, exactly when the link found the blob whole;
once its only link is removed they do not exist; and operations on other names never change what
a name resolves to. -/
theorem link_resolves_iff (sum : Bytes → Digest) (ParseDigest : Str → Option Digest)
    (c : DiskCache Digest) (name : Str) (hname : '@' ∉ name) (ops : List (Op Digest))
    (hops : ∀ op ∈ ops, ¬op.Relinks name) :
    (∀ d c', c.Link sum name d = (none, c') →
      ((c'.run sum ParseDigest ops).Linked sum ParseDigest name d (c.blobs d) ↔
        c.LinksWhole sum name d)) ∧
    (∀ c' p, c.Unlink name = (.ok true, c') → linkPath name = some p →
      (∀ e ∈ c.manifests, equalFold p e.1 = true → e.1 = c.linkFile p) →
      ∀ v, SameName v name → '@' ∉ v →
        ((c'.run sum ParseDigest ops).Resolve sum ParseDigest v).1 = .error .notExist) ∧
    ((c.run sum ParseDigest ops).Resolve sum ParseDigest name).1 =
      (c.Resolve sum ParseDigest name).1 := by
  refine ⟨fun d c' hlink => linksWhole_iff hlink hname hops, fun c' p hunlink hp honly => ?_,
    resolve_run hname hops c⟩
  rintro v ⟨q, p', hq, hp', hfold⟩ hv
  rw [hp] at hp'
  cases hp'
  have hfound : (c'.run sum ParseDigest ops).found q = none := by
    rw [found_congr hfold, found_run hp hops, unlink_found hunlink hp honly]
  exact resolve_none hv hq hfound

theorem linkPath_example : linkPath "h/n/m:t".toList = some "manifests/h/n/m/t".toList := by
  have hback : IsBack ":t".toList :=
    Or.inr ⟨"t".toList, rfl, by decide, by decide⟩
  have hparse : Parse "h/n/m:t".toList = ⟨"h".toList, "n".toList, "m".toList, "t".toList⟩ :=
    (parse_of_derives (m := "m".toList) (by decide) hback (Or.inr (by decide))).2.2 "h".toList
      "n".toList (Or.inr (by decide)) (Or.inr (by decide))
  unfold linkPath nameToPath
  rw [hparse]
  decide

theorem link_resolves_iff_oneByte :
    (((mk (fun d : Bytes => if d = [1] then some d else none) []).Link id
      "h/n/m:t".toList [1]).2.run id (fun _ => none) [.putBytes [2] [2]]).Linked id (fun _ => none)
        "h/n/m:t".toList [1] (some [1]) := by
  have hlink : ((mk (fun d : Bytes => if d = [1] then some d else none) []).Link id
      "h/n/m:t".toList [1]).1 = none := by
    simp only [Link, manifestPath_some linkPath_example]
    decide
  refine ((link_resolves_iff id (fun _ => none) _ "h/n/m:t".toList (by decide) [.putBytes [2] [2]]
    ?_).1 [1] _ (Prod.ext hlink rfl)).mpr ⟨[1], rfl, rfl, ?_⟩
  · intro op hop
    rw [List.mem_singleton.mp hop]
    exact id
  · rw [manifest_eq linkPath_example]
    exact nofun

/-- From an empty cache: a manifest of the same length stays when another blob is linked. -/
theorem relinked_not_resolved :
    let c := run id (fun _ => none) ⟨fun _ : Bytes => none, []⟩
      [.putBytes [1] [1], .link "h/n/m:t".toList [1], .putBytes [2] [2]]
    (c.Link id "h/n/m:t".toList [2]).1 = none ∧
      ((c.Link id "h/n/m:t".toList [2]).2.Resolve id (fun _ => none) "h/n/m:t".toList).1 = .ok [1] := by
  have hp := linkPath_example
  have hat : splitNameDigest "h/n/m:t".toList = ("h/n/m:t".toList, []) := by decide
  unfold Resolve
  rw [hat]
  simp only [run, List.foldl_cons, List.foldl_nil, step, Link, manifestPath_some hp]
  decide

end Ollama.Blob
