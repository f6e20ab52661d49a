import Mathlib.Data.List.Count

/-!
# Pulling a model

`PullModel` of `server/images.go`, up to where the manifest is written. Blobs are stored under
their digests; `fetch` is what the registry sends for a digest, if the download succeeds.
-/

namespace Ollama.Server.Images

open List Function

variable {Digest Blob : Type} [DecidableEq Digest]

/-! ## §1  Downloading -/

abbrev Blobs (Digest Blob : Type) := Digest → Option Blob

variable (fetch : Digest → Option Blob)

/-- `downloadBlob`: whether the blob was there, and the blobs after it. -/
def downloadBlob (blobs : Blobs Digest Blob) (digest : Digest) :
    Option (Bool × Blobs Digest Blob) :=
  if (blobs digest).isSome then some (true, blobs)
  else (fetch digest).map fun blob => (false, update blobs digest (some blob))

/-- The loop over the layers: the blobs, `skipVerify`, and the digest that could not be
downloaded. -/
def downloadAll : List Digest → Blobs Digest Blob → (Digest → Bool) →
    Blobs Digest Blob × (Digest → Bool) × Option Digest
  | [], blobs, skipVerify => (blobs, skipVerify, none)
  | digest :: digests, blobs, skipVerify =>
      match downloadBlob fetch blobs digest with
      | none => (blobs, skipVerify, some digest)
      | some (cacheHit, blobs) =>
          downloadAll digests blobs (update skipVerify digest cacheHit)

/-! ## §2  Verifying -/

variable (hash : Blob → Digest)

/-- `errDigestMismatch`, or an error of the file system. -/
inductive VerifyError (Digest : Type)
  | digestMismatch (digest : Digest)
  | notExist (digest : Digest)
  deriving DecidableEq

/-- `verifyBlob` -/
def verifyBlob (blobs : Blobs Digest Blob) (digest : Digest) : Option (VerifyError Digest) :=
  match blobs digest with
  | none => some (.notExist digest)
  | some blob => if digest = hash blob then none else some (.digestMismatch digest)

/-- The second loop over the layers; a blob that is not what its digest says is removed. -/
def verifyAll (skipVerify : Digest → Bool) (blobs : Blobs Digest Blob) :
    List Digest → Blobs Digest Blob × Option (VerifyError Digest)
  | [] => (blobs, none)
  | digest :: digests =>
      if skipVerify digest then verifyAll skipVerify blobs digests
      else
        match verifyBlob hash blobs digest with
        | none => verifyAll skipVerify blobs digests
        | some (.digestMismatch digest) =>
            (update blobs digest none, some (.digestMismatch digest))
        | some e => (blobs, some e)

/-! ## §3  The pull -/

/-- The digests of a manifest; there may be no config. -/
structure Manifest (Digest : Type) where
  layers : List Digest
  config : Option Digest
  deriving DecidableEq

def Manifest.digests (m : Manifest Digest) : List Digest := m.layers ++ m.config.toList

/-- The blobs, and the manifest under the name that is pulled. -/
structure Disk (Digest Blob : Type) where
  blobs : Blobs Digest Blob
  manifest : Option (Manifest Digest)

inductive PullError (Digest : Type)
  | download (digest : Digest)
  | verify (e : VerifyError Digest)
  deriving DecidableEq

/-- `PullModel` of a manifest that the registry sent. -/
def PullModel (disk : Disk Digest Blob) (m : Manifest Digest) :
    Disk Digest Blob × Option (PullError Digest) :=
  match downloadAll fetch m.digests disk.blobs fun _ => false with
  | (blobs, _, some digest) => ({ disk with blobs }, some (.download digest))
  | (blobs, skipVerify, none) =>
      match verifyAll hash skipVerify blobs m.digests with
      | (blobs, some e) => ({ disk with blobs }, some (.verify e))
      | (blobs, none) => ({ blobs, manifest := some m }, none)

/-! ## §4  What is installed -/

variable {fetch hash} {blobs : Blobs Digest Blob} {skipVerify : Digest → Bool}
  {digests : List Digest} {d : Digest}

theorem downloadBlob_hit (h : blobs d ≠ none) : downloadBlob fetch blobs d = some (true, blobs) :=
  if_pos (Option.isSome_iff_ne_none.mpr h)

theorem downloadBlob_miss (h : blobs d = none) : downloadBlob fetch blobs d =
      (fetch d).map fun blob => (false, update blobs d (some blob)) := by
  unfold downloadBlob
  rw [if_neg (by rw [h]; exact nofun)]

theorem downloadAll_hit (h : blobs d ≠ none) : downloadAll fetch (d :: digests) blobs skipVerify =
      downloadAll fetch digests blobs (update skipVerify d true) := by
  rw [downloadAll, downloadBlob_hit h]

theorem downloadAll_miss (h : blobs d = none) {blob : Blob} (hfetch : fetch d = some blob) :
    downloadAll fetch (d :: digests) blobs skipVerify =
      downloadAll fetch digests (update blobs d (some blob)) (update skipVerify d false) := by
  rw [downloadAll, downloadBlob_miss h, hfetch]
  rfl

theorem downloadAll_stop (h : blobs d = none) (hfetch : fetch d = none) :
    downloadAll fetch (d :: digests) blobs skipVerify = (blobs, skipVerify, some d) := by
  rw [downloadAll, downloadBlob_miss h, hfetch]
  rfl

variable (fetch) in
theorem downloadAll_ok_iff (digests : List Digest) (blobs : Blobs Digest Blob)
    (skipVerify : Digest → Bool) :
    (downloadAll fetch digests blobs skipVerify).2.2 = none ↔
      ∀ d ∈ digests, blobs d = none → fetch d ≠ none := by
  induction digests generalizing blobs skipVerify with
  | nil => exact ⟨fun _ => nofun, fun _ => rfl⟩
  | cons digest digests ih =>
    rw [forall_mem_cons]
    by_cases hhit : blobs digest = none
    · cases hfetch : fetch digest with
      | none =>
        rw [downloadAll_stop hhit hfetch]
        exact ⟨nofun, fun h => absurd rfl (h.1 hhit)⟩
      | some blob =>
        rw [downloadAll_miss hhit hfetch, ih]
        constructor
        · intro h
          refine ⟨fun _ => nofun, fun d hd hnone => ?_⟩
          rcases eq_or_ne d digest with rfl | hne
          · rw [hfetch]
            exact nofun
          · exact h d hd (by rwa [update_of_ne hne])
        · rintro ⟨-, h⟩ d hd hnone
          rcases eq_or_ne d digest with rfl | hne
          · rw [update_self] at hnone
            cases hnone
          · exact h d hd (by rwa [update_of_ne hne] at hnone)
    · rw [downloadAll_hit hhit, ih]
      exact ⟨fun h => ⟨fun hnone => absurd hnone hhit, h⟩, fun h => h.2⟩

/-- The blobs after the downloads: what was there, and what was sent. -/
theorem downloadAll_blobs {digests : List Digest} {blobs : Blobs Digest Blob}
    {skipVerify : Digest → Bool} (h : (downloadAll fetch digests blobs skipVerify).2.2 = none)
    (d : Digest) : (downloadAll fetch digests blobs skipVerify).1 d =
      if blobs d = none ∧ d ∈ digests then fetch d else blobs d := by
  induction digests generalizing blobs skipVerify with
  | nil => exact (if_neg fun h => nomatch h.2).symm
  | cons digest digests ih =>
    by_cases hhit : blobs digest = none
    · cases hfetch : fetch digest with
      | none =>
        rw [downloadAll_stop hhit hfetch] at h
        cases h
      | some blob =>
        rw [downloadAll_miss hhit hfetch] at h ⊢
        rw [ih h]
        rcases eq_or_ne d digest with rfl | hne
        · rw [update_self, if_neg (by rintro ⟨h, -⟩; cases h), if_pos ⟨hhit, mem_cons_self⟩, hfetch]
        · simp only [update_of_ne hne, mem_cons, hne, false_or]
    · rw [downloadAll_hit hhit] at h ⊢
      rw [ih h]
      rcases eq_or_ne d digest with rfl | hne
      · rw [if_neg fun h => hhit h.1, if_neg fun h => hhit h.1]
      · simp only [mem_cons, hne, false_or]

/-- What is not verified: digests that were there, and digests that were listed again. -/
theorem downloadAll_skipVerify {digests : List Digest} {blobs : Blobs Digest Blob}
    {skipVerify : Digest → Bool} (h : (downloadAll fetch digests blobs skipVerify).2.2 = none)
    (d : Digest) : (downloadAll fetch digests blobs skipVerify).2.1 d =
      if d ∈ digests then decide (blobs d ≠ none ∨ 2 ≤ digests.count d) else skipVerify d := by
  induction digests generalizing blobs skipVerify with
  | nil => exact (if_neg nofun).symm
  | cons digest digests ih =>
    by_cases hhit : blobs digest = none
    · cases hfetch : fetch digest with
      | none =>
        rw [downloadAll_stop hhit hfetch] at h
        cases h
      | some blob =>
        rw [downloadAll_miss hhit hfetch] at h ⊢
        rw [ih h]
        rcases eq_or_ne d digest with rfl | hne
        · rw [if_pos mem_cons_self, count_cons_self, update_self]
          by_cases hmem : d ∈ digests
          · have hcount := count_pos_iff.mpr hmem
            rw [if_pos hmem]
            exact decide_eq_decide.mpr ⟨fun _ => Or.inr (by omega), fun _ => Or.inl nofun⟩
          · have hcount := count_eq_zero_of_not_mem hmem
            rw [if_neg hmem, update_self, hcount, hhit]
            rfl
        · simp only [update_of_ne hne, mem_cons, hne, false_or, count_cons_of_ne hne.symm]
    · rw [downloadAll_hit hhit] at h ⊢
      rw [ih h]
      rcases eq_or_ne d digest with rfl | hne
      · rw [if_pos mem_cons_self, update_self]
        have htrue : ∀ n, decide (blobs d ≠ none ∨ 2 ≤ n) = true := fun n =>
          decide_eq_true (Or.inl hhit)
        rw [htrue, htrue, ite_self]
      · simp only [update_of_ne hne, mem_cons, hne, false_or, count_cons_of_ne hne.symm]

/-- Verification succeeds if and only if every blob that is checked hashes to its digest. -/
theorem verifyAll_ok_iff (hpresent : ∀ d ∈ digests, blobs d ≠ none) :
    (verifyAll hash skipVerify blobs digests).2 = none ↔
      ∀ d ∈ digests, skipVerify d = false → ∀ blob, blobs d = some blob → hash blob = d := by
  induction digests with
  | nil => exact ⟨fun _ => nofun, fun _ => rfl⟩
  | cons digest digests ih =>
    rw [forall_mem_cons] at hpresent ⊢
    unfold verifyAll
    split
    · next hskip =>
      rw [ih hpresent.2]
      refine ⟨fun h => ⟨fun hnot => ?_, h⟩, fun h => h.2⟩
      rw [hskip] at hnot
      cases hnot
    · next hskip =>
      obtain ⟨blob, hblob⟩ := Option.ne_none_iff_exists'.mp hpresent.1
      unfold verifyBlob
      rw [hblob]
      by_cases heq : digest = hash blob
      · simp only [if_pos heq]
        rw [ih hpresent.2]
        refine ⟨fun h => ⟨fun _ blob' hblob' => ?_, h⟩, fun h => h.2⟩
        cases hblob'
        exact heq.symm
      · simp only [if_neg heq]
        refine ⟨nofun, fun h => absurd (h.1 ((Bool.not_eq_true _).mp hskip) blob rfl).symm heq⟩

variable (hash) in
/-- What verification leaves: all blobs, or all but the one that failed. -/
theorem verifyAll_blobs (skipVerify : Digest → Bool) (blobs : Blobs Digest Blob)
    (digests : List Digest) :
    ((verifyAll hash skipVerify blobs digests).2 = none →
      (verifyAll hash skipVerify blobs digests).1 = blobs) ∧
    ∀ d, (verifyAll hash skipVerify blobs digests).2 = some (.digestMismatch d) →
      (verifyAll hash skipVerify blobs digests).1 d = none := by
  induction digests with
  | nil => exact ⟨fun _ => rfl, fun _ => nofun⟩
  | cons digest digests ih =>
    unfold verifyAll
    split
    · exact ih
    split
    · exact ih
    · refine ⟨nofun, fun d hd => ?_⟩
      cases hd
      exact update_self _ _ _
    · next e hne _ =>
      refine ⟨nofun, fun d hd => ?_⟩
      cases hd
      exact absurd rfl (hne d)

/-- What a pull promises: every blob of a manifest that is written is what its digest says, and
a blob that is not is removed, without a manifest. -/
structure Verified (fetch : Digest → Option Blob) (hash : Blob → Digest)
    (disk : Disk Digest Blob) (m : Manifest Digest) : Prop where
  installed : (PullModel fetch hash disk m).2 = none → ∀ d ∈ m.digests,
    ∃ blob, (PullModel fetch hash disk m).1.blobs d = some blob ∧ hash blob = d
  removed : ∀ d, (PullModel fetch hash disk m).2 = some (.verify (.digestMismatch d)) →
    (PullModel fetch hash disk m).1.manifest = disk.manifest ∧
      (PullModel fetch hash disk m).1.blobs d = none

/-- A digest that is listed more than once is sent what it says. -/
def RepeatedIntact (fetch : Digest → Option Blob) (hash : Blob → Digest)
    (disk : Disk Digest Blob) (m : Manifest Digest) : Prop :=
  ∀ d ∈ m.digests, disk.blobs d = none → 2 ≤ m.digests.count d → ∀ blob, fetch d = some blob →
    hash blob = d

/-- The pull stops: something cannot be downloaded, or a digest that is listed once is sent
something else. -/
def Stops (fetch : Digest → Option Blob) (hash : Blob → Digest) (disk : Disk Digest Blob)
    (m : Manifest Digest) : Prop :=
  ∃ d ∈ m.digests, disk.blobs d = none ∧
    (fetch d = none ∨ m.digests.count d = 1 ∧ ∃ blob, fetch d = some blob ∧ hash blob ≠ d)

variable {disk : Disk Digest Blob} {m : Manifest Digest}

theorem checked_iff (hok : (downloadAll fetch m.digests disk.blobs fun _ => false).2.2 = none)
    (hd : d ∈ m.digests) :
    (downloadAll fetch m.digests disk.blobs fun _ => false).2.1 d = false ↔
      disk.blobs d = none ∧ m.digests.count d = 1 := by
  have hcount := count_pos_iff.mpr hd
  rw [downloadAll_skipVerify hok, if_pos hd, decide_eq_false_iff_not, not_or, not_not]
  exact and_congr_right fun _ => by omega

def downloaded (fetch : Digest → Option Blob) (disk : Disk Digest Blob) (m : Manifest Digest) :
    Blobs Digest Blob × (Digest → Bool) × Option Digest :=
  downloadAll fetch m.digests disk.blobs fun _ => false

theorem pullModel_stop {digest : Digest} (h : (downloaded fetch disk m).2.2 = some digest) :
    PullModel fetch hash disk m =
      ({ disk with blobs := (downloaded fetch disk m).1 }, some (.download digest)) := by
  have heq : downloaded fetch disk m =
      ((downloaded fetch disk m).1, (downloaded fetch disk m).2.1, some digest) := by
    rw [← h]
  generalize (downloaded fetch disk m).1 = blobs at *
  unfold downloaded at heq
  unfold PullModel
  rw [heq]

theorem pullModel_verify (h : (downloaded fetch disk m).2.2 = none) : PullModel fetch hash disk m =
      match verifyAll hash (downloaded fetch disk m).2.1 (downloaded fetch disk m).1 m.digests with
      | (blobs, some e) => ({ disk with blobs }, some (.verify e))
      | (blobs, none) => ({ blobs, manifest := some m }, none) := by
  have heq : downloaded fetch disk m =
      ((downloaded fetch disk m).1, (downloaded fetch disk m).2.1, none) := by
    rw [← h]
  generalize (downloaded fetch disk m).1 = blobs at *
  generalize (downloaded fetch disk m).2.1 = skipVerify at *
  unfold downloaded at heq
  unfold PullModel
  rw [heq]

theorem removed_of_mismatch (d : Digest)
    (h : (PullModel fetch hash disk m).2 = some (.verify (.digestMismatch d))) :
    (PullModel fetch hash disk m).1.manifest = disk.manifest ∧
      (PullModel fetch hash disk m).1.blobs d = none := by
  cases hdownload : (downloaded fetch disk m).2.2 with
  | some digest =>
    rw [pullModel_stop hdownload] at h
    cases h
  | none =>
    rw [pullModel_verify hdownload] at h ⊢
    have hblobs := (verifyAll_blobs hash (downloaded fetch disk m).2.1
      (downloaded fetch disk m).1 m.digests).2 d
    split at h
    · next blobs e hverify =>
      cases h
      rw [hverify] at hblobs
      exact ⟨rfl, hblobs rfl⟩
    · cases h

/-- A manifest is written if and only if every download succeeds and every blob that is checked
is what its digest says; the blobs are then the downloaded ones. -/
theorem pullModel_ok_iff : (PullModel fetch hash disk m).2 = none ↔
    (∀ d ∈ m.digests, disk.blobs d = none → fetch d ≠ none) ∧
      ∀ d ∈ m.digests, disk.blobs d = none → m.digests.count d = 1 → ∀ blob, fetch d = some blob →
        hash blob = d := by
  have hdownload := downloadAll_ok_iff fetch m.digests disk.blobs fun _ => false
  cases hok : (downloaded fetch disk m).2.2 with
  | some digest =>
    rw [pullModel_stop hok, ← hdownload]
    refine ⟨nofun, fun h => ?_⟩
    have hnone : (downloaded fetch disk m).2.2 = none := h.1
    rw [hok] at hnone
    cases hnone
  | none =>
    have hall := hdownload.mp hok
    have hthere : ∀ d ∈ m.digests, (downloaded fetch disk m).1 d ≠ none := by
      intro d hd
      unfold downloaded
      rw [downloadAll_blobs hok]
      split
      · next h => exact hall d hd h.1
      · next h => exact fun hnone => h ⟨hnone, hd⟩
    have hverify : (PullModel fetch hash disk m).2 = none ↔
        (verifyAll hash (downloaded fetch disk m).2.1 (downloaded fetch disk m).1 m.digests).2 =
          none := by
      rw [pullModel_verify hok]
      split
      · next blobs e hverify =>
        rw [hverify]
        exact ⟨nofun, nofun⟩
      · next blobs hverify =>
        rw [hverify]
        exact ⟨fun _ => rfl, fun _ => rfl⟩
    rw [hverify, verifyAll_ok_iff hthere]
    refine ⟨fun h => ⟨hall, fun d hd hnone hone blob hblob => ?_⟩, fun h d hd hskip blob hblob => ?_⟩
    · refine h d hd ((checked_iff hok hd).mpr ⟨hnone, hone⟩) blob ?_
      unfold downloaded
      rw [downloadAll_blobs hok, if_pos ⟨hnone, hd⟩, hblob]
    · obtain ⟨hnone, hone⟩ := (checked_iff hok hd).mp hskip
      unfold downloaded at hblob
      rw [downloadAll_blobs hok, if_pos ⟨hnone, hd⟩] at hblob
      exact h.2 d hd hnone hone blob hblob

theorem pullModel_blobs (h : (PullModel fetch hash disk m).2 = none) (hd : d ∈ m.digests) :
    (PullModel fetch hash disk m).1.blobs d =
      if disk.blobs d = none then fetch d else disk.blobs d := by
  have hok : (downloaded fetch disk m).2.2 = none :=
    (downloadAll_ok_iff fetch _ _ _).mpr (pullModel_ok_iff.mp h).1
  have hkept := (verifyAll_blobs hash (downloaded fetch disk m).2.1
    (downloaded fetch disk m).1 m.digests).1
  rw [pullModel_verify hok] at h ⊢
  split at h
  · cases h
  rename_i blobs hverify
  rw [hverify] at hkept
  simp only at hkept ⊢
  rw [hkept trivial]
  unfold downloaded
  rw [downloadAll_blobs hok]
  simp only [hd, and_true]

/-- **Verified pulls.** A pull installs only verified blobs if and only if it stops, or every
digest that is listed more than once and was not there is sent what it says. -/
theorem pull_verified_iff (hpresent : ∀ d blob, disk.blobs d = some blob → hash blob = d) :
    Verified fetch hash disk m ↔ RepeatedIntact fetch hash disk m ∨ Stops fetch hash disk m := by
  constructor
  · intro h
    by_cases hstops : Stops fetch hash disk m
    · exact Or.inr hstops
    refine Or.inl fun d hd hnone _ blob hblob => ?_
    have hok : (PullModel fetch hash disk m).2 = none := by
      refine pullModel_ok_iff.mpr ⟨fun d hd hnone hfetch => hstops ⟨d, hd, hnone, Or.inl hfetch⟩,
        fun d hd hnone hone blob hblob => ?_⟩
      by_contra hne
      exact hstops ⟨d, hd, hnone, Or.inr ⟨hone, blob, hblob, hne⟩⟩
    obtain ⟨blob', hblob', hhash⟩ := h.installed hok d hd
    rw [pullModel_blobs hok hd, if_pos hnone, hblob] at hblob'
    cases hblob'
    exact hhash
  · intro h
    refine ⟨fun hok d hd => ?_, removed_of_mismatch⟩
    obtain ⟨hfetched, honce⟩ := pullModel_ok_iff.mp hok
    rw [pullModel_blobs hok hd]
    by_cases hnone : disk.blobs d = none
    · obtain ⟨blob, hblob⟩ := Option.ne_none_iff_exists'.mp (hfetched d hd hnone)
      rw [if_pos hnone]
      refine ⟨blob, hblob, ?_⟩
      rcases h with hrepeated | ⟨d', hd', hnone', hfetch | ⟨hone, blob', hblob', hne⟩⟩
      · have hpos := count_pos_iff.mpr hd
        rcases Nat.lt_or_ge (m.digests.count d) 2 with hlt | hge
        · exact honce d hd hnone (by omega) blob hblob
        · exact hrepeated d hd hnone hge blob hblob
      · exact absurd hfetch (hfetched d' hd' hnone')
      · exact absurd (honce d' hd' hnone' hone blob' hblob') hne
    · obtain ⟨blob, hblob⟩ := Option.ne_none_iff_exists'.mp hnone
      rw [if_neg hnone]
      exact ⟨blob, hblob, hpresent d blob hblob⟩

/-- One layer, which is sent what it says. -/
theorem pull_verified_iff_intact :
    Verified some id ⟨fun _ => none, none⟩ (⟨[7], none⟩ : Manifest ℕ) ↔
      RepeatedIntact some id ⟨fun _ => none, none⟩ (⟨[7], none⟩ : Manifest ℕ) ∨
        Stops some id ⟨fun _ => none, none⟩ (⟨[7], none⟩ : Manifest ℕ) :=
  pull_verified_iff nofun

/-- A digest that is listed twice is installed as it was sent. -/
theorem repeated_not_verified : ¬ ∀ (fetch : ℕ → Option ℕ) (disk : Disk ℕ ℕ) (m : Manifest ℕ),
    (∀ d blob, disk.blobs d = some blob → id blob = d) → Verified fetch id disk m := by
  intro hall
  have hverified := hall (fun _ => some 1) ⟨fun _ => none, none⟩ ⟨[0, 0], none⟩ nofun
  obtain ⟨blob, hblob, hhash⟩ := hverified.installed (by decide) 0 (by decide)
  cases hblob
  exact absurd hhash (by decide)

end Ollama.Server.Images
