import Ollama.Lib.Listing
import Ollama.Server.ModelPath

/-!
# Manifests and blobs on disk

`server/layer.go`, `manifest.go`, and of `images.go`, `create.go` and `routes.go` what writes
manifests and removes blobs. Contents of blobs are any type. File operations succeed, and a file
system tells the cases of a name apart.
-/

namespace Ollama.Server.Garbage

open Lib Model

-- membership in a list of texts is decided by their equality
local instance lawfulText : LawfulBEq (List Char) := List.instLawfulBEq

/-! ## §1  The disk -/

structure Layer where
  MediaType : Str
  Digest : Str
  deriving DecidableEq

structure Manifest where
  Config : Layer
  Layers : List Layer
  deriving DecidableEq

/-- `append(m.Layers, m.Config)` -/
def Manifest.all (m : Manifest) : List Layer := m.Layers ++ [m.Config]

/-- A manifest file. What is not readable is `none`; `there` are the blobs that were there when it
was written, which nothing reads. -/
structure ManifestFile where
  manifest : Option Manifest
  there : List Str

structure Disk (Blob : Type) where
  blobs : List (Str × Blob)
  manifests : List (Model.Name × ManifestFile)

variable {Blob : Type}

/-- The files of the blobs. -/
def Disk.files (s : Disk Blob) : List Str := s.blobs.map Prod.fst

def isHex (c : Char) : Bool :=
  ('0' ≤ c && c ≤ '9') || ('a' ≤ c && c ≤ 'f') || ('A' ≤ c && c ≤ 'F')

/-- `^sha256[:-][0-9a-fA-F]{64}$` -/
def isDigest (s : Str) : Bool :=
  match s with
  | 's' :: 'h' :: 'a' :: '2' :: '5' :: '6' :: c :: hex =>
      (c == ':' || c == '-') && hex.length == 64 && hex.all isHex
  | _ => false

/-- `strings.ReplaceAll` of a character. -/
def replaceAll (s : Str) (old new : Char) : Str := s.map fun c => if c = old then new else c

/-- `GetBlobsPath`, in the directory of the blobs. -/
def GetBlobsPath (digest : Str) : Option Str :=
  if digest ≠ [] ∧ isDigest digest = false then none else some (replaceAll digest ':' '-')

/-- `Manifests(true)` -/
def Disk.Manifests (s : Disk Blob) : List Manifest := s.manifests.filterMap fun e => e.2.manifest

def Disk.lists (s : Disk Blob) (digest : Str) : Bool :=
  s.Manifests.any fun m => m.all.any fun l => l.Digest = digest

/-- `ParseNamedManifest`, of a name that is fully qualified. -/
def Disk.ParseNamedManifest (s : Disk Blob) (n : Model.Name) : Option Manifest :=
  (Listing.get s.manifests n).bind ManifestFile.manifest

def Disk.addBlob (s : Disk Blob) (f : Str) (b : Blob) : Disk Blob :=
  { s with blobs := (f, b) :: s.blobs }

/-- `os.Remove` of a blob -/
def Disk.removeBlob (s : Disk Blob) (f : Str) : Disk Blob :=
  { s with blobs := Listing.remove s.blobs f }

def Disk.removeManifest (s : Disk Blob) (n : Model.Name) : Disk Blob :=
  { s with manifests := Listing.remove s.manifests n }

def Disk.writeManifest (s : Disk Blob) (n : Model.Name) (m : Option Manifest) : Disk Blob :=
  { s with manifests := (n, ⟨m, s.files⟩) :: Listing.remove s.manifests n }

/-! ## §2  Removing -/

inductive Failure
  | notExist | invalidDigest | badTemplate | badParameters | unqualified | mismatch | download
  | noManifest
  deriving DecidableEq

/-- `(*Layer).Remove` -/
def Disk.Remove (s : Disk Blob) (digest : Str) : Disk Blob × Option Failure :=
  if digest = [] then (s, none)
  else if s.lists digest then (s, none) -- something is using this layer
  else
    match GetBlobsPath digest with
    | none => (s, some .invalidDigest)
    | some f => if f ∈ s.files then (s.removeBlob f, none) else (s, some .notExist)

/-- `(*Manifest).RemoveLayers` -/
def RemoveLayers (s : Disk Blob) : List Layer → Disk Blob × Option Failure
  | [] => (s, none)
  | l :: layers =>
      match s.Remove l.Digest with
      | (s, none) => RemoveLayers s layers
      | (s, some .notExist) => RemoveLayers s layers
      | (s, some e) => (s, some e)

/-- The loop of `deleteUnusedLayers` over the digests that no manifest lists. -/
def removeFiles (s : Disk Blob) : List Str → Disk Blob
  | [] => s
  | k :: keys =>
      match GetBlobsPath k with
      | none => removeFiles s keys
      | some f => removeFiles (s.removeBlob f) keys

def deleteUnusedLayers (s : Disk Blob) (deleteMap : List Str) : Disk Blob :=
  removeFiles s (deleteMap.filter fun k => !s.lists k)

/-- The first loop of `PruneLayers`, over the names of the blobs: the disk and `deleteMap`. -/
def pruneNames (s : Disk Blob) (deleteMap : List Str) : List Str → Disk Blob × List Str
  | [] => (s, deleteMap)
  | f :: names =>
      match GetBlobsPath (replaceAll f '-' ':') with
      | none => pruneNames (s.removeBlob f) deleteMap names
      | some _ => pruneNames s (replaceAll f '-' ':' :: deleteMap) names

def PruneLayers (s : Disk Blob) : Disk Blob :=
  let (s, deleteMap) := pruneNames s [] s.files
  deleteUnusedLayers s deleteMap

/-! ## §3  Pulling, copying, deleting -/

structure Registry (Blob : Type) where
  manifest : Option Manifest
  fetch : Str → Option Blob

/-- `downloadBlob`: whether the blob was there. -/
def downloadBlob (fetch : Str → Option Blob) (s : Disk Blob) (digest : Str) :
    Option (Bool × Disk Blob) :=
  if digest = [] then none
  else
    match GetBlobsPath digest with
    | none => none
    | some f =>
        if f ∈ s.files then some (true, s)
        else (fetch digest).map fun b => (false, s.addBlob f b)

/-- The loop that downloads: the disk, `skipVerify`, and whether it came to its end. -/
def downloadAll (fetch : Str → Option Blob) :
    List Str → Disk Blob → (Str → Bool) → Disk Blob × (Str → Bool) × Bool
  | [], s, skipVerify => (s, skipVerify, true)
  | digest :: digests, s, skipVerify =>
      match downloadBlob fetch s digest with
      | none => (s, skipVerify, false)
      | some (cacheHit, s) => downloadAll fetch digests s (Function.update skipVerify digest cacheHit)

/-- `verifyBlob`; `sum` prints the digest of a blob. -/
def verifyBlob (sum : Blob → Str) (s : Disk Blob) (digest : Str) : Option Failure :=
  match GetBlobsPath digest with
  | none => some .invalidDigest
  | some f =>
      match Listing.get s.blobs f with
      | none => some .notExist
      | some b => if digest = sum b then none else some .mismatch

/-- The loop that verifies; a blob that does not match is removed. -/
def verifyAll (sum : Blob → Str) (s : Disk Blob) (skipVerify : Str → Bool) :
    List Str → Disk Blob × Option Failure
  | [] => (s, none)
  | digest :: digests =>
      if skipVerify digest then verifyAll sum s skipVerify digests
      else
        match verifyBlob sum s digest with
        | none => verifyAll sum s skipVerify digests
        | some .mismatch =>
            match GetBlobsPath digest with
            | none => (s, some .invalidDigest)
            | some f => (s.removeBlob f, some .mismatch)
        | some e => (s, some e)

def Manifest.digests (m : Manifest) : List Str :=
  m.Layers.map Layer.Digest ++ if m.Config.Digest ≠ [] then [m.Config.Digest] else []

def deleteMap (old : Option Manifest) (m : Manifest) : List Str :=
  match old with
  | none => []
  | some old => old.digests.filter fun d => d ∉ m.digests ∧ d ≠ m.Config.Digest

/-- What `PullModel` downloads and verifies. -/
def pullBlobs (sum : Blob → Str) (fetch : Str → Option Blob) (s : Disk Blob) (m : Manifest) :
    Disk Blob × Option Failure :=
  match downloadAll fetch m.digests s fun _ => false with
  | (s, _, false) => (s, some .download)
  | (s, skipVerify, true) => verifyAll sum s skipVerify m.digests

/-- `PullModel`; `n` is the name of its model path. -/
def PullModel (sum : Blob → Str) (NoPrune : Bool) (s : Disk Blob) (n : Model.Name)
    (r : Registry Blob) : Disk Blob × Option Failure :=
  let old := if n.IsValid then s.ParseNamedManifest n else none
  match r.manifest with
  | none => (s, some .noManifest)
  | some m =>
      match pullBlobs sum r.fetch s m with
      | (s, some e) => (s, some e)
      | (s, none) =>
          if n.IsValid then
            let s := s.writeManifest n (some m)
            (if !NoPrune then deleteUnusedLayers s (deleteMap old m) else s, none)
          else (s, some .notExist)

def CopyModel (s : Disk Blob) (src dst : Model.Name) : Disk Blob × Option Failure :=
  if !dst.IsFullyQualified || !src.IsFullyQualified then (s, some .unqualified)
  else if src.Filepath = dst.Filepath then (s, none)
  else
    match Listing.get s.manifests src with
    | none => (s, some .notExist)
    | some file => (s.writeManifest dst file.manifest, none)

/-- `DeleteHandler`, of a name that is valid and exists -/
def DeleteHandler (s : Disk Blob) (n : Model.Name) : Disk Blob × Option Failure :=
  match s.ParseNamedManifest n with
  | none => (s, some .notExist)
  | some m => RemoveLayers (s.removeManifest n) m.all

/-! ## §4  Creating -/

/-- Digests, templates and JSON. -/
structure Codec (Blob V Msg : Type) where
  sum : Blob → Str
  text : Str → Blob
  templateParses : Str → Bool
  decodeParameters : Blob → Option (List (Str × V))
  encodeParameters : List (Str × V) → Blob
  encodeMessages : List Msg → Blob
  encodeConfig : List Str → Blob

variable {V Msg : Type}

def mediaTemplate : Str := "application/vnd.ollama.image.template".toList

def mediaSystem : Str := "application/vnd.ollama.image.system".toList

def mediaLicense : Str := "application/vnd.ollama.image.license".toList

def mediaParams : Str := "application/vnd.ollama.image.params".toList

def mediaMessages : Str := "application/vnd.ollama.image.messages".toList

def mediaConfig : Str := "application/vnd.docker.container.image.v1+json".toList

abbrev Result (Blob α : Type) := Disk Blob × Except Failure α

def Result.andThen {α β : Type} (x : Result Blob α) (f : Disk Blob → α → Result Blob β) :
    Result Blob β :=
  match x with
  | (s, .ok a) => f s a
  | (s, .error e) => (s, .error e)

def NewLayer (c : Codec Blob V Msg) (s : Disk Blob) (b : Blob) (mediatype : Str) :
    Result Blob Layer :=
  match GetBlobsPath (c.sum b) with
  | none => (s, .error .invalidDigest)
  | some f => (if f ∈ s.files then s else s.addBlob f b, .ok ⟨mediatype, c.sum b⟩)

def appendLayer (c : Codec Blob V Msg) (s : Disk Blob) (layers : List Layer) (b : Blob)
    (mediatype : Str) : Result Blob (List Layer) :=
  (NewLayer c s b mediatype).andThen fun s l => (s, .ok (layers ++ [l]))

/-- `removeLayer`; that a blob cannot be removed is only logged. -/
def removeLayer (mediatype : Str) (s : Disk Blob) : List Layer → Disk Blob × List Layer
  | [] => (s, [])
  | l :: layers =>
      if l.MediaType ≠ mediatype then
        let (s, layers) := removeLayer mediatype s layers
        (s, l :: layers)
      else removeLayer mediatype (s.Remove l.Digest).1 layers

def setTemplate (c : Codec Blob V Msg) (s : Disk Blob) (layers : List Layer) (t : Str) :
    Result Blob (List Layer) :=
  let (s, layers) := removeLayer mediaTemplate s layers
  if !c.templateParses t then (s, .error .badTemplate)
  else appendLayer c s layers (c.text t) mediaTemplate

def setSystem (c : Codec Blob V Msg) (s : Disk Blob) (layers : List Layer) (t : Str) :
    Result Blob (List Layer) :=
  let (s, layers) := removeLayer mediaSystem s layers
  if t ≠ [] then appendLayer c s layers (c.text t) mediaSystem else (s, .ok layers)

def setLicense (c : Codec Blob V Msg) (s : Disk Blob) (layers : List Layer) (t : Str) :
    Result Blob (List Layer) :=
  appendLayer c s layers (c.text t) mediaLicense

def setLicenses (c : Codec Blob V Msg) (s : Disk Blob) (layers : List Layer) :
    List Str → Result Blob (List Layer)
  | [] => (s, .ok layers)
  | t :: ts => (setLicense c s layers t).andThen fun s layers => setLicenses c s layers ts

/-- The parameters with those of the layers, which they override. -/
def mergeParameters (c : Codec Blob V Msg) (s : Disk Blob) (p : List (Str × V)) :
    List Layer → Except Failure (List (Str × V))
  | [] => .ok p
  | l :: layers =>
      if l.MediaType ≠ mediaParams then mergeParameters c s p layers
      else
        match GetBlobsPath l.Digest with
        | none => .error .invalidDigest
        | some f =>
            match (Listing.get s.blobs f).map c.decodeParameters with
            | none => .error .notExist
            | some none => .error .badParameters
            | some (some existing) =>
                mergeParameters c s (p ++ existing.filter fun e => e.1 ∉ p.map Prod.fst) layers

def setParameters (c : Codec Blob V Msg) (s : Disk Blob) (layers : List Layer)
    (p : List (Str × V)) : Result Blob (List Layer) :=
  match mergeParameters c s p layers with
  | .error e => (s, .error e)
  | .ok [] => (s, .ok layers)
  | .ok p =>
      let (s, layers) := removeLayer mediaParams s layers
      appendLayer c s layers (c.encodeParameters p) mediaParams

def setMessages (c : Codec Blob V Msg) (s : Disk Blob) (layers : List Layer) (m : List Msg) :
    Result Blob (List Layer) :=
  if m = [] then (s, .ok layers)
  else
    let (s, layers) := removeLayer mediaMessages s layers
    appendLayer c s layers (c.encodeMessages m) mediaMessages

/-- What a create is asked for, and what its base comes to: a model that is pulled for it, the
blobs that conversion, quantization and template detection make, and the base layers. -/
structure CreateRequest (Blob V Msg : Type) where
  name : Model.Name
  pulled : Option (Model.Name × Registry Blob)
  made : List Blob
  base : List Layer
  Template : Str
  System : Str
  License : List Str
  Parameters : List (Str × V)
  Messages : List Msg

/-- `createModel` after its base layers, up to the manifest. -/
def createLayers (c : Codec Blob V Msg) (s : Disk Blob) (r : CreateRequest Blob V Msg) :
    Result Blob (List Layer) :=
  let template : Result Blob (List Layer) :=
    if r.Template ≠ [] then setTemplate c s r.base r.Template else (s, .ok r.base)
  let system := template.andThen fun s layers =>
    if r.System ≠ [] then setSystem c s layers r.System else (s, .ok layers)
  let license := system.andThen fun s layers => setLicenses c s layers r.License
  let parameters := license.andThen fun s layers => setParameters c s layers r.Parameters
  parameters.andThen fun s layers => setMessages c s layers r.Messages

def createModel (c : Codec Blob V Msg) (s : Disk Blob) (r : CreateRequest Blob V Msg) :
    Disk Blob × Option Failure :=
  let written := (createLayers c s r).andThen fun s layers =>
    -- `createConfigLayer`
    (NewLayer c s (c.encodeConfig (layers.map Layer.Digest)) mediaConfig).andThen fun s config =>
      (s.writeManifest r.name (some ⟨config, layers⟩), .ok ())
  match written with
  | (s, .ok ()) => (s, none)
  | (s, .error e) => (s, some e)

/-- What comes before `createModel`. -/
def createBase (c : Codec Blob V Msg) (NoPrune : Bool) (s : Disk Blob)
    (r : CreateRequest Blob V Msg) : Disk Blob :=
  let s := match r.pulled with
    | none => s
    | some (n, registry) => (PullModel c.sum NoPrune s n registry).1
  r.made.foldl (fun s b => (NewLayer c s b []).1) s

/-- `CreateHandler` -/
def CreateHandler (c : Codec Blob V Msg) (NoPrune : Bool) (s : Disk Blob)
    (r : CreateRequest Blob V Msg) : Disk Blob × Option Failure :=
  let oldManifest := s.ParseNamedManifest r.name
  match createModel c (createBase c NoPrune s r) r with
  | (s, some e) => (s, some e)
  | (s, none) =>
      match oldManifest with
      | none => (s, none)
      | some m => if !NoPrune then RemoveLayers s m.all else (s, none)

/-! ## §5  The operations -/

inductive Op (Blob V Msg : Type)
  | upload (b : Blob)
  | create (r : CreateRequest Blob V Msg)
  | copy (src dst : Model.Name)
  | pull (n : Model.Name) (r : Registry Blob)
  | delete (n : Model.Name)
  | prune

def step (c : Codec Blob V Msg) (NoPrune : Bool) (s : Disk Blob) : Op Blob V Msg → Disk Blob
  | .upload b => (NewLayer c s b []).1
  | .create r => (CreateHandler c NoPrune s r).1
  | .copy src dst => (CopyModel s src dst).1
  | .pull n r => (PullModel c.sum NoPrune s n r).1
  | .delete n => (DeleteHandler s n).1
  | .prune => PruneLayers s

def run (c : Codec Blob V Msg) (NoPrune : Bool) (s : Disk Blob) (ops : List (Op Blob V Msg)) :
    Disk Blob :=
  ops.foldl (step c NoPrune) s

end Ollama.Server.Garbage
