import Ollama.Api
import Ollama.Lib.Chunks
import Ollama.Lib.Strconv

/-!
# Prompts for a chat

`chatPrompt` of `server/prompt.go`: which messages go into the prompt, and the tags that
stand for their images. Rendering and the tokenizer are parameters; rendering leaves its
messages as they are.
-/

namespace Ollama.Server

open Api List

variable {α : Type}

/-! ## §1  System messages and starts -/

def roleSystem : Text := ['s', 'y', 's', 't', 'e', 'm']

/-- `msg.Role == "system"` -/
def isSystem (msg : Message α) : Bool := decide (msg.role = roleSystem)

def imageNumTokens : ℕ := 768

/-- What `chatPrompt` is given beside the messages: how they are rendered (by the model's
renderer or its template, with the tools and the thinking value), and of the model and the
options what is read. -/
structure ChatModel (α : Type) where
  renderPrompt : List (Message α) → Except Error Text
  tokenize : Text → Except Error (List ℤ)
  projector : Bool
  mllama : Bool
  numCtx : ℤ

namespace ChatModel

variable (m : ChatModel α) (msgs : List (Message α))

/-- The messages of the prompt that starts at message `i`. -/
def candidate (i : ℕ) : List (Message α) := (msgs.take i).filter isSystem ++ msgs.drop i

/-- `ctxLen` -/
def ctxLen (i : ℕ) : Except Error ℕ := do
  let p ← m.renderPrompt (candidate msgs i)
  let s ← m.tokenize p
  return s.length +
    if m.projector then ((msgs.drop i).map fun msg => imageNumTokens * msg.images.length).sum else 0

/-- The loop over the starts, from `i - 1` down: the start, and the system messages that are
left in `system`. -/
def search (truncate : Bool) : ℕ → ℕ × List (Message α) → Except Error (ℕ × List (Message α))
  | 0, found => .ok found
  | i + 1, (n, _) => do
      let system := (msgs.take i).filter isSystem
      let ctxLen ← m.ctxLen msgs i
      if truncate ∧ m.numCtx < ctxLen then .ok (n, system)
      else search truncate i (i, system)

end ChatModel

/-! ## §2  Image tags -/

structure TaggedImage where
  id : ℕ
  data : ImageData
deriving DecidableEq

def imgTag (id : ℕ) : Text := "[img-".toList ++ (Lib.Strconv.decimal id ++ "]".toList)

def placeholder : Text := "[img]".toList

def placeTags : ℕ → List ImageData → Text × Text → Text × Text
  | _, [], parts => parts
  | id, _ :: images, (pre, prompt) =>
      match Lib.cut prompt placeholder with
      | none => placeTags (id + 1) images (pre ++ imgTag id, prompt)
      | some (before, after) => placeTags (id + 1) images (pre, before ++ (imgTag id ++ after))

/-- The content of a message whose images have the numbers from `id` on. -/
def taggedContent (id : ℕ) (msg : Message α) : Text :=
  let (pre, prompt) := placeTags id msg.images ([], msg.content)
  pre ++ prompt

def errImages : Error :=
  "this model only supports one image while more than one image requested".toList

/-- The loop over the messages that are kept. -/
def tagMessages (mllama : Bool) :
    List TaggedImage → List (Message α) → Except Error (List (Message α) × List TaggedImage)
  | images, [] => .ok ([], images)
  | images, msg :: msgs =>
      if mllama ∧ 1 < msg.images.length then .error errImages
      else do
        let tagged := { msg with content := taggedContent images.length msg }
        let new := msg.images.zipIdx.map fun p => ⟨images.length + p.2, p.1⟩
        let (kept, images) ← tagMessages mllama (images ++ new) msgs
        return (tagged :: kept, images)

/-! ## §3  `chatPrompt` -/

namespace ChatModel

variable (m : ChatModel α)

/-- What is rendered in the end, and the images. -/
def promptMessages (truncate : Bool) (msgs : List (Message α)) :
    Except Error (List (Message α) × List TaggedImage) := do
  let (n, system) ← m.search msgs truncate (msgs.length - 1) (msgs.length - 1, [])
  let (kept, images) ← tagMessages m.mllama [] (msgs.drop n)
  return (system ++ kept, images)

/-- `chatPrompt`, for at least one message. -/
def chatPrompt (truncate : Bool) (msgs : List (Message α)) :
    Except Error (Text × List TaggedImage) := do
  let (prompt, images) ← m.promptMessages truncate msgs
  let p ← m.renderPrompt prompt
  return (p, images)

/-! ## §4  The search for the start -/

variable {m} {truncate : Bool} {msgs : List (Message α)}

variable (m truncate msgs) in
/-- The prompt that starts at message `i` fits the context, or nothing is truncated. -/
def Fits (i : ℕ) : Prop :=
  truncate = false ∨ ∃ len, m.ctxLen msgs i = .ok len ∧ (len : ℤ) ≤ m.numCtx

variable (m truncate msgs) in
/-- Going back from the last message, all prompts fit down to `start`, and the next one does
not. -/
structure LongestStart (start : ℕ) : Prop where
  lt : start < msgs.length
  fits : ∀ i, start ≤ i → i + 1 < msgs.length → m.Fits truncate msgs i
  longest : ∀ i, start = i + 1 → ¬m.Fits truncate msgs i

theorem LongestStart.unique {start start' : ℕ} (h : m.LongestStart truncate msgs start)
    (h' : m.LongestStart truncate msgs start') : start = start' := by
  rcases Nat.lt_trichotomy start start' with hlt | heq | hlt
  · obtain ⟨i, rfl⟩ := Nat.exists_eq_succ_of_ne_zero (show start' ≠ 0 by omega)
    exact absurd (h.fits i (by omega) h'.lt) (h'.longest i rfl)
  · exact heq
  · obtain ⟨i, rfl⟩ := Nat.exists_eq_succ_of_ne_zero (show start ≠ 0 by omega)
    exact absurd (h'.fits i (by omega) h.lt) (h.longest i rfl)

/-- Where the loop has come to: the prompts from `i` on fit. -/
structure Searching (truncate : Bool) (msgs : List (Message α)) (m : ChatModel α) (i : ℕ)
    (system : List (Message α)) : Prop where
  lt : i < msgs.length
  fits : ∀ j, i ≤ j → j + 1 < msgs.length → m.Fits truncate msgs j
  system : i = 0 → system = []

/-- **The search**: it stops at the longest start, and `system` holds the system messages
before the message at which it stopped. -/
theorem search_spec {i n : ℕ} : ∀ {system system' : List (Message α)},
    Searching truncate msgs m i system → m.search msgs truncate i (i, system) = .ok (n, system') →
        m.LongestStart truncate msgs n ∧ system' = (msgs.take (n - 1)).filter isSystem := by
  induction i with
  | zero =>
    intro system system' hs h
    obtain ⟨rfl, rfl⟩ := Prod.mk.inj (Except.ok.inj h)
    exact ⟨⟨hs.lt, hs.fits, fun i hi => absurd hi (Nat.succ_ne_zero i).symm⟩, hs.system rfl⟩
  | succ i ih =>
    intro system system' hs h
    rw [search] at h
    cases hlen : m.ctxLen msgs i with
    | error err =>
      rw [hlen] at h
      cases h
    | ok len =>
      rw [hlen] at h
      simp only [bind, Except.bind] at h
      split at h
      · rename_i hstop
        obtain ⟨rfl, rfl⟩ := Prod.mk.inj (Except.ok.inj h)
        refine ⟨⟨hs.lt, hs.fits, fun j hj hfits => ?_⟩, rfl⟩
        obtain rfl : i = j := Nat.succ.inj hj
        rcases hfits with hno | ⟨len', hlen', hle⟩
        · rw [hno] at hstop
          exact absurd hstop.1 Bool.false_ne_true
        · rw [hlen] at hlen'
          cases hlen'
          exact absurd hle (not_le.mpr hstop.2)
      · rename_i hgo
        have hfits : m.Fits truncate msgs i := by
          cases htruncate : truncate with
          | false => exact Or.inl rfl
          | true => exact Or.inr ⟨len, hlen, not_lt.mp fun hlt => hgo ⟨htruncate, hlt⟩⟩
        refine ih ⟨Nat.lt_of_succ_lt hs.lt, fun j hij hj => ?_, ?_⟩ h
        · rcases Nat.eq_or_lt_of_le hij with rfl | hlt
          · exact hfits
          · exact hs.fits j hlt hj
        · rintro rfl
          rfl

/-! ## §5  What is rendered -/

variable (m truncate msgs) in
/-- What a prompt promises: all system messages before the suffix that is kept, and the
longest suffix that fits, with its images tagged. -/
def Keeps (rendered : List (Message α)) (images : List TaggedImage) : Prop :=
  ∃ start kept, m.LongestStart truncate msgs start ∧
    tagMessages m.mllama [] (msgs.drop start) = .ok (kept, images) ∧
      rendered = (msgs.take start).filter isSystem ++ kept

theorem promptMessages_spec (hne : msgs ≠ []) {rendered : List (Message α)}
    {images : List TaggedImage} (h : m.promptMessages truncate msgs = .ok (rendered, images)) :
    ∃ start kept, m.LongestStart truncate msgs start ∧
      tagMessages m.mllama [] (msgs.drop start) = .ok (kept, images) ∧
        rendered = (msgs.take (start - 1)).filter isSystem ++ kept := by
  unfold promptMessages at h
  have hlen := length_pos_iff.mpr hne
  cases hsearch : m.search msgs truncate (msgs.length - 1) (msgs.length - 1, []) with
  | error err =>
    rw [hsearch] at h
    cases h
  | ok found =>
    obtain ⟨start, system⟩ := found
    have hlast : Searching truncate msgs m (msgs.length - 1) [] :=
      ⟨by omega, fun j hle hj => by omega, fun _ => rfl⟩
    obtain ⟨hstart, rfl⟩ := search_spec hlast hsearch
    rw [hsearch] at h
    simp only [bind, Except.bind] at h
    cases htag : tagMessages m.mllama [] (msgs.drop start) with
    | error err =>
      rw [htag] at h
      cases h
    | ok tagged =>
      obtain ⟨kept, tags⟩ := tagged
      rw [htag] at h
      obtain ⟨rfl, rfl⟩ := Prod.mk.inj (Except.ok.inj h)
      exact ⟨start, kept, hstart, htag, rfl⟩

/-- A model whose prompt is the contents, a token for each character. -/
def plain (numCtx : ℤ) : ChatModel Unit where
  renderPrompt msgs := .ok (msgs.flatMap Message.content)
  tokenize p := .ok (p.map fun _ => 0)
  projector := false
  mllama := false
  numCtx

/-- A system message and a long question. -/
def question : List (Message Unit) :=
  [{ role := roleSystem, content := ['s'] }, { role := "user".toList, content := ['u'] }]

end ChatModel

end Ollama.Server
