import Mathlib.Data.List.Induction

/-!
# The loop of legacy templates: model of `(*Template).Execute` in `template/template.go`

The path for templates without `.Messages`: `collate`, the loop with its three pending
variables, and the last execution with the template cut at `.Response`.
-/

namespace Ollama.Template

open List

/-! ## §1  Messages -/

inductive Role where
  | system
  | user
  | assistant
  | tool
deriving DecidableEq, Repr

/-- `api.Message`, as far as it is read. -/
structure Message where
  role : Role
  content : String
deriving DecidableEq, Repr

/-- The messages of one role after another are merged, those of tools apart. -/
def collateStep (collated : List Message) (m : Message) : List Message :=
  match collated.getLast? with
  | some last =>
      if last.role = m.role ∧ m.role ≠ .tool then
        collated.dropLast ++ [{ last with content := last.content ++ ("\n\n" ++ m.content) }]
      else collated ++ [m]
  | none => collated ++ [m]

/-- `collate`: the system messages, and the messages after merging. -/
def collate (msgs : List Message) : String × List Message :=
  (String.intercalate "\n\n" ((msgs.filter (·.role = .system)).map (·.content)),
    msgs.foldl collateStep [])

/-! ## §2  The loop -/

/-- The variables `system`, `prompt` and `response`. -/
structure Slots where
  system : String := ""
  prompt : String := ""
  response : String := ""
deriving DecidableEq, Repr

structure Trace where
  slots : Slots := {}
  executed : List Slots := []
deriving DecidableEq, Repr

/-- With the buffer. -/
structure State extends Trace where
  b : String := ""
deriving DecidableEq, Repr

section Loop

variable {ε : Type}

/-- `execute`: a template is what it writes for given values of the three variables. -/
def execute (template : Slots → Except ε String) (s : State) : Except ε State := do
  let out ← template s.slots
  pure { slots := {}, executed := s.executed ++ [s.slots], b := s.b ++ out }

/-- `if p { execute() }` -/
def executeIf (template : Slots → Except ε String) (p : Bool) (s : State) : Except ε State :=
  if p then execute template s else pure s

/-- The body of the loop. -/
def step (template : Slots → Except ε String) (s : State) (m : Message) : Except ε State :=
  match m.role with
  | .system => do
      let s ← executeIf template (s.slots.prompt ≠ "" ∨ s.slots.response ≠ "") s
      pure { s with slots := { s.slots with system := m.content } }
  | .user => do
      let s ← executeIf template (s.slots.response ≠ "") s
      pure { s with slots := { s.slots with prompt := m.content } }
  | .assistant => pure { s with slots := { s.slots with response := m.content } }
  | .tool => pure s

/-- `Execute` without `.Messages`: `cut` is the template without what follows `.Response`. -/
def executeLegacy (template cut : Slots → Except ε String) (messages : List Message) :
    Except ε State := do
  let s ← (collate messages).2.foldlM (step template) {}
  execute cut s

end Loop

/-! ## §3  What the executions present -/

def part (role : Role) (content : String) : List (Role × String) :=
  if content = "" then [] else [(role, content)]

def Slots.parts (e : Slots) : List (Role × String) :=
  part .system e.system ++ (part .user e.prompt ++ part .assistant e.response)

/-- The contents that executions are given, each with its slot. -/
def presented (executed : List Slots) : List (Role × String) := executed.flatMap Slots.parts

def Message.shown (m : Message) : List (Role × String) :=
  if m.role = .tool then [] else part m.role m.content

/-- The contents that are not empty of the messages but those of tools. -/
def contents (messages : List Message) : List (Role × String) := messages.flatMap Message.shown

/-- A message that leaves what is pending in slot `role` there. -/
def Idle (role : Role) (m : Message) : Prop :=
  match role with
  | .system => m.role = .tool ∨ (m.role ≠ .system ∧ m.content = "")
  | .user => m.role = .tool ∨ (m.role = .assistant ∧ m.content = "")
  | _ => m.role = .tool

/-- A message with a content, and the next one of its role with only idle messages between. -/
def Overwritten (messages : List Message) : Prop :=
  ∃ pre x mid y post, messages = pre ++ x :: (mid ++ y :: post) ∧ x.role = y.role ∧
    x.role ≠ .tool ∧ x.content ≠ "" ∧ ∀ z ∈ mid, Idle x.role z

/-! ## §4  One message -/

namespace Trace

/-- `execute` on the variables. -/
def flush (x : Trace) : Trace := { executed := x.executed ++ [x.slots] }

def flushIf (p : Bool) (x : Trace) : Trace := if p then x.flush else x

/-- The body of the loop on the variables. -/
def next (x : Trace) (m : Message) : Trace :=
  match m.role with
  | .system =>
      let x := x.flushIf (x.slots.prompt ≠ "" ∨ x.slots.response ≠ "")
      { x with slots := { x.slots with system := m.content } }
  | .user =>
      let x := x.flushIf (x.slots.response ≠ "")
      { x with slots := { x.slots with prompt := m.content } }
  | .assistant => { x with slots := { x.slots with response := m.content } }
  | .tool => x

/-- What the executions so far present together with one of what is pending. -/
def given (x : Trace) : List (Role × String) := presented (x.executed ++ [x.slots])

end Trace

section Loop

variable {ε : Type} {template cut : Slots → Except ε String}

variable {s s' : State}

theorem execute_ok (h : execute template s = .ok s') : s'.toTrace = s.toTrace.flush := by
  unfold execute at h
  cases hout : template s.slots with
  | error e =>
    rw [hout] at h
    cases h
  | ok out =>
    rw [hout] at h
    obtain rfl := Except.ok.inj h
    rfl

theorem executeIf_ok {p : Bool} (h : executeIf template p s = .ok s') :
    s'.toTrace = s.toTrace.flushIf p := by
  cases p with
  | true => exact execute_ok h
  | false =>
    obtain rfl := Except.ok.inj h
    rfl

theorem step_ok {m : Message} (h : step template s m = .ok s') : s'.toTrace = s.toTrace.next m := by
  unfold step at h
  unfold Trace.next
  cases hrole : m.role with
  | system =>
    rw [hrole] at h
    cases hs : executeIf template (s.slots.prompt ≠ "" ∨ s.slots.response ≠ "") s with
    | error e =>
      rw [hs] at h
      cases h
    | ok s₁ =>
      rw [hs] at h
      obtain rfl := Except.ok.inj h
      rw [← executeIf_ok hs]
  | user =>
    rw [hrole] at h
    cases hs : executeIf template (s.slots.response ≠ "") s with
    | error e =>
      rw [hs] at h
      cases h
    | ok s₁ =>
      rw [hs] at h
      obtain rfl := Except.ok.inj h
      rw [← executeIf_ok hs]
  | assistant =>
    rw [hrole] at h
    obtain rfl := Except.ok.inj h
    rfl
  | tool =>
    rw [hrole] at h
    obtain rfl := Except.ok.inj h
    rfl

theorem foldlM_ok {messages : List Message} (h : messages.foldlM (step template) s = .ok s') :
    s'.toTrace = messages.foldl Trace.next s.toTrace := by
  induction messages generalizing s with
  | nil =>
    obtain rfl := Except.ok.inj h
    rfl
  | cons m messages ih =>
    rw [foldlM_cons] at h
    cases hs : step template s m with
    | error e =>
      rw [hs] at h
      cases h
    | ok s₁ =>
      rw [hs] at h
      rw [ih h, step_ok hs, foldl_cons]

/-- What has been executed in the end. -/
theorem executeLegacy_ok {messages : List Message} {s : State}
    (h : executeLegacy template cut messages = .ok s) :
    presented s.executed = ((collate messages).2.foldl Trace.next {}).given := by
  unfold executeLegacy at h
  cases hs : (collate messages).2.foldlM (step template) {} with
  | error e =>
    rw [hs] at h
    cases h
  | ok s₁ =>
    rw [hs] at h
    have htrace := foldlM_ok hs
    have hlast := execute_ok h
    rw [show s.executed = s.toTrace.executed from rfl, hlast]
    show (s₁.toTrace).given = _
    rw [htrace]

end Loop

namespace Trace

theorem presented_append (a b : List Slots) : presented (a ++ b) = presented a ++ presented b :=
  flatMap_append

theorem given_eq (x : Trace) : x.given = presented x.executed ++ x.slots.parts := by
  unfold given
  rw [presented_append]
  exact congrArg (_ ++ ·) (append_nil _)

theorem given_flush (x : Trace) : x.flush.given = x.given := by
  rw [given_eq]
  show x.given ++ [] = _
  rw [append_nil]

end Trace

/-- The variable for a role. -/
def Slots.get (s : Slots) : Role → String
  | .system => s.system
  | .user => s.prompt
  | .assistant => s.response
  | .tool => ""

def Slots.set (s : Slots) (content : String) : Role → Slots
  | .system => { s with system := content }
  | .user => { s with prompt := content }
  | .assistant => { s with response := content }
  | .tool => s

def Slots.Free (s : Slots) : Role → Prop
  | .system => s.prompt = "" ∧ s.response = ""
  | .user => s.response = ""
  | _ => True

variable {role : Role}

theorem Slots.parts_set {s : Slots} (hrole : role ≠ .tool) (hfree : s.Free role)
    (content : String) : ∃ pre, s.parts = pre ++ part role (s.get role) ∧
      (s.set content role).parts = pre ++ part role content := by
  unfold Slots.parts
  cases role with
  | system =>
    obtain ⟨hprompt, hresponse⟩ := hfree
    refine ⟨[], ?_, ?_⟩
    · rw [hprompt, hresponse]
      exact append_nil _
    · show part .system content ++ (part .user s.prompt ++ part .assistant s.response) = _
      rw [hprompt, hresponse]
      exact append_nil _
  | user =>
    refine ⟨part .system s.system, ?_, ?_⟩
    · rw [hfree]
      exact congrArg (_ ++ ·) (append_nil _)
    · show part .system s.system ++ (part .user content ++ part .assistant s.response) = _
      rw [hfree]
      exact congrArg (_ ++ ·) (append_nil _)
  | assistant =>
    refine ⟨part .system s.system ++ part .user s.prompt, ?_, ?_⟩
    · exact (append_assoc ..).symm
    · exact (append_assoc ..).symm
  | tool => exact absurd rfl hrole

namespace Trace

/-- What `next` executes before it sets a variable. -/
def before (x : Trace) (m : Message) : Trace :=
  match m.role with
  | .system => x.flushIf (x.slots.prompt ≠ "" ∨ x.slots.response ≠ "")
  | .user => x.flushIf (x.slots.response ≠ "")
  | _ => x

theorem next_eq (x : Trace) (m : Message) :
    x.next m = { x.before m with slots := (x.before m).slots.set m.content m.role } := by
  unfold next before
  cases m.role <;> rfl

theorem given_flushIf (p : Bool) (x : Trace) : (x.flushIf p).given = x.given := by
  cases p with
  | true => exact x.given_flush
  | false => rfl

theorem given_before (x : Trace) (m : Message) : (x.before m).given = x.given := by
  unfold before
  cases m.role with
  | system => exact given_flushIf _ x
  | user => exact given_flushIf _ x
  | assistant => rfl
  | tool => rfl

theorem free_before (x : Trace) (m : Message) : (x.before m).slots.Free m.role := by
  unfold before
  cases m.role with
  | system =>
    show (x.flushIf _).slots.prompt = "" ∧ (x.flushIf _).slots.response = ""
    unfold flushIf
    split
    · exact ⟨rfl, rfl⟩
    · rename_i hnot
      rw [decide_eq_true_iff, not_or, not_not, not_not] at hnot
      exact hnot
  | user =>
    show (x.flushIf _).slots.response = ""
    unfold flushIf
    split
    · rfl
    · rename_i hnot
      rw [decide_eq_true_iff, not_not] at hnot
      exact hnot
  | assistant => trivial
  | tool => trivial

variable {m : Message}

/-- **One message**: what was in its slot is replaced by its content. -/
theorem given_next (x : Trace) (hrole : m.role ≠ .tool) :
    ∃ pre, x.given = pre ++ part m.role ((x.before m).slots.get m.role) ∧
      (x.next m).given = pre ++ m.shown := by
  obtain ⟨pre, hparts, hset⟩ := Slots.parts_set hrole (free_before x m) m.content
  refine ⟨presented (x.before m).executed ++ pre, ?_, ?_⟩
  · rw [← given_before x m, given_eq, hparts, append_assoc]
  · rw [next_eq, given_eq, Message.shown, if_neg hrole, append_assoc, ← hset]

theorem next_tool (x : Trace) (hrole : m.role = .tool) : x.next m = x := by
  unfold next
  rw [hrole]

theorem given_next_of_empty (x : Trace)
    (hempty : (x.before m).slots.get m.role = "") : (x.next m).given = x.given ++ m.shown := by
  by_cases hrole : m.role = .tool
  · rw [next_tool x hrole, Message.shown, if_pos hrole, append_nil]
  · obtain ⟨pre, hgiven, hnext⟩ := given_next x hrole
    rw [hnext, hgiven, hempty]
    exact congrArg (· ++ _) (append_nil pre).symm

theorem length_given_next_le (x : Trace) (m : Message) :
    (x.next m).given.length ≤ x.given.length + m.shown.length := by
  by_cases hrole : m.role = .tool
  · rw [next_tool x hrole]
    exact Nat.le_add_right _ _
  · obtain ⟨pre, hgiven, hnext⟩ := given_next x hrole
    rw [hnext, hgiven, length_append, length_append]
    omega

theorem length_given_next_lt (x : Trace) (hrole : m.role ≠ .tool)
    (hfull : (x.before m).slots.get m.role ≠ "") :
    (x.next m).given.length < x.given.length + m.shown.length := by
  obtain ⟨pre, hgiven, hnext⟩ := given_next x hrole
  rw [hnext, hgiven, length_append, length_append, part, if_neg hfull, length_singleton]
  omega

theorem length_given_foldl_le (messages : List Message) (x : Trace) :
    (messages.foldl next x).given.length ≤ x.given.length + (contents messages).length := by
  induction messages generalizing x with
  | nil => exact Nat.le_refl _
  | cons m messages ih =>
    have h₁ := ih (x.next m)
    have h₂ := length_given_next_le x m
    rw [foldl_cons, contents, flatMap_cons, length_append]
    rw [contents] at h₁
    omega

end Trace

/-! ## §5  Messages that are overwritten -/

/-- What is pending in the slot of `role` stays there, as no message of the role executes the
template. -/
def Slots.Kept (s : Slots) (role : Role) : Prop := s.get role ≠ "" ∧ s.Free role

namespace Trace

theorem before_of_kept {x : Trace} {m : Message} (h : x.slots.Kept m.role) : x.before m = x := by
  obtain ⟨-, hfree⟩ := h
  unfold before
  cases hrole : m.role with
  | system =>
    rw [hrole] at hfree
    obtain ⟨hprompt, hresponse⟩ := hfree
    rw [hprompt, hresponse]
    rfl
  | user =>
    rw [hrole] at hfree
    rw [hfree]
    rfl
  | assistant => rfl
  | tool => rfl

theorem kept_next (x : Trace) {m : Message} (hcontent : m.content ≠ "") (hrole : m.role ≠ .tool) :
    (x.next m).slots.Kept m.role := by
  have hfree := free_before x m
  rw [next_eq]
  cases hm : m.role with
  | system =>
    rw [hm] at hfree
    exact ⟨hcontent, hfree⟩
  | user =>
    rw [hm] at hfree
    exact ⟨hcontent, hfree⟩
  | assistant => exact ⟨hcontent, trivial⟩
  | tool => exact absurd hm hrole

/-- Idle messages leave it there. -/
theorem kept_idle {x : Trace} {role : Role} (h : x.slots.Kept role) {z : Message}
    (hz : Idle role z) : (x.next z).slots.Kept role := by
  by_cases htool : z.role = .tool
  · rwa [next_tool x htool]
  unfold next
  cases role with
  | system =>
    obtain ⟨hne, hprompt, hresponse⟩ := h
    rcases hz with hz | ⟨hrole, hempty⟩
    · exact absurd hz htool
    cases hzr : z.role with
    | system => exact absurd hzr hrole
    | tool => exact absurd hzr htool
    | assistant => exact ⟨hne, hprompt, hempty⟩
    | user =>
      rw [hresponse]
      exact ⟨hne, hempty, hresponse⟩
  | user =>
    obtain ⟨hne, hresponse⟩ := h
    rcases hz with hz | ⟨hrole, hempty⟩
    · exact absurd hz htool
    · rw [hrole]
      exact ⟨hne, hempty⟩
  | assistant => exact absurd hz htool
  | tool => exact absurd rfl h.1

theorem kept_idles {role : Role} {mid : List Message} (hmid : ∀ z ∈ mid, Idle role z) :
    ∀ {x : Trace}, x.slots.Kept role → (mid.foldl next x).slots.Kept role := by
  induction mid with
  | nil => exact fun h => h
  | cons z mid ih =>
    intro x h
    exact ih (fun z' hz' => hmid z' (mem_cons_of_mem _ hz')) (kept_idle h (hmid z mem_cons_self))

/-- **A message that is overwritten is missing.** -/
theorem length_given_lt_of_overwritten {messages : List Message} (h : Overwritten messages)
    (x : Trace) :
    (messages.foldl next x).given.length < x.given.length + (contents messages).length := by
  obtain ⟨pre, w, mid, y, post, rfl, hrole, htool, hcontent, hmid⟩ := h
  have hpre := length_given_foldl_le pre x
  generalize hx₁ : pre.foldl next x = x₁ at hpre
  have hw := length_given_next_le x₁ w
  have hmidle := length_given_foldl_le mid (x₁.next w)
  have hkept := kept_idles hmid (kept_next x₁ hcontent htool)
  generalize hx₂ : mid.foldl next (x₁.next w) = x₂ at hmidle hkept
  rw [hrole] at hkept
  have hy := length_given_next_lt x₂ (hrole ▸ htool) (by rw [before_of_kept hkept]; exact hkept.1)
  have hpost := length_given_foldl_le post (x₂.next y)
  have hfold : (pre ++ w :: (mid ++ y :: post)).foldl next x = post.foldl next (x₂.next y) := by
    rw [foldl_append, foldl_cons, foldl_append, foldl_cons, hx₁, hx₂]
  have hcontents : (contents (pre ++ w :: (mid ++ y :: post))).length = (contents pre).length +
      (w.shown.length + ((contents mid).length + (y.shown.length + (contents post).length))) := by
    unfold contents
    rw [flatMap_append, flatMap_cons, flatMap_append, flatMap_cons,
      length_append, length_append, length_append, length_append]
  rw [hfold, hcontents]
  omega

end Trace

/-! ## §6  Runs -/

/-- A message of the role with the content, and after it only messages with `P`. -/
def Since (messages : List Message) (role : Role) (content : String) (P : Message → Prop) : Prop :=
  ∃ pre x mid, messages = pre ++ x :: mid ∧ x.role = role ∧ x.content = content ∧ ∀ z ∈ mid, P z

variable {messages : List Message} {m : Message}

theorem Since.new {P : Message → Prop}
    (hrole : m.role = role) : Since (messages ++ [m]) role m.content P :=
  ⟨messages, m, [], rfl, hrole, rfl, fun _ hz => absurd hz not_mem_nil⟩

theorem Since.snoc {content : String} {P P' : Message → Prop} (h : Since messages role content P)
    (himp : ∀ z, P z → P' z) (hm : P' m) : Since (messages ++ [m]) role content P' := by
  obtain ⟨pre, x, mid, rfl, hrole, hcontent, hmid⟩ := h
  refine ⟨pre, x, mid ++ [m], by simp, hrole, hcontent, fun z hz => ?_⟩
  rcases mem_append.mp hz with hmem | hmem
  · exact himp z (hmid z hmem)
  · rwa [mem_singleton.mp hmem]

/-- Where what is pending comes from. -/
structure Pending (messages : List Message) (s : Slots) : Prop where
  system : s.system ≠ "" → Since messages .system s.system fun z =>
    z.role = .tool ∨ (z.role ≠ .system ∧ (s.prompt = "" → s.response = "" → z.content = ""))
  user : s.prompt ≠ "" → Since messages .user s.prompt fun z =>
    z.role = .tool ∨ (z.role = .assistant ∧ (s.response = "" → z.content = ""))
  assistant : s.response ≠ "" → Since messages .assistant s.response (·.role = .tool)

theorem overwritten_of_since {content : String} (hrole : m.role ≠ .tool) (hcontent : content ≠ "")
    (h : Since messages m.role content (Idle m.role)) : Overwritten (messages ++ [m]) := by
  obtain ⟨pre, x, mid, rfl, hx, rfl, hmid⟩ := h
  refine ⟨pre, x, mid, m, [], by simp, hx, hx ▸ hrole, hcontent, ?_⟩
  rw [hx]
  exact hmid

theorem Overwritten.append (h : Overwritten messages)
    (more : List Message) : Overwritten (messages ++ more) := by
  obtain ⟨pre, x, mid, y, post, rfl, hrest⟩ := h
  exact ⟨pre, x, mid, y, post ++ more, by simp, hrest⟩

variable {x : Trace}

/-- The slot of a message is empty, if nothing is overwritten. -/
theorem Pending.empty (h : Pending messages x.slots) (hnot : ¬Overwritten (messages ++ [m])) :
    (x.before m).slots.get m.role = "" := by
  by_contra hfull
  have hfree := x.free_before m
  have htool : m.role ≠ .tool := by
    intro htool
    rw [htool] at hfull
    exact hfull rfl
  -- an execution empties the slots
  have hflush : ∀ p, x.before m = x.flushIf p → p = false := by
    intro p hp
    cases p with
    | false => rfl
    | true =>
      rw [hp] at hfull
      exact absurd (by cases m.role <;> rfl) hfull
  have hx : x.before m = x := by
    cases hrole : m.role with
    | system =>
      have hb : x.before m = x.flushIf (x.slots.prompt ≠ "" ∨ x.slots.response ≠ "") := by
        unfold Trace.before
        rw [hrole]
      rw [hb, hflush _ hb]
      rfl
    | user =>
      have hb : x.before m = x.flushIf (x.slots.response ≠ "") := by
        unfold Trace.before
        rw [hrole]
      rw [hb, hflush _ hb]
      rfl
    | assistant =>
      unfold Trace.before
      rw [hrole]
    | tool => exact absurd hrole htool
  rw [hx] at hfull hfree
  refine hnot (overwritten_of_since htool hfull ?_)
  cases hrole : m.role with
  | system =>
    rw [hrole] at hfull hfree
    obtain ⟨pre, y, mid, hsplit, hy, hcontent, hmid⟩ := h.system hfull
    refine ⟨pre, y, mid, hsplit, hy, hcontent, fun z hz => ?_⟩
    exact (hmid z hz).imp id fun hz => ⟨hz.1, hz.2 hfree.1 hfree.2⟩
  | user =>
    rw [hrole] at hfull hfree
    obtain ⟨pre, y, mid, hsplit, hy, hcontent, hmid⟩ := h.user hfull
    refine ⟨pre, y, mid, hsplit, hy, hcontent, fun z hz => ?_⟩
    exact (hmid z hz).imp id fun hz => ⟨hz.1, hz.2 hfree⟩
  | assistant =>
    rw [hrole] at hfull
    exact h.assistant hfull
  | tool => exact absurd hrole htool

theorem Pending.flush (messages : List Message) (x : Trace) : Pending messages x.flush.slots where
  system h := absurd rfl h
  user h := absurd rfl h
  assistant h := absurd rfl h

theorem Pending.before (h : Pending messages x.slots)
    (m : Message) : Pending messages (x.before m).slots := by
  have hif : ∀ p, Pending messages (x.flushIf p).slots := by
    intro p
    cases p with
    | true => exact Pending.flush messages x
    | false => exact h
  unfold Trace.before
  cases m.role with
  | system => exact hif _
  | user => exact hif _
  | assistant => exact h
  | tool => exact h

/-- **One message** keeps the record of where what is pending comes from. -/
theorem Pending.next (h : Pending messages x.slots) (hnot : ¬Overwritten (messages ++ [m])) :
    Pending (messages ++ [m]) (x.next m).slots := by
  have hempty := h.empty hnot
  have hfree := x.free_before m
  have hbefore := h.before m
  rw [Trace.next_eq]
  cases hrole : m.role with
  | system =>
    rw [hrole] at hfree
    obtain ⟨hprompt, hresponse⟩ := hfree
    exact ⟨fun _ => Since.new hrole, fun hne => absurd hprompt hne, fun hne => absurd hresponse hne⟩
  | user =>
    rw [hrole] at hfree hempty
    refine ⟨fun hne => ?_, fun _ => Since.new hrole, fun hne => absurd hfree hne⟩
    refine (hbefore.system hne).snoc (fun z hz => hz.imp id fun hz => ⟨hz.1, fun _ _ => ?_⟩) ?_
    · exact hz.2 hempty hfree
    · exact Or.inr ⟨by rw [hrole]; decide, fun hcontent _ => hcontent⟩
  | assistant =>
    rw [hrole] at hempty
    refine ⟨fun hne => ?_, fun hne => ?_, fun _ => Since.new hrole⟩
    · refine (hbefore.system hne).snoc (fun z hz => hz.imp id fun hz =>
        ⟨hz.1, fun hprompt _ => hz.2 hprompt hempty⟩) ?_
      exact Or.inr ⟨by rw [hrole]; decide, fun _ hcontent => hcontent⟩
    · refine (hbefore.user hne).snoc (fun z hz => hz.imp id fun hz =>
        ⟨hz.1, fun _ => hz.2 hempty⟩) ?_
      exact Or.inr ⟨hrole, fun hcontent => hcontent⟩
  | tool =>
    exact ⟨fun hne => (hbefore.system hne).snoc (fun z hz => hz) (Or.inl hrole),
      fun hne => (hbefore.user hne).snoc (fun z hz => hz) (Or.inl hrole),
      fun hne => (hbefore.assistant hne).snoc (fun z hz => hz) hrole⟩

/-- **A run without overwriting** presents every content. -/
theorem run_given (messages : List Message) (h : ¬Overwritten messages) :
    Pending messages (messages.foldl Trace.next {}).slots ∧
      (messages.foldl Trace.next {}).given = contents messages := by
  induction messages using List.reverseRecOn with
  | nil => exact ⟨⟨fun h => absurd rfl h, fun h => absurd rfl h, fun h => absurd rfl h⟩, rfl⟩
  | append_singleton messages m ih =>
    obtain ⟨hpending, hgiven⟩ := ih fun hover => h (hover.append [m])
    rw [foldl_append]
    refine ⟨hpending.next h, ?_⟩
    show ((messages.foldl Trace.next {}).next m).given = _
    rw [Trace.given_next_of_empty _ (hpending.empty h), hgiven]
    unfold contents
    rw [flatMap_append]
    exact congrArg (_ ++ ·) (append_nil _).symm

/-- **The loop uses every message once**, in order and in the slot of its role, exactly when
no message is overwritten. -/
theorem executeLegacy_presents_iff {ε : Type} (template cut : Slots → Except ε String)
    (messages : List Message) (s : State) (h : executeLegacy template cut messages = .ok s) :
    presented s.executed = contents (collate messages).2 ↔ ¬Overwritten (collate messages).2 := by
  rw [executeLegacy_ok h]
  constructor
  · intro heq hover
    have hlt := Trace.length_given_lt_of_overwritten hover {}
    have hnil : ({} : Trace).given = [] := rfl
    rw [heq, hnil, length_nil, Nat.zero_add] at hlt
    exact Nat.lt_irrefl _ hlt
  · exact fun hnot => (run_given _ hnot).2

/-- A system message and a question, with the answer of a template that writes both. -/
theorem presents_question : presented [{ system := "s", prompt := "q" }] =
      contents (collate [⟨.system, "s"⟩, ⟨.user, "q"⟩]).2 := by
  have hnot : ¬Overwritten (collate [⟨.system, "s"⟩, ⟨.user, "q"⟩]).2 := by
    rintro ⟨pre, x, mid, y, post, hsplit, hrole, -⟩
    have hcollate : (collate [⟨.system, "s"⟩, ⟨.user, "q"⟩]).2 =
        [⟨.system, "s"⟩, ⟨.user, "q"⟩] := rfl
    rw [hcollate] at hsplit
    have hlength := congrArg List.length hsplit
    simp only [length_append, length_cons, length_nil] at hlength
    have hpre : pre = [] := length_eq_zero_iff.mp (by omega)
    have hmid : mid = [] := length_eq_zero_iff.mp (by omega)
    subst hpre hmid
    obtain ⟨rfl, hrest⟩ := List.cons.inj hsplit
    obtain ⟨rfl, -⟩ := List.cons.inj hrest
    cases hrole
  exact (@executeLegacy_presents_iff Unit (fun e => .ok (e.system ++ e.prompt))
    (fun e => .ok (e.system ++ e.prompt)) [⟨.system, "s"⟩, ⟨.user, "q"⟩]
    { executed := [{ system := "s", prompt := "q" }], b := "sq" } rfl).mpr hnot

/-- Two messages of the user with the result of a tool between them: the first is missing. -/
theorem question_overwritten :
    ¬∀ (template cut : Slots → Except Unit String) (messages : List Message) (s : State),
      executeLegacy template cut messages = .ok s →
        presented s.executed = contents (collate messages).2 := by
  intro hall
  have h := hall (fun e => .ok e.prompt) (fun e => .ok e.prompt)
    [⟨.user, "a"⟩, ⟨.tool, "t"⟩, ⟨.user, "b"⟩]
    { executed := [{ prompt := "b" }], b := "b" } rfl
  exact absurd h (by decide)

end Ollama.Template
