import Mathlib
import Ollama.Anthropic.Requests

/-!
# The order of a conversation

A request message becomes one message with its last thinking, all its text and all its tool
uses, and then one message for each tool result. The conversation keeps its order exactly when
the blocks of each message are in that order already (for the assistant, when a tool result
does not come first) and only the last thinking block has text.
-/

namespace Ollama.Anthropic

open Api List

/-! ## §1  What a conversation says -/

inductive Block
  | thinking (t : Text)
  | text (t : Text)
  | toolUse (id name : Text) (input : Arguments)
  | toolResult (id t : Text)

/-- The block of a decoded value; images and unknown blocks are left out. -/
def blockOf (block : Any) : Option Block := do
  let fields ← block.asObject
  let blockType ← (field fields "type").asString
  if blockType = typeText then
    return .text (← (field fields "text").asString)
  else if blockType = typeToolUse then
    return .toolUse (← (field fields "id").asString) (← (field fields "name").asString)
      (field fields "input").asObject
  else if blockType = typeToolResult then
    return .toolResult (((field fields "tool_use_id").asString).getD [])
      (resultContent (field fields "content"))
  else if blockType = typeThinking then
    return .thinking (← (field fields "thinking").asString)
  else none

def Block.Shows : Block → Bool
  | .thinking t => t ≠ []
  | .text t => t ≠ []
  | .toolUse .. => true
  | .toolResult id t => id ≠ [] ∨ t ≠ []

def allBlocks (msg : MessageParam) : List Block :=
  match msg.content with
  | .string content => [.text content]
  | .array blocks => blocks.filterMap blockOf
  | _ => []

def blocksOf (msg : MessageParam) : List Block := (allBlocks msg).filter Block.Shows

def Block.asThinking : Block → Option Text
  | .thinking t => some t
  | _ => none

def Block.asText : Block → Option Text
  | .text t => some t
  | _ => none

def thinkings (bs : List Block) : List Text := bs.filterMap Block.asThinking

def texts (bs : List Block) : List Text := bs.filterMap Block.asText

def Block.isUse : Block → Bool
  | .toolUse .. => true
  | _ => false

def Block.isResult : Block → Bool
  | .toolResult .. => true
  | _ => false

inductive Item
  | thinking (role t : Text)
  | text (role toolCallID t : Text)
  | toolUse (role id name : Text) (input : Arguments)

def itemsOf (m : Message Arguments) : List Item :=
  (if m.thinking = [] then [] else [.thinking m.role m.thinking]) ++
    ((if m.content = [] ∧ m.toolCallID = [] then [] else [.text m.role m.toolCallID m.content]) ++
      m.toolCalls.map fun tc => .toolUse m.role tc.id tc.function.name tc.function.arguments)

def Block.item (role : Text) : Block → Item
  | .thinking t => .thinking role t
  | .text t => .text role [] t
  | .toolUse id name input => .toolUse role id name input
  | .toolResult id t => .text roleTool id t

inductive Merges : List Block → List Block → Prop
  | nil : Merges [] []
  | cons (b : Block) {bs cs : List Block} : Merges bs cs → Merges (b :: bs) (b :: cs)
  | text (s t : Text) {bs cs : List Block} :
      Merges (.text (s ++ t) :: bs) cs → Merges (.text s :: .text t :: bs) cs

def thinkingBlock (t : Text) : List Block := if t = [] then [] else [.thinking t]

def textBlock (t : Text) : List Block := if t = [] then [] else [.text t]

def group (bs : List Block) : List Block :=
  thinkingBlock (thinkings bs).flatten ++ (textBlock (texts bs).flatten ++ bs.filter Block.isUse)

def Grouped (bs cs : List Block) : Prop :=
  ∃ before x after, bs = before ++ x :: after ∧ x.isResult = false ∧
    cs = before.filter Block.isResult ++ (group bs ++ after.filter Block.isResult)

/-- What may become of the blocks of a message. -/
def Allowed (role : Text) (bs cs : List Block) : Prop :=
  Merges bs cs ∨ role = roleAssistant ∧ Grouped bs cs

def systemText : Any → Text
  | .string s => s
  | .array blocks => textOfBlocks blocks
  | _ => []

/-- The messages say what the request says, in its order. -/
def KeepsConversation (codec : Codec) (r : MessagesRequest) (ms : List (Message Arguments)) :
    Prop :=
  ∃ said : List (List Block),
    List.Forall₂ (fun msg cs => Allowed (codec.toLower msg.role) (blocksOf msg) cs)
      r.messages said ∧
    ms.flatMap itemsOf = (textBlock (systemText r.system)).map (Block.item roleSystem) ++
      (List.zipWith (fun msg cs => cs.map (Block.item (codec.toLower msg.role)))
        r.messages said).flatten

/-! ## §2  The order of a message -/

def Block.rank : Block → ℕ
  | .thinking _ => 0
  | .text _ => 1
  | .toolUse .. => 2
  | .toolResult .. => 3

def ThinksOnce (msg : MessageParam) : Prop :=
  ∀ t ∈ (thinkings (allBlocks msg)).dropLast, t = []

/-- For the assistant: a tool result does not come first, unless there is nothing else. For
others: thinking, text, tool uses and tool results come in this order. -/
def InOrder (role : Text) (bs : List Block) : Prop :=
  if role = roleAssistant then
    (∀ b ∈ bs.head?, b.isResult = true) → ∀ b ∈ bs, b.isResult = true
  else bs.Pairwise fun b c => b.rank ≤ c.rank

instance (msg : MessageParam) : Decidable (ThinksOnce msg) :=
  inferInstanceAs (Decidable (∀ t ∈ _, _))

instance (role : Text) (bs : List Block) : Decidable (InOrder role bs) :=
  if h : role = roleAssistant then
    decidable_of_iff ((∀ b ∈ bs.head?.toList, b.isResult = true) → ∀ b ∈ bs, b.isResult = true)
      (by rw [InOrder, if_pos h]; simp)
  else decidable_of_iff (bs.Pairwise fun b c => b.rank ≤ c.rank) (by rw [InOrder, if_neg h])

/-! ## §3  What one message becomes -/

def regrouped (bs : List Block) : List Block :=
  thinkingBlock ((thinkings bs).getLast?.getD []) ++ (textBlock (texts bs).flatten ++
      (bs.filter Block.isUse ++ (bs.filter Block.isResult).filter Block.Shows))

/-- The accumulators hold these blocks. -/
structure Holds (c : Converted) (bs : List Block) : Prop where
  textContent : c.textContent = (texts bs).flatten
  thinking : c.thinking = (thinkings bs).getLast?.getD []
  toolCalls : ∀ role, c.toolCalls.map
      (fun tc => Item.toolUse role tc.id tc.function.name tc.function.arguments) =
    (bs.filter Block.isUse).map (Block.item role)
  toolResults : c.toolResults.flatMap itemsOf =
    ((bs.filter Block.isResult).filter Block.Shows).map (Block.item [])

@[simp] theorem thinkings_append (bs cs : List Block) :
    thinkings (bs ++ cs) = thinkings bs ++ thinkings cs :=
  filterMap_append

variable {c : Converted}

theorem Holds.text {bs : List Block} (h : Holds c bs) (t : Text) :
    Holds { c with textContent := c.textContent ++ t } (bs ++ [.text t]) where
  textContent := by simp [h.textContent, texts, Block.asText]
  thinking := by simp [h.thinking, thinkings, Block.asThinking]
  toolCalls role := by simp [h.toolCalls role, Block.isUse]
  toolResults := by simp [h.toolResults, Block.isResult]

theorem Holds.think {bs : List Block} (h : Holds c bs) (t : Text) :
    Holds { c with thinking := t } (bs ++ [.thinking t]) where
  textContent := by simp [h.textContent, texts, Block.asText]
  thinking := by simp [thinkings, Block.asThinking]
  toolCalls role := by simp [h.toolCalls role, Block.isUse]
  toolResults := by simp [h.toolResults, Block.isResult]

theorem Holds.use {bs : List Block} (h : Holds c bs) (id name : Text)
    (input : Arguments) :
    Holds { c with
        toolCalls := c.toolCalls ++ [{ id, function := { name, arguments := input } }] }
      (bs ++ [.toolUse id name input]) where
  textContent := by simp [h.textContent, texts, Block.asText]
  thinking := by simp [h.thinking, thinkings, Block.asThinking]
  toolCalls role := by
    have before := h.toolCalls role
    simp only [map_append, before, filter_append]
    rfl
  toolResults := by simp [h.toolResults, Block.isResult]

theorem Holds.result {bs : List Block} (h : Holds c bs) (id t : Text) :
    Holds { c with
        toolResults := c.toolResults ++ [{ role := roleTool, content := t, toolCallID := id }] }
      (bs ++ [.toolResult id t]) where
  textContent := by simp [h.textContent, texts, Block.asText]
  thinking := by simp [h.thinking, thinkings, Block.asThinking]
  toolCalls role := by simp [h.toolCalls role, Block.isUse]
  toolResults := by
    have one : itemsOf { role := roleTool, content := t, toolCallID := id } =
        (([Block.toolResult id t].filter Block.isResult).filter Block.Shows).map
          (Block.item []) := by
      by_cases ht : t = [] <;> by_cases hid : id = [] <;>
        simp [itemsOf, ht, hid, Block.isResult, Block.Shows, Block.item]
    simp only [flatMap_append, h.toolResults, filter_append, map_append,
      flatMap_cons, flatMap_nil, append_nil, one]

variable {codec : Codec}

theorem convertImage_ok {c c' : Converted} {fields : List (Text × Any)}
    (h : convertImage codec fields c = .ok c') : ∃ images, c' = { c with images := images } := by
  simp only [convertImage] at h
  split at h
  · cases h
  split at h
  · split at h
    · cases h
    · cases h
      exact ⟨_, rfl⟩
  · cases h

/-- One turn of the loop adds the block, if it is one. -/
theorem Holds.step {c c' : Converted} {bs : List Block} {block : Any}
    (h : Holds c bs) (hc : convertBlock codec c block = .ok c') :
    Holds c' (bs ++ (blockOf block).toList) := by
  rw [convertBlock] at hc
  rcases ho : block.asObject with - | fields
  · rw [ho] at hc
    cases hc
  rw [ho] at hc
  simp only at hc
  have nothing : Holds c (bs ++ (none : Option Block).toList) := by simpa using h
  rcases hty : (field fields "type").asString with - | ty
  · have none : blockOf block = none := by simp [blockOf, ho, hty]
    rw [hty] at hc
    cases hc
    rw [none]
    exact nothing
  rw [hty] at hc
  simp only [Option.getD_some] at hc
  by_cases isText : ty = typeText
  · rw [if_pos isText] at hc
    rcases ht : (field fields "text").asString with - | t
    · have none : blockOf block = none := by simp [blockOf, ho, hty, isText, ht]
      rw [ht] at hc
      cases hc
      rw [none]
      exact nothing
    have one : blockOf block = some (.text t) := by simp [blockOf, ho, hty, isText, ht]
    rw [ht] at hc
    cases hc
    rw [one]
    exact h.text t
  rw [if_neg isText] at hc
  by_cases isImage : ty = typeImage
  · have none : blockOf block = none := by
      have use : typeImage ≠ typeToolUse := by decide
      have result : typeImage ≠ typeToolResult := by decide
      have thinking : typeImage ≠ typeThinking := by decide
      rw [isImage] at isText
      simp [blockOf, ho, hty, isImage, isText, use, result, thinking]
    rw [if_pos isImage] at hc
    obtain ⟨images, rfl⟩ := convertImage_ok hc
    rw [none]
    exact ⟨nothing.textContent, nothing.thinking, nothing.toolCalls, nothing.toolResults⟩
  rw [if_neg isImage] at hc
  by_cases isUse : ty = typeToolUse
  · rw [if_pos isUse] at hc
    simp only [convertToolUse] at hc
    split at hc
    · cases hc
    · cases hc
    rename_i id name hid hname
    have one : blockOf block = some (.toolUse id name (field fields "input").asObject) := by
      simp [blockOf, ho, hty, isUse ▸ isText, isUse, hid, hname]
    cases hc
    rw [one]
    exact h.use id name _
  rw [if_neg isUse] at hc
  by_cases isResult : ty = typeToolResult
  · have one : blockOf block = some (.toolResult (((field fields "tool_use_id").asString).getD [])
        (resultContent (field fields "content"))) := by
      simp [blockOf, ho, hty, isResult ▸ isText, isResult ▸ isUse, isResult]
    rw [if_pos isResult] at hc
    cases hc
    rw [one]
    exact h.result _ _
  rw [if_neg isResult] at hc
  by_cases isThinking : ty = typeThinking
  · rw [if_pos isThinking] at hc
    rcases ht : (field fields "thinking").asString with - | t
    · have none : blockOf block = none := by
        simp [blockOf, ho, hty, isThinking ▸ isText, isThinking ▸ isUse, isThinking ▸ isResult,
          isThinking, ht]
      rw [ht] at hc
      cases hc
      rw [none]
      exact nothing
    · have one : blockOf block = some (.thinking t) := by
        simp [blockOf, ho, hty, isThinking ▸ isText, isThinking ▸ isUse, isThinking ▸ isResult,
          isThinking, ht]
      rw [ht] at hc
      cases hc
      rw [one]
      exact h.think t
  · have none : blockOf block = none := by
      simp [blockOf, ho, hty, isText, isUse, isResult, isThinking]
    rw [if_neg isThinking] at hc
    cases hc
    rw [none]
    exact nothing

theorem Holds.fold {blocks : List Any} {c c' : Converted} {bs : List Block}
    (h : Holds c bs) (hc : blocks.foldlM (convertBlock codec) c = .ok c') :
    Holds c' (bs ++ blocks.filterMap blockOf) := by
  induction blocks generalizing c bs with
  | nil =>
      cases hc
      simpa using h
  | cons block blocks ih =>
      rw [foldlM_cons] at hc
      rcases h1 : convertBlock codec c block with e | d
      · rw [h1] at hc
        cases hc
      rw [h1] at hc
      have later := ih (h.step h1) hc
      rcases hb : blockOf block with - | b
      · simpa [hb] using later
      · simpa [hb] using later

/-- What a converted message says. -/
theorem Holds.messages {bs : List Block} (h : Holds c bs) (role : Text) :
    (c.messages role).flatMap itemsOf = (regrouped bs).map (Block.item role) := by
  have results : c.toolResults.flatMap itemsOf =
      ((bs.filter Block.isResult).filter Block.Shows).map (Block.item role) := by
    rw [h.toolResults]
    refine map_congr_left fun b hb => ?_
    cases b <;> simp_all [Block.isResult, Block.item]
  have uses := h.toolCalls role
  have merged : (if c.textContent ≠ [] ∨ c.images ≠ [] ∨ c.toolCalls ≠ [] ∨ c.thinking ≠ [] then
      [({ role := role, content := c.textContent, images := c.images, toolCalls := c.toolCalls
          thinking := c.thinking } : Message Arguments)]
      else []).flatMap itemsOf =
        (thinkingBlock c.thinking ++ (textBlock c.textContent ++ bs.filter Block.isUse)).map
          (Block.item role) := by
    split
    · by_cases ht : c.thinking = [] <;> by_cases hx : c.textContent = [] <;>
        simp [itemsOf, thinkingBlock, textBlock, ht, hx, Block.item, uses]
    rename_i none
    simp only [not_or, not_not] at none
    obtain ⟨hx, -, hu, ht⟩ := none
    rw [hu] at uses
    simp [thinkingBlock, textBlock, ht, hx, ← uses]
  rw [Converted.messages, flatMap_append, merged, results, regrouped, h.thinking, h.textContent]
  simp [append_assoc]

variable {ms : List (Message Arguments)}

theorem convertMessage_items {msg : MessageParam}
    (h : convertMessage codec msg = .ok ms) :
    ms.flatMap itemsOf = (regrouped (allBlocks msg)).map (Block.item (codec.toLower msg.role)) := by
  simp only [convertMessage] at h
  split at h
  · next content hc =>
    cases h
    simp only [allBlocks, hc]
    by_cases empty : content = [] <;>
      simp [itemsOf, regrouped, thinkings, texts, Block.asThinking, Block.asText, thinkingBlock,
        textBlock, empty, Block.isUse, Block.isResult, Block.item]
  · next blocks hb =>
    simp only [allBlocks, hb]
    rcases hc : blocks.foldlM (convertBlock codec) {} with e | c
    · rw [hc] at h
      cases h
    rw [hc] at h
    cases h
    have start : Holds {} [] :=
      ⟨rfl, rfl, fun _ => rfl, rfl⟩
    simpa using (start.fold hc).messages (codec.toLower msg.role)
  · cases h

/-! ## §4  One message -/

variable (bs : List Block)

theorem thinkings_shown : thinkings (bs.filter Block.Shows) = (thinkings bs).filter (· ≠ []) := by
  rw [thinkings, thinkings, filterMap_filter, filter_filterMap]
  refine filterMap_congr fun b _ => ?_
  cases b with
  | thinking t => by_cases ht : t = [] <;> simp [Block.Shows, Block.asThinking, Option.filter, ht]
  | text t => simp [Block.asThinking]
  | toolUse id name input => simp [Block.asThinking]
  | toolResult id t => simp [Block.asThinking]

theorem texts_shown : texts (bs.filter Block.Shows) = (texts bs).filter (· ≠ []) := by
  rw [texts, texts, filterMap_filter, filter_filterMap]
  refine filterMap_congr fun b _ => ?_
  cases b with
  | thinking t => simp [Block.asText]
  | text t => by_cases ht : t = [] <;> simp [Block.Shows, Block.asText, Option.filter, ht]
  | toolUse id name input => simp [Block.asText]
  | toolResult id t => simp [Block.asText]

variable (ts : List Text)

theorem flatten_filter : (ts.filter (· ≠ [])).flatten = ts.flatten := by
  induction ts with
  | nil => rfl
  | cons t ts ih => by_cases ht : t = [] <;> simp_all

theorem uses_shown : (bs.filter Block.Shows).filter Block.isUse = bs.filter Block.isUse := by
  rw [filter_filter]
  refine filter_congr fun b _ => ?_
  cases b <;> simp [Block.isUse, Block.Shows]

theorem results_shown : (bs.filter Block.Shows).filter Block.isResult =
      (bs.filter Block.isResult).filter Block.Shows := by
  rw [filter_filter, filter_filter]
  exact filter_congr fun b _ => Bool.and_comm _ _

variable (msg : MessageParam)

theorem regrouped_eq : regrouped (allBlocks msg) =
      thinkingBlock ((thinkings (allBlocks msg)).getLast?.getD []) ++
        (textBlock (texts (blocksOf msg)).flatten ++
          ((blocksOf msg).filter Block.isUse ++ (blocksOf msg).filter Block.isResult)) := by
  rw [regrouped, blocksOf, texts_shown, flatten_filter, uses_shown, results_shown]

theorem shows_of_mem {msg : MessageParam} : ∀ b ∈ blocksOf msg, b.Shows = true :=
  fun _ hb => (mem_filter.mp hb).2

/-! The last of some texts, when only it is not empty. -/

theorem split_last : ts = [] ∨ ts = ts.dropLast ++ [ts.getLast?.getD []] := by
  rcases ts.eq_nil_or_concat with rfl | ⟨us, u, rfl⟩
  · exact Or.inl rfl
  · exact Or.inr (by simp)

theorem flatten_eq_last_iff : ts.flatten = ts.getLast?.getD [] ↔ ∀ t ∈ ts.dropLast, t = [] := by
  rcases split_last ts with rfl | h
  · simp
  · have flat : ts.flatten = ts.dropLast.flatten ++ ts.getLast?.getD [] := by
      conv_lhs => rw [h]
      simp
    rw [flat, append_left_eq_self, flatten_eq_nil_iff]

theorem shown_eq_last_iff :
    ts.filter (· ≠ []) = [ts.getLast?.getD []].filter (· ≠ []) ↔ ∀ t ∈ ts.dropLast, t = [] := by
  rcases split_last ts with rfl | h
  · simp
  have shown : ts.filter (· ≠ []) =
      ts.dropLast.filter (· ≠ []) ++ [ts.getLast?.getD []].filter (· ≠ []) := by
    conv_lhs => rw [h]
    rw [filter_append]
  rw [shown, append_left_eq_self, filter_eq_nil_iff]
  simp

variable (t : Text)

theorem thinkings_thinkingBlock : thinkings (thinkingBlock t) = [t].filter (· ≠ []) := by
  by_cases ht : t = [] <;> simp [thinkingBlock, thinkings, Block.asThinking, ht]

theorem thinkings_textBlock : thinkings (textBlock t) = [] := by
  by_cases ht : t = [] <;> simp [textBlock, thinkings, Block.asThinking, ht]

theorem thinkings_uses : thinkings (bs.filter Block.isUse) = [] := by
  rw [thinkings, filterMap_eq_nil_iff]
  intro b hb
  cases b <;> simp_all [Block.isUse, Block.asThinking]

theorem thinkings_results : thinkings (bs.filter Block.isResult) = [] := by
  rw [thinkings, filterMap_eq_nil_iff]
  intro b hb
  cases b <;> simp_all [Block.isResult, Block.asThinking]

theorem thinkings_regrouped : thinkings (regrouped (allBlocks msg)) =
      [(thinkings (allBlocks msg)).getLast?.getD []].filter (· ≠ []) := by
  rw [regrouped_eq]
  simp only [thinkings_append, thinkings_thinkingBlock, thinkings_textBlock, thinkings_uses,
    thinkings_results, append_nil]

/-! Merging keeps the order. -/

theorem Merges.refl : Merges bs bs := by
  induction bs with
  | nil => exact .nil
  | cons b bs ih => exact .cons b ih

theorem Merges.append_left (as : List Block) {bs cs : List Block} (h : Merges bs cs) :
    Merges (as ++ bs) (as ++ cs) := by
  induction as with
  | nil => exact h
  | cons a as ih => exact .cons a ih

theorem Merges.thinkings {bs cs : List Block} (h : Merges bs cs) : thinkings bs = thinkings cs := by
  induction h with
  | nil => rfl
  | cons b _ ih =>
      rw [Anthropic.thinkings] at ih
      rw [Anthropic.thinkings, filterMap_cons, ih]
      rfl
  | text s t _ ih => exact ih

theorem Merges.rank_le {bs cs : List Block} (h : Merges bs cs) (n : ℕ) :
    (∀ c ∈ cs, n ≤ c.rank) ↔ ∀ b ∈ bs, n ≤ b.rank := by
  induction h with
  | nil => exact Iff.rfl
  | cons b _ ih => rw [forall_mem_cons, forall_mem_cons, ih]
  | text s t _ ih =>
      rw [ih, forall_mem_cons, forall_mem_cons, forall_mem_cons]
      simp [Block.rank]

theorem Merges.sorted {bs cs : List Block} (h : Merges bs cs)
    (hc : cs.Pairwise fun b c => b.rank ≤ c.rank) : bs.Pairwise fun b c => b.rank ≤ c.rank := by
  induction h with
  | nil => exact hc
  | cons b merges ih =>
      obtain ⟨first, rest⟩ := pairwise_cons.mp hc
      exact pairwise_cons.mpr ⟨(merges.rank_le _).mp first, ih rest⟩
  | text s t _ ih =>
      obtain ⟨first, rest⟩ := pairwise_cons.mp (ih hc)
      refine pairwise_cons.mpr ⟨?_, pairwise_cons.mpr ⟨first, rest⟩⟩
      exact forall_mem_cons.mpr ⟨Nat.le_refl _, first⟩

theorem Merges.texts (t : Text) (ht : t ≠ []) (bs : List Block) :
    Merges ((t :: ts).map .text ++ bs) (textBlock (t :: ts).flatten ++ bs) := by
  induction ts generalizing t with
  | nil => simpa [textBlock, ht] using Merges.refl (.text t :: bs)
  | cons u ts ih =>
      have later := ih (t ++ u) (by simp [ht])
      simp only [map_cons, cons_append, flatten_cons, append_assoc] at later ⊢
      exact .text t u later

theorem thinkings_eq_nil {bs : List Block} (h : ∀ b ∈ bs, 1 ≤ b.rank) : thinkings bs = [] := by
  rw [thinkings, filterMap_eq_nil_iff]
  intro b hb
  have rank := h b hb
  cases b with
  | thinking t => exact absurd rank (Nat.not_succ_le_zero 0)
  | _ => rfl

theorem texts_eq_nil {bs : List Block} (h : ∀ b ∈ bs, 2 ≤ b.rank) : texts bs = [] := by
  rw [texts, filterMap_eq_nil_iff]
  intro b hb
  have rank := h b hb
  cases b with
  | text t => exact absurd rank (Nat.lt_irrefl 1)
  | _ => rfl

theorem uses_eq_nil {bs : List Block} (h : ∀ b ∈ bs, 3 ≤ b.rank) : bs.filter Block.isUse = [] := by
  rw [filter_eq_nil_iff]
  intro b hb
  have rank := h b hb
  cases b with
  | toolUse id name input => exact absurd rank (Nat.lt_irrefl 2)
  | _ => exact Bool.false_ne_true

/-- The blocks of a list in order, by kind. -/
theorem split_of_sorted {bs : List Block} (h : bs.Pairwise fun b c => b.rank ≤ c.rank) :
    bs = (thinkings bs).map .thinking ++ ((texts bs).map .text ++
      (bs.filter Block.isUse ++ bs.filter Block.isResult)) := by
  induction bs with
  | nil => rfl
  | cons b bs ih =>
      obtain ⟨first, rest⟩ := pairwise_cons.mp h
      have split := ih rest
      cases b with
      | thinking t => exact congrArg (Block.thinking t :: ·) split
      | text t =>
          have none := thinkings_eq_nil first
          rw [none] at split
          rw [show thinkings (.text t :: bs) = thinkings bs from rfl, none]
          exact congrArg (Block.text t :: ·) split
      | toolUse id name input =>
          have none := thinkings_eq_nil fun b hb => Nat.le_of_succ_le (first b hb)
          have none' := texts_eq_nil first
          rw [none, none'] at split
          rw [show thinkings (.toolUse id name input :: bs) = thinkings bs from rfl,
            show texts (.toolUse id name input :: bs) = texts bs from rfl, none, none']
          exact congrArg (Block.toolUse id name input :: ·) split
      | toolResult id t =>
          have none := thinkings_eq_nil fun b hb =>
            Nat.le_of_succ_le (Nat.le_of_succ_le (first b hb))
          have none' := texts_eq_nil fun b hb => Nat.le_of_succ_le (first b hb)
          have none'' := uses_eq_nil first
          rw [none, none', none''] at split
          rw [show thinkings (.toolResult id t :: bs) = thinkings bs from rfl,
            show texts (.toolResult id t :: bs) = texts bs from rfl,
            show (Block.toolResult id t :: bs).filter Block.isUse = bs.filter Block.isUse from rfl,
            none, none', none'']
          exact congrArg (Block.toolResult id t :: ·) split

/-- What is sent on is in order. -/
theorem regrouped_sorted : (regrouped (allBlocks msg)).Pairwise fun b c => b.rank ≤ c.rank := by
  have thinking : ∀ t, ∀ b ∈ thinkingBlock t, b.rank = 0 := by
    intro t b hb
    by_cases ht : t = []
    · simp [thinkingBlock, ht] at hb
    · rw [thinkingBlock, if_neg ht, mem_singleton] at hb
      rw [hb]
      rfl
  have text : ∀ t, ∀ b ∈ textBlock t, b.rank = 1 := by
    intro t b hb
    by_cases ht : t = []
    · simp [textBlock, ht] at hb
    · rw [textBlock, if_neg ht, mem_singleton] at hb
      rw [hb]
      rfl
  have use : ∀ b ∈ (blocksOf msg).filter Block.isUse, b.rank = 2 := by
    intro b hb
    cases b <;> simp_all [Block.isUse, Block.rank]
  have result : ∀ b ∈ (blocksOf msg).filter Block.isResult, b.rank = 3 := by
    intro b hb
    cases b <;> simp_all [Block.isResult, Block.rank]
  have same : ∀ (n : ℕ) (bs : List Block), (∀ b ∈ bs, b.rank = n) →
      bs.Pairwise fun b c => b.rank ≤ c.rank := by
    intro n bs h
    exact pairwise_of_forall_mem_list fun b hb c hc => Nat.le_of_eq ((h b hb).trans (h c hc).symm)
  rw [regrouped_eq]
  refine pairwise_append.mpr ⟨same 0 _ (thinking _), ?_, ?_⟩
  · refine pairwise_append.mpr ⟨same 1 _ (text _), ?_, ?_⟩
    · refine pairwise_append.mpr ⟨same 2 _ use, same 3 _ result, ?_⟩
      intro b hb c hc
      rw [use b hb, result c hc]
      decide
    intro b hb c hc
    rw [text _ b hb]
    rcases mem_append.mp hc with hc | hc
    · rw [use c hc]
      decide
    · rw [result c hc]
      decide
  · intro b hb c _
    rw [thinking _ b hb]
    exact Nat.zero_le _

theorem rank_of_isResult {b : Block} : b.isResult = true ↔ 3 ≤ b.rank := by
  cases b <;> simp [Block.isResult, Block.rank]

theorem results_of_sorted {bs : List Block} (h : bs.Pairwise fun b c => b.rank ≤ c.rank)
    (first : ∀ b ∈ bs.head?, b.isResult = true) : ∀ b ∈ bs, b.isResult = true := by
  cases bs with
  | nil => exact fun b hb => absurd hb not_mem_nil
  | cons b bs =>
      have result := first b rfl
      refine forall_mem_cons.mpr ⟨result, fun c hc => ?_⟩
      exact rank_of_isResult.mpr (Nat.le_trans (rank_of_isResult.mp result)
        ((pairwise_cons.mp h).1 c hc))

/-- A block of the group, when there is one to group. -/
theorem exists_group {bs : List Block} {x : Block} (hx : x ∈ bs) (shows : x.Shows = true)
    (other : x.isResult = false) : ∃ b ∈ group bs, b.isResult = false := by
  cases x with
  | thinking t =>
      have some : (thinkings bs).flatten ≠ [] := by
        intro none
        have empty := flatten_eq_nil_iff.mp none t (mem_filterMap.mpr ⟨_, hx, rfl⟩)
        simp [Block.Shows, empty] at shows
      exact ⟨.thinking (thinkings bs).flatten, by simp [group, thinkingBlock, some], rfl⟩
  | text t =>
      have some : (texts bs).flatten ≠ [] := by
        intro none
        have empty := flatten_eq_nil_iff.mp none t (mem_filterMap.mpr ⟨_, hx, rfl⟩)
        simp [Block.Shows, empty] at shows
      exact ⟨.text (texts bs).flatten, by simp [group, textBlock, some], rfl⟩
  | toolUse id name input =>
      refine ⟨_, ?_, other⟩
      exact mem_append_right _ (mem_append_right _ (mem_filter.mpr ⟨hx, rfl⟩))
  | toolResult id t => exact absurd other (by simp [Block.isResult])

theorem thinkings_group : thinkings (group bs) = [(thinkings bs).flatten].filter (· ≠ []) := by
  simp only [group, thinkings_append, thinkings_thinkingBlock, thinkings_textBlock, thinkings_uses,
    append_nil]

variable {role : Text}

/-- The code's order is an allowed one only for a message that is in order. -/
theorem inOrder_of_allowed {msg : MessageParam}
    (h : Allowed role (blocksOf msg) (regrouped (allBlocks msg))) :
    ThinksOnce msg ∧ InOrder role (blocksOf msg) := by
  rcases h with merges | ⟨assistant, before, x, after, split, other, grouped⟩
  · have sorted := merges.sorted (regrouped_sorted msg)
    have kept := merges.thinkings
    rw [thinkings_regrouped, blocksOf, thinkings_shown] at kept
    refine ⟨(shown_eq_last_iff _).mp kept, ?_⟩
    rw [InOrder]
    split
    · exact results_of_sorted sorted
    · exact sorted
  · have kept := congrArg thinkings grouped
    rw [thinkings_regrouped, thinkings_append, thinkings_append, thinkings_results,
      thinkings_results, thinkings_group, nil_append, append_nil, blocksOf,
      thinkings_shown, flatten_filter] at kept
    have same : (thinkings (allBlocks msg)).flatten =
        (thinkings (allBlocks msg)).getLast?.getD [] := by
      generalize (thinkings (allBlocks msg)).flatten = s at kept
      generalize (thinkings (allBlocks msg)).getLast?.getD [] = t at kept
      by_cases hs : s = [] <;> by_cases ht : t = [] <;> simp_all
    refine ⟨(flatten_eq_last_iff _).mp same, ?_⟩
    rw [InOrder, if_pos assistant]
    intro first
    exfalso
    have hx : x ∈ blocksOf msg := by
      rw [split]
      simp
    -- the list begins with a tool result, and so does what is sent on
    cases before with
    | nil =>
        have result := first x (by rw [split]; rfl)
        rw [other] at result
        exact Bool.false_ne_true result
    | cons y before =>
        have result := first y (by rw [split]; rfl)
        obtain ⟨b, hb, hr⟩ := exists_group hx (shows_of_mem x hx) other
        have all := results_of_sorted (regrouped_sorted msg) (by
            rw [grouped, filter_cons, if_pos result]
            rintro b ⟨⟩
            exact result)
        rw [grouped] at all
        have := all b (mem_append_right _ (mem_append_left _ hb))
        rw [hr] at this
        exact Bool.false_ne_true this

/-- What is sent on of a message that is in order is allowed. -/
theorem allowed_of_inOrder {msg : MessageParam} (once : ThinksOnce msg)
    (order : InOrder role (blocksOf msg)) :
    Allowed role (blocksOf msg) (regrouped (allBlocks msg)) := by
  have last := (shown_eq_last_iff _).mpr once
  by_cases sorted : (blocksOf msg).Pairwise fun b c => b.rank ≤ c.rank
  · refine Or.inl ?_
    have split := split_of_sorted sorted
    have thinking : (thinkings (blocksOf msg)).map Block.thinking =
        thinkingBlock ((thinkings (allBlocks msg)).getLast?.getD []) := by
      rw [blocksOf, thinkings_shown, last, thinkingBlock]
      by_cases empty : (thinkings (allBlocks msg)).getLast?.getD [] = [] <;> simp [empty]
    rw [thinking] at split
    rw [regrouped_eq]
    conv_lhs => rw [split]
    refine Merges.append_left _ ?_
    have shown : ∀ t ∈ texts (blocksOf msg), t ≠ [] := by
      rw [blocksOf, texts_shown]
      intro t ht
      simpa using (mem_filter.mp ht).2
    generalize texts (blocksOf msg) = ts at shown
    cases ts with
    | nil => exact Merges.refl _
    | cons t ts => exact Merges.texts ts t (shown t mem_cons_self) _
  · rw [InOrder] at order
    split at order
    · next assistant =>
      refine Or.inr ⟨assistant, ?_⟩
      rcases hb : blocksOf msg with - | ⟨x, bs⟩
      · rw [hb] at sorted
        exact absurd List.Pairwise.nil sorted
      have other : x.isResult = false := by
        rcases hr : x.isResult with - | -
        · rfl
        refine absurd ?_ sorted
        have all := order (by
          rw [hb]
          rintro b ⟨⟩
          exact hr)
        refine pairwise_of_forall_mem_list fun b hb c hc => ?_
        have rank : b.rank ≤ 3 := by cases b <;> simp [Block.rank]
        exact Nat.le_trans rank (rank_of_isResult.mp (all c hc))
      refine ⟨[], x, bs, rfl, other, ?_⟩
      have results : (blocksOf msg).filter Block.isResult = bs.filter Block.isResult := by
        rw [hb, filter_cons, if_neg (by simp [other])]
      have flat : (thinkings (blocksOf msg)).flatten =
          (thinkings (allBlocks msg)).getLast?.getD [] := by
        rw [blocksOf, thinkings_shown, flatten_filter]
        exact (flatten_eq_last_iff _).mpr once
      rw [regrouped_eq, results, group, ← hb, flat]
      simp [append_assoc]
    · exact absurd order sorted

/-! ## §5  All messages -/

def Block.size : Block → ℕ
  | .thinking t => t.length
  | .text t => t.length
  | .toolUse .. => 1
  | .toolResult id t => id.length + t.length

def size (bs : List Block) : ℕ := (bs.map Block.size).sum

def Item.size : Item → ℕ
  | .thinking _ t => t.length
  | .text _ id t => id.length + t.length
  | .toolUse .. => 1

theorem item_size (role : Text) (b : Block) : (b.item role).size = b.size := by
  cases b <;> simp [Block.item, Item.size, Block.size]

theorem items_size (role : Text) (bs : List Block) :
    ((bs.map (Block.item role)).map Item.size).sum = size bs := by
  rw [map_map, size]
  congr 1
  exact map_congr_left fun b _ => item_size role b

@[simp] theorem size_append (bs cs : List Block) : size (bs ++ cs) = size bs + size cs := by
  simp [size]

theorem size_pos_of_shows {b : Block} (h : b.Shows = true) : 0 < b.size := by
  cases b with
  | thinking t => simpa [Block.Shows, Block.size, length_pos_iff] using h
  | text t => simpa [Block.Shows, Block.size, length_pos_iff] using h
  | toolUse id name input => exact Nat.one_pos
  | toolResult id t =>
      by_contra none
      simp_all [Block.Shows, Block.size]

theorem size_thinkingBlock : size (thinkingBlock t) = t.length := by
  by_cases ht : t = [] <;> simp [thinkingBlock, size, Block.size, ht]

theorem size_textBlock : size (textBlock t) = t.length := by
  by_cases ht : t = [] <;> simp [textBlock, size, Block.size, ht]

theorem size_split : size bs = (thinkings bs).flatten.length + ((texts bs).flatten.length +
      (size (bs.filter Block.isUse) + size (bs.filter Block.isResult))) := by
  induction bs with
  | nil => rfl
  | cons b bs ih =>
      have first : ∀ (b : Block) bs, size (b :: bs) = b.size + size bs := fun b bs => by
        simp [size]
      rw [first, ih]
      cases b <;> simp [thinkings, texts, filterMap_cons, filter_cons, Block.asThinking,
        Block.asText, Block.isUse, Block.isResult, first, Block.size] <;> omega

/-- What is allowed is as long as the message. -/
theorem Allowed.size {bs cs : List Block} (h : Allowed role bs cs) :
    Anthropic.size cs = Anthropic.size bs := by
  rcases h with merges | ⟨-, before, x, after, split, other, rfl⟩
  · induction merges with
    | nil => rfl
    | cons b _ ih => simpa [Anthropic.size] using ih
    | text s t _ ih => simpa [Anthropic.size, Block.size, Nat.add_assoc] using ih
  have results : Anthropic.size (bs.filter Block.isResult) =
      Anthropic.size (before.filter Block.isResult) +
        Anthropic.size (after.filter Block.isResult) := by
    rw [split, filter_append, filter_cons, if_neg (by simp [other]), size_append]
  rw [size_split bs, results]
  simp only [size_append, group, size_thinkingBlock, size_textBlock]
  omega

theorem size_regrouped : size (regrouped (allBlocks msg)) ≤ size (blocksOf msg) ∧
      (size (regrouped (allBlocks msg)) = size (blocksOf msg) → ThinksOnce msg) := by
  have flat : (thinkings (blocksOf msg)).flatten = (thinkings (allBlocks msg)).flatten := by
    rw [blocksOf, thinkings_shown, flatten_filter]
  have short : ((thinkings (allBlocks msg)).getLast?.getD []).length ≤
        (thinkings (allBlocks msg)).flatten.length ∧
      (((thinkings (allBlocks msg)).getLast?.getD []).length =
        (thinkings (allBlocks msg)).flatten.length → ThinksOnce msg) := by
    rw [ThinksOnce]
    rcases split_last (thinkings (allBlocks msg)) with none | split
    · rw [none]
      simp
    have whole : (thinkings (allBlocks msg)).flatten =
        (thinkings (allBlocks msg)).dropLast.flatten ++
          (thinkings (allBlocks msg)).getLast?.getD [] := by
      conv_lhs => rw [split]
      simp
    rw [whole, length_append]
    refine ⟨Nat.le_add_left _ _, fun same => ?_⟩
    have empty : (thinkings (allBlocks msg)).dropLast.flatten = [] :=
      eq_nil_of_length_eq_zero (by omega)
    exact flatten_eq_nil_iff.mp empty
  rw [regrouped_eq, size_split (blocksOf msg), flat]
  simp only [size_append, size_thinkingBlock, size_textBlock]
  exact ⟨by omega, fun same => short.2 (by omega)⟩

theorem regrouped_shows {msg : MessageParam} : ∀ b ∈ regrouped (allBlocks msg), b.Shows = true := by
  intro b hb
  rw [regrouped_eq] at hb
  simp only [mem_append] at hb
  rcases hb with hb | hb | hb | hb
  · by_cases ht : (thinkings (allBlocks msg)).getLast?.getD [] = [] <;>
      simp_all [thinkingBlock, Block.Shows]
  · by_cases ht : (texts (blocksOf msg)).flatten = [] <;> simp_all [textBlock, Block.Shows]
  · exact shows_of_mem b (mem_filter.mp hb).1
  · exact shows_of_mem b (mem_filter.mp hb).1

theorem Allowed.shows {bs cs : List Block} (h : Allowed role bs cs)
    (shown : ∀ b ∈ bs, b.Shows = true) : ∀ c ∈ cs, c.Shows = true := by
  rcases h with merges | ⟨-, before, x, after, rfl, other, rfl⟩
  · induction merges with
    | nil => exact shown
    | cons b _ ih =>
        obtain ⟨first, rest⟩ := forall_mem_cons.mp shown
        exact forall_mem_cons.mpr ⟨first, ih rest⟩
    | text s t _ ih =>
        simp_all [Block.Shows]
  · intro c hc
    simp only [mem_append, mem_filter, group] at hc
    rcases hc with hc | (hc | hc | hc) | hc
    · exact shown c (mem_append_left _ hc.1)
    · generalize (thinkings _).flatten = t at hc
      by_cases ht : t = [] <;> simp_all [thinkingBlock, Block.Shows]
    · generalize (texts _).flatten = t at hc
      by_cases ht : t = [] <;> simp_all [textBlock, Block.Shows]
    · exact shown c (by simpa using hc.1)
    · exact shown c (mem_append_right _ (mem_cons_of_mem _ hc.1))

/-- Two beginnings of one list that are equally long in all are the same. -/
theorem append_inj_of_size {xs ys xs' ys' : List Item} (h : xs ++ xs' = ys ++ ys')
    (hx : ∀ x ∈ xs, 0 < x.size) (hy : ∀ y ∈ ys, 0 < y.size)
    (same : (xs.map Item.size).sum = (ys.map Item.size).sum) : xs = ys ∧ xs' = ys' := by
  induction xs generalizing ys with
  | nil =>
      cases ys with
      | nil => exact ⟨rfl, h⟩
      | cons y ys =>
          have pos := hy y mem_cons_self
          simp at same
          omega
  | cons x xs ih =>
      cases ys with
      | nil =>
          have pos := hx x mem_cons_self
          simp at same
          omega
      | cons y ys =>
          simp only [cons_append, List.cons.injEq] at h
          obtain ⟨rfl, h⟩ := h
          obtain ⟨rfl, rest⟩ := ih h (fun z hz => hx z (mem_cons_of_mem _ hz))
            (fun z hz => hy z (mem_cons_of_mem _ hz)) (by simpa using same)
          exact ⟨rfl, rest⟩

theorem item_injective (notTool : role ≠ roleTool) :
    Function.Injective (Block.item role) := by
  intro b c h
  cases b <;> cases c <;> simp_all [Block.item]

/-- Each message is in order. -/
def OrderKept (codec : Codec) (r : MessagesRequest) : Prop :=
  ∀ msg ∈ r.messages, ThinksOnce msg ∧ InOrder (codec.toLower msg.role) (blocksOf msg)

theorem mapM_ok {ε β γ : Type} {f : β → Except ε γ} {xs : List β} {ys : List γ}
    (h : xs.mapM f = .ok ys) : List.Forall₂ (fun x y => f x = .ok y) xs ys := by
  induction xs generalizing ys with
  | nil =>
      cases h
      exact .nil
  | cons x xs ih =>
      rw [mapM_cons] at h
      rcases hx : f x with e | y
      · rw [hx] at h
        cases h
      rcases hxs : xs.mapM f with e | zs
      · rw [hx, hxs] at h
        cases h
      · rw [hx, hxs] at h
        cases h
        exact .cons hx (ih hxs)

theorem systemMessages_items (system : Any) : (systemMessages system).flatMap itemsOf =
      (textBlock (systemText system)).map (Block.item roleSystem) := by
  cases system with
  | string s => by_cases hs : s = [] <;> simp [systemMessages, systemText, textBlock, itemsOf,
      Block.item, hs]
  | array blocks =>
      by_cases hs : textOfBlocks blocks = [] <;> simp [systemMessages, systemText, textBlock,
        itemsOf, Block.item, hs]
  | _ => rfl

theorem fromMessagesRequest_items {r : MessagesRequest}
    (h : fromMessagesRequest codec r = .ok ms) :
    ms.flatMap itemsOf = (textBlock (systemText r.system)).map (Block.item roleSystem) ++
      (r.messages.map fun msg =>
        (regrouped (allBlocks msg)).map (Block.item (codec.toLower msg.role))).flatten := by
  simp only [fromMessagesRequest] at h
  rcases hc : r.messages.mapM (convertMessage codec) with e | converted
  · rw [hc] at h
    cases h
  rcases ht : r.tools.forM (convertTool codec) with e | u
  · rw [hc] at h
    simp only [bind, Except.bind, ht] at h
    cases h
  rw [hc] at h
  simp only [bind, Except.bind, ht] at h
  cases h
  rw [flatMap_append, systemMessages_items]
  congr 1
  have each := mapM_ok hc
  clear hc
  generalize r.messages = msgs at each
  induction each with
  | nil => rfl
  | cons one _ ih =>
      rw [flatten_cons, flatMap_append, convertMessage_items one, ih]
      rfl

/-- What is sent on is no longer than what is allowed. -/
theorem regrouped_total {msgs : List MessageParam} {said : List (List Block)}
    (allowed : List.Forall₂
      (fun msg cs => Allowed (codec.toLower msg.role) (blocksOf msg) cs) msgs said) :
    ((msgs.map fun msg =>
        (regrouped (allBlocks msg)).map (Block.item (codec.toLower msg.role))).flatten.map
          Item.size).sum ≤
      ((List.zipWith (fun msg cs => cs.map (Block.item (codec.toLower msg.role)))
        msgs said).flatten.map Item.size).sum := by
  induction allowed with
  | nil => exact Nat.le_refl 0
  | @cons msg cs msgs said one _ ih =>
      have short := (size_regrouped msg).1
      simp only [map_cons, flatten_cons, map_append, sum_append,
        zipWith_cons_cons, items_size, one.size]
      omega

/-- The messages in the order of the request are those that are sent on: each is. -/
theorem orderKept_of_said {msgs : List MessageParam} {said : List (List Block)}
    (allowed : List.Forall₂
      (fun msg cs => Allowed (codec.toLower msg.role) (blocksOf msg) cs) msgs said)
    (noTool : ∀ msg ∈ msgs, codec.toLower msg.role ≠ roleTool)
    (same : (msgs.map fun msg =>
        (regrouped (allBlocks msg)).map (Block.item (codec.toLower msg.role))).flatten =
      (List.zipWith (fun msg cs => cs.map (Block.item (codec.toLower msg.role)))
        msgs said).flatten) :
    ∀ msg ∈ msgs, ThinksOnce msg ∧ InOrder (codec.toLower msg.role) (blocksOf msg) := by
  induction allowed with
  | nil => exact fun msg h => absurd h not_mem_nil
  | @cons msg cs msgs said one rest ih =>
      have short := regrouped_total rest
      have sums := congrArg (fun items => (items.map Item.size).sum) same
      simp only [map_cons, flatten_cons, map_append, sum_append,
        zipWith_cons_cons, items_size, one.size] at sums
      have first := size_regrouped msg
      have exactly : size (regrouped (allBlocks msg)) = size (blocksOf msg) := by omega
      obtain ⟨here, later⟩ := append_inj_of_size same (by
          intro x hx
          obtain ⟨b, hb, rfl⟩ := mem_map.mp hx
          rw [item_size]
          exact size_pos_of_shows (regrouped_shows b hb))
        (by
          intro x hx
          obtain ⟨b, hb, rfl⟩ := mem_map.mp hx
          rw [item_size]
          exact size_pos_of_shows (one.shows shows_of_mem b hb))
        (by rw [items_size, items_size, one.size, exactly])
      have sent : regrouped (allBlocks msg) = cs :=
        map_injective_iff.mpr (item_injective (noTool msg mem_cons_self)) here
      rw [← sent] at one
      exact forall_mem_cons.mpr ⟨inOrder_of_allowed one,
        ih (fun msg' h => noTool msg' (mem_cons_of_mem _ h)) later⟩

theorem orderKept_of_keeps {r : MessagesRequest}
    (accepted : fromMessagesRequest codec r = .ok ms)
    (noTool : ∀ msg ∈ r.messages, codec.toLower msg.role ≠ roleTool)
    (h : KeepsConversation codec r ms) : OrderKept codec r := by
  obtain ⟨said, allowed, same⟩ := h
  rw [fromMessagesRequest_items accepted] at same
  exact orderKept_of_said allowed noTool (append_cancel_left same)

theorem keeps_of_orderKept {r : MessagesRequest}
    (accepted : fromMessagesRequest codec r = .ok ms) (order : OrderKept codec r) :
    KeepsConversation codec r ms := by
  refine ⟨r.messages.map fun msg => regrouped (allBlocks msg), ?_, ?_⟩
  · rw [forall₂_map_right_iff, forall₂_same]
    exact fun msg hmsg => allowed_of_inOrder (order msg hmsg).1 (order msg hmsg).2
  · rw [fromMessagesRequest_items accepted, zipWith_map_right, zipWith_self]

/-- **The order of a conversation.** The messages say what the request says, in its order, if
each message is in order; and only then, but for a message whose role is that of a tool result:
its text and a tool result without identifier are the same message. -/
theorem fromMessagesRequest_keepsOrder (codec : Codec) (r : MessagesRequest)
    (ms : List (Message Arguments)) (accepted : fromMessagesRequest codec r = .ok ms) :
    (OrderKept codec r → KeepsConversation codec r ms) ∧
      ((∀ msg ∈ r.messages, codec.toLower msg.role ≠ roleTool) →
        (KeepsConversation codec r ms ↔ OrderKept codec r)) :=
  ⟨keeps_of_orderKept accepted,
    fun noTool => ⟨orderKept_of_keeps accepted noTool, keeps_of_orderKept accepted⟩⟩

/-- The codec of the two examples. -/
def plainCodec : Codec where
  toLower := id
  quote := id
  decodeBase64 _ := .ok []
  unmarshalSchema _ := none

/-- Text, then a tool result, then an answer. -/
theorem fromMessagesRequest_keepsOrder_sorted : KeepsConversation plainCodec { messages :=
          [⟨['u'], .array [
              .object [("type".toList, .string typeText), ("text".toList, .string ['a'])],
              .object [("type".toList, .string typeToolResult),
                ("tool_use_id".toList, .string ['i']), ("content".toList, .string ['b'])]]⟩,
            ⟨roleAssistant, .string ['c']⟩] }
      [{ role := ['u'], content := ['a'] },
        { role := roleTool, content := ['b'], toolCallID := ['i'] },
        { role := roleAssistant, content := ['c'] }] :=
  (fromMessagesRequest_keepsOrder plainCodec _ _ rfl).1 (by
    intro msg hmsg
    rcases mem_cons.mp hmsg with rfl | hmsg
    · exact ⟨by decide, by decide⟩
    · obtain rfl := mem_singleton.mp hmsg
      exact ⟨by decide, by decide⟩)

/-- A tool result, then text: the text is sent first. -/
theorem fromMessagesRequest_notKeepsOrder : fromMessagesRequest plainCodec
        { messages := [⟨['u'], .array [ .object [("type".toList, .string typeToolResult),
              ("tool_use_id".toList, .string ['i']), ("content".toList, .string ['b'])],
            .object [("type".toList, .string typeText), ("text".toList, .string ['a'])]]⟩] } =
      .ok [{ role := ['u'], content := ['a'] },
        { role := roleTool, content := ['b'], toolCallID := ['i'] }] ∧
    ¬KeepsConversation plainCodec { messages := [⟨['u'], .array [
            .object [("type".toList, .string typeToolResult),
              ("tool_use_id".toList, .string ['i']), ("content".toList, .string ['b'])],
            .object [("type".toList, .string typeText), ("text".toList, .string ['a'])]]⟩] }
        [{ role := ['u'], content := ['a'] },
          { role := roleTool, content := ['b'], toolCallID := ['i'] }] := by
  refine ⟨rfl, fun keeps => ?_⟩
  have order := (orderKept_of_keeps rfl (by
    intro msg hmsg
    obtain rfl := mem_singleton.mp hmsg
    decide) keeps _ mem_cons_self).2
  revert order
  decide

end Ollama.Anthropic
