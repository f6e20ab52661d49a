import Ollama.Renderers.Lfm2

/-!
# Tool calls that are rendered and parsed

`lfm2RenderToolCalls` followed by `parseToolCallsContent`.
-/

namespace Ollama.Renderers

open Lib Parsers List
open Api (ToolCall)

/-! ## §1  Values under the scanners -/

theorem balanced_ordinary {s : Text} (h : Ordinary s) : Balanced s := .of_free (h.free (by decide))

theorem balanced_quote (s : Text) : Balanced (Json.quote s) :=
  .quoted (.inr rfl) (body_string s) .nil

mutual

/-- A value has parentheses and single quotes within strings only. -/
theorem balanced_write (v : Json Int64) : Balanced (Json.write (spaced int64Text) v) := by
  match v with
  | .null => exact balanced_ordinary (by decide)
  | .bool true => exact balanced_ordinary (by decide)
  | .bool false => exact balanced_ordinary (by decide)
  | .number n => exact balanced_ordinary (ordinary_decimal n.toInt)
  | .string s => exact balanced_quote s
  | .array xs =>
    have hclose : Balanced [']'] := .of_free (by decide)
    exact .plain (by decide) (by decide) (by decide) (by decide)
      ((balanced_elements xs true).append hclose)
  | .object fields =>
    have hclose : Balanced ['}'] := .of_free (by decide)
    exact .plain (by decide) (by decide) (by decide) (by decide)
      ((balanced_members fields true).append hclose)

theorem balanced_elements (xs : List (Json Int64)) (first : Bool) :
    Balanced (Json.writeElements (spaced int64Text) first xs) := by
  match xs with
  | [] => exact .nil
  | x :: xs =>
    have hcomma : Balanced (if first then [] else [',', ' ']) := by
      cases first <;> exact .of_free (by decide)
    exact hcomma.append ((balanced_write x).append (balanced_elements xs false))

theorem balanced_members (fields : List (Text × Json Int64)) (first : Bool) :
    Balanced (Json.writeMembers (spaced int64Text) first fields) := by
  match fields with
  | [] => exact .nil
  | (k, x) :: fields =>
    have hcomma : Balanced (if first then [] else [',', ' ']) := by
      cases first <;> exact .of_free (by decide)
    have hcolon : Balanced [':', ' '] := .of_free (by decide)
    exact hcomma.append ((balanced_quote k).append (hcolon.append
      ((balanced_write x).append (balanced_members fields false))))

end

/-- A text that is part of the literal that it stands in, `p`, `q` and `r` brackets deep. -/
def Kept (p q r : ℕ) (s : Text) : Prop :=
  ∀ rest, splitLiteral p q r none (s ++ rest) = prepend s (splitLiteral p q r none rest)

section Literals

variable {p q r : ℕ} {s t : Text}

theorem Kept.nil : Kept p q r [] := fun _ => rfl

theorem Kept.append (hs : Kept p q r s) (ht : Kept p q r t) : Kept p q r (s ++ t) := fun rest => by
  rw [append_assoc, hs, ht, prepend_prepend]

/-- Characters that no case of the scanner is about. -/
theorem Kept.of_free (h : Free "'\"()[]\x7b\x7d".toList s) (hcomma : ',' ∈ s → 0 < p + q + r) :
    Kept p q r s := by
  induction s with
  | nil => exact .nil
  | cons c s ih =>
    have hne : ∀ x ∈ "'\"()[]\x7b\x7d".toList, c ≠ x :=
      fun x hx hc => h c mem_cons_self (hc ▸ hx)
    have hquote : ¬(c = '\'' ∨ c = '"') :=
      fun h => h.elim (hne _ (by decide)) (hne _ (by decide))
    have htop : ¬(c = ',' ∧ p = 0 ∧ q = 0 ∧ r = 0) := fun h => by
      have := hcomma (h.1 ▸ mem_cons_self)
      omega
    intro rest
    rw [cons_append, splitLiteral, if_neg hquote, if_neg (hne _ (by decide)),
      if_neg (hne _ (by decide)), if_neg (hne _ (by decide)), if_neg (hne _ (by decide)),
      if_neg (hne _ (by decide)), if_neg (hne _ (by decide)), if_neg htop,
      ih (fun x hx => h x (mem_cons_of_mem c hx))
        (fun hmem => hcomma (mem_cons_of_mem c hmem)), prepend_prepend]
    rfl

theorem kept_ordinary (h : Ordinary s) : Kept p q r s :=
  .of_free (h.free (by decide)) fun hmem =>
    absurd (h ',' hmem) (by decide)

theorem kept_quote (s : Text) : Kept p q r (Json.quote s) := fun rest => by
  rw [Json.quote, cons_append, append_assoc, singleton_append, splitLiteral,
    if_pos (.inr rfl), (body_string s).splitLiteral_eq (by decide), prepend_prepend]
  rfl

theorem Kept.square (h : Kept p (q + 1) r s) : Kept p q r ('[' :: (s ++ [']'])) := fun rest => by
  rw [cons_append, append_assoc, singleton_append, splitLiteral,
    if_neg (by decide), if_neg (by decide), if_neg (by decide), if_pos rfl, h, splitLiteral,
    if_neg (by decide), if_neg (by decide), if_neg (by decide), if_neg (by decide), if_pos rfl,
    Nat.add_sub_cancel, prepend_prepend, prepend_prepend]
  rfl

theorem Kept.curly (h : Kept p q (r + 1) s) : Kept p q r ('{' :: (s ++ ['}'])) := fun rest => by
  rw [cons_append, append_assoc, singleton_append, splitLiteral,
    if_neg (by decide), if_neg (by decide), if_neg (by decide), if_neg (by decide),
    if_neg (by decide), if_pos rfl, h, splitLiteral, if_neg (by decide), if_neg (by decide),
    if_neg (by decide), if_neg (by decide), if_neg (by decide), if_neg (by decide), if_pos rfl,
    Nat.add_sub_cancel, prepend_prepend, prepend_prepend]
  rfl

end Literals

mutual

theorem kept_write (v : Json Int64) (p q r : ℕ) : Kept p q r (Json.write (spaced int64Text) v) := by
  match v with
  | .null => exact kept_ordinary (by decide)
  | .bool true => exact kept_ordinary (by decide)
  | .bool false => exact kept_ordinary (by decide)
  | .number n => exact kept_ordinary (ordinary_decimal n.toInt)
  | .string s => exact kept_quote s
  | .array xs => exact (kept_elements xs true p (q + 1) r (by omega)).square
  | .object fields => exact (kept_members fields true p q (r + 1) (by omega)).curly

theorem kept_elements (xs : List (Json Int64)) (first : Bool) (p q r : ℕ) (hdepth : 0 < p + q + r) :
    Kept p q r (Json.writeElements (spaced int64Text) first xs) := by
  match xs with
  | [] => exact .nil
  | x :: xs =>
    have hcomma : Kept p q r (if first then [] else [',', ' ']) := by
      cases first <;> exact .of_free (by decide) fun _ => hdepth
    exact hcomma.append ((kept_write x p q r).append (kept_elements xs false p q r hdepth))

theorem kept_members (fields : List (Text × Json Int64)) (first : Bool) (p q r : ℕ)
    (hdepth : 0 < p + q + r) :
    Kept p q r (Json.writeMembers (spaced int64Text) first fields) := by
  match fields with
  | [] => exact .nil
  | (k, x) :: fields =>
    have hcomma : Kept p q r (if first then [] else [',', ' ']) := by
      cases first <;> exact .of_free (by decide) fun _ => hdepth
    have hcolon : Kept p q r [':', ' '] :=
      .of_free (by decide) fun _ => hdepth
    exact hcomma.append ((kept_quote k).append (hcolon.append
      ((kept_write x p q r).append (kept_members fields false p q r hdepth))))

end

/-! ## §2  Values -/

def int64Value (n : Int64) : Option ℚ := some n.toInt

/-- When a value is read back: no character of a string is escaped; arrays and objects nest as
deep as the decoder allows, and a double holds the integers in them. -/
def Survives : Json Int64 → Prop
  | .string s => ∀ c ∈ s, Json.escape c = [c]
  | .array xs =>
      Json.depth (.array xs) ≤ maxNestingDepth ∧
        ∀ n ∈ Json.numbers (.array xs), Double.ofInt n.toInt = n.toInt
  | .object fields =>
      Json.depth (.object fields) ≤ maxNestingDepth ∧
        ∀ n ∈ Json.numbers (.object fields), Double.ofInt n.toInt = n.toInt
  | _ => True

def Ends (rest : Text) : Prop := rest = [] ∨ ∃ t, rest = ',' :: t

/-- The first and the last character of a text that is no string. -/
theorem solid_write (v : Json Int64) (hv : ∀ s, v ≠ .string s) :
    (∃ c t, Json.write (spaced int64Text) v = c :: t ∧ isSpace c = false ∧ c ≠ '\'' ∧ c ≠ '"') ∧
      ∀ r, (Json.write (spaced int64Text) v).getLast? = some r → isSpace r = false := by
  have hordinary : ∀ t : Text, t ≠ [] → Ordinary t →
      (∃ c t', t = c :: t' ∧ isSpace c = false ∧ c ≠ '\'' ∧ c ≠ '"') ∧
        ∀ r, t.getLast? = some r → isSpace r = false := by
    intro t hne h
    obtain ⟨c, t', rfl⟩ := exists_cons_of_ne_nil hne
    have hc := h c mem_cons_self
    exact ⟨⟨c, t', rfl, not_isSpace_of_ordinary hc, ne_of_ordinary hc (by decide),
      ne_of_ordinary hc (by decide)⟩,
      fun r hr => not_isSpace_of_ordinary (h r (mem_of_getLast? hr))⟩
  have hbracket : ∀ {c c' : Char} {t : Text}, isSpace c' = false →
      ∀ r, (c :: (t ++ [c'])).getLast? = some r → isSpace r = false := by
    intro c c' t hc' r hr
    rw [← cons_append, getLast?_concat] at hr
    rwa [← Option.some.inj hr]
  match v with
  | .null => exact hordinary _ (by decide) (by decide)
  | .bool true => exact hordinary _ (by decide) (by decide)
  | .bool false => exact hordinary _ (by decide) (by decide)
  | .number n =>
    obtain ⟨c, t, htext, -⟩ := (Json.numberText_decimal n.toInt).head
    have hne : Strconv.decimal n.toInt ≠ [] := by
      rw [htext]
      exact cons_ne_nil c t
    exact hordinary _ hne (ordinary_decimal n.toInt)
  | .string s => exact absurd rfl (hv s)
  | .array xs => exact ⟨⟨_, _, rfl, by decide, by decide, by decide⟩, hbracket (by decide)⟩
  | .object fields => exact ⟨⟨_, _, rfl, by decide, by decide, by decide⟩, hbracket (by decide)⟩

theorem parsePythonArgValue_literal {v : Json Int64} (hv : ∀ s, v ≠ .string s) {rest : Text}
    (hrest : Ends rest) :
    parsePythonArgValue (Json.write (spaced int64Text) v ++ rest) =
      .ok (parsePythonLiteral (Json.write (spaced int64Text) v), rest) := by
  obtain ⟨⟨c, t, hhead, hspace, hsingle, hdouble⟩, hlast⟩ := solid_write v hv
  have hend : splitLiteral 0 0 0 none rest = ([], rest) := by
    rcases hrest with rfl | ⟨t, rfl⟩ <;> rfl
  have hsplit : splitLiteral 0 0 0 none (Json.write (spaced int64Text) v ++ rest) =
      (Json.write (spaced int64Text) v, rest) := by
    rw [kept_write v 0 0 0 rest, hend, prepend, append_nil]
  have htrim : trimSpace (Json.write (spaced int64Text) v) = Json.write (spaced int64Text) v :=
    trimSpace_eq (fun r hr => by
      rw [hhead] at hr
      rwa [← Option.some.inj hr]) hlast
  have hquote : ¬(c = '\'' ∨ c = '"') := fun h => h.elim hsingle hdouble
  unfold parsePythonArgValue
  split
  · next heq =>
    rw [hhead] at heq
    cases heq
  rename_i c' t' heq
  rw [hhead, cons_append] at heq
  obtain rfl := (List.cons.inj heq).1
  rw [if_neg hquote, hsplit]
  dsimp only
  rw [htrim]

/-- A token that begins like none of the words is a number or left to the decoder. -/
theorem parsePythonLiteral_cons {c : Char} (hc : c ∉ "tTfFnN".toList) (s : Text) :
    parsePythonLiteral (c :: s) =
      match Strconv.parseInt (c :: s) with
      | some v => .number (.int64 v)
      | none =>
          match Strconv.parseFloat (c :: s) with
          | some v => .number (.float64 v)
          | none => parseComposite (c :: s) := by
  have hword : ∀ (x : Char) (word : Text), x ∈ "tTfFnN".toList → c :: s ≠ x :: word :=
    fun x word hx h => hc ((List.cons.inj h).1 ▸ hx)
  have htrue : ¬(c :: s = "true".toList ∨ c :: s = "True".toList) := fun h =>
    h.elim (hword _ _ (by decide)) (hword _ _ (by decide))
  have hfalse : ¬(c :: s = "false".toList ∨ c :: s = "False".toList) := fun h =>
    h.elim (hword _ _ (by decide)) (hword _ _ (by decide))
  have hnull : ¬(c :: s = "null".toList ∨ c :: s = "None".toList) := fun h =>
    h.elim (hword _ _ (by decide)) (hword _ _ (by decide))
  unfold parsePythonLiteral
  rw [if_neg (cons_ne_nil c s), if_neg htrue, if_neg hfalse]
  exact if_neg hnull

theorem parsePythonLiteral_bracket {c : Char} (hc : c = '[' ∨ c = '{') (s : Text) :
    parsePythonLiteral (c :: s) = parseComposite (c :: s) := by
  have hletter : c ∉ "tTfFnN".toList := by rcases hc with rfl | rfl <;> decide
  obtain ⟨hint, hfloat⟩ := Strconv.parse_bracket hc s
  rw [parsePythonLiteral_cons hletter, hint, hfloat]

theorem parsePythonLiteral_int64 (n : Int64) :
    parsePythonLiteral (int64Text n) = .number (.int64 n) := by
  obtain ⟨c, t, htext, hc⟩ := (Json.numberText_decimal n.toInt).head
  have hletter : c ∉ "tTfFnN".toList := fun hmem => by
    have hall : "tTfFnN".toList.all (fun x => x ≠ '-' && !x.isDigit) = true := by decide
    have hnot := all_eq_true.mp hall c hmem
    rcases hc with rfl | hc
    · exact absurd hnot (by decide)
    · rw [hc, Bool.not_true, Bool.and_false] at hnot
      cases hnot
  have hint := Strconv.parseInt_decimal n
  rw [int64Text]
  rw [htext] at hint ⊢
  rw [parsePythonLiteral_cons hletter, hint]

theorem depth_parseComposite (token : Text) : (parseComposite token).depth ≤ maxNestingDepth := by
  unfold parseComposite
  split
  · split
    · next h => exact Json.read_depth h
    · split
      · next h =>
        obtain ⟨s, -, hs⟩ := Option.bind_eq_some_iff.mp h
        exact Json.read_depth hs
      · exact Nat.zero_le _
  · exact Nat.zero_le _

theorem parsePythonLiteral_composite {v : Json Int64}
    (hv : ∃ c t, Json.write (spaced int64Text) v = c :: t ∧ (c = '[' ∨ c = '{')) (hs : v.Sorted) :
    (parsePythonLiteral (Json.write (spaced int64Text) v)).map GoNumber.value = v.map int64Value ↔
      v.depth ≤ maxNestingDepth ∧ ∀ n ∈ v.numbers, Double.ofInt n.toInt = n.toInt := by
  obtain ⟨c, t, htext, hc⟩ := hv
  have hprefix : ['['] <+: c :: t ∨ ['{'] <+: c :: t := by
    rcases hc with rfl | rfl
    · exact .inl ⟨t, rfl⟩
    · exact .inr ⟨t, rfl⟩
  rw [htext, parsePythonLiteral_bracket hc]
  by_cases hdepth : v.depth ≤ maxNestingDepth
  · have hread : unmarshal (c :: t) = some (v.map decoded) := by
      rw [← htext]
      exact Json.read_write spaced_reads hdepth hs
    have hvalue : ∀ n, (GoNumber.value ∘ decoded) n = int64Value n ↔
        Double.ofInt n.toInt = n.toInt := fun n => Option.some_inj
    unfold parseComposite
    rw [if_pos hprefix, hread]
    rw [Json.map_map, Json.map_eq_map_iff]
    exact ⟨fun h => ⟨hdepth, fun n hn => (hvalue n).mp (h n hn)⟩,
      fun h n hn => (hvalue n).mpr (h.2 n hn)⟩
  · refine ⟨fun h => absurd ?_ hdepth, fun h => absurd h.1 hdepth⟩
    have hle := depth_parseComposite (c :: t)
    rwa [← Json.depth_map GoNumber.value, h, Json.depth_map] at hle

/-- A value that was rendered is parsed up to what ends it, and survives or not. -/
theorem parsePythonArgValue_write (v : Json Int64) (hs : v.Sorted) {rest : Text}
    (hrest : Ends rest) :
    ∃ x, parsePythonArgValue (lfm2JSON int64Text v ++ rest) = .ok (x, rest) ∧
      (x.map GoNumber.value = v.map int64Value ↔ Survives v) := by
  rw [lfm2JSON_eq]
  match v with
  | .null =>
    exact ⟨_, parsePythonArgValue_literal (by nofun) hrest, fun _ => trivial, fun _ => rfl⟩
  | .bool true =>
    exact ⟨_, parsePythonArgValue_literal (by nofun) hrest, fun _ => trivial, fun _ => rfl⟩
  | .bool false =>
    exact ⟨_, parsePythonArgValue_literal (by nofun) hrest, fun _ => trivial, fun _ => rfl⟩
  | .number n =>
    refine ⟨_, parsePythonArgValue_literal (by nofun) hrest, fun _ => trivial, fun _ => ?_⟩
    show (parsePythonLiteral (int64Text n)).map GoNumber.value = _
    rw [parsePythonLiteral_int64]
    rfl
  | .string s =>
    have hquoted := (body_string s).quoted_eq (by decide) rest
    refine ⟨.string (s.flatMap Json.escape), ?_, ?_⟩
    · rw [Json.write, Json.quote, cons_append, append_assoc, singleton_append,
        parsePythonArgValue, if_pos (.inr rfl), hquoted]
    · rw [Json.map, Json.map, Json.string.injEq, Json.flatMap_escape_eq_iff]
      exact Iff.rfl
  | .array xs =>
    exact ⟨_, parsePythonArgValue_literal (by nofun) hrest,
      parsePythonLiteral_composite ⟨_, _, rfl, .inl rfl⟩ hs⟩
  | .object fields =>
    exact ⟨_, parsePythonArgValue_literal (by nofun) hrest,
      parsePythonLiteral_composite ⟨_, _, rfl, .inr rfl⟩ hs⟩

/-! ## §3  Arguments -/

structure KeyText (k : Text) : Prop where
  trimmed : trimSpace k = k
  equals : '=' ∉ k
  comma : ',' ∉ k

theorem skipOneComma_render (fields : List (Text × Json Int64)) :
    skipOneComma (renderArguments int64Text false fields) =
      renderArguments int64Text true fields := by
  cases fields with
  | nil => rfl
  | cons x fields => rfl

theorem ends_render (fields : List (Text × Json Int64)) :
    Ends (renderArguments int64Text false fields) := by
  cases fields with
  | nil => exact .inl rfl
  | cons x fields => exact .inr ⟨_, rfl⟩

theorem length_le_render (first : Bool) (fields : List (Text × Json Int64)) :
    fields.length ≤ (renderArguments int64Text first fields).length := by
  induction fields generalizing first with
  | nil => exact Nat.le_refl 0
  | cons x fields ih =>
    have hle := ih false
    rw [renderArguments, length_append, length_append, length_cons, length_cons, length_append]
    omega

theorem head_lfm2JSON (v : Json Int64) :
    ∃ c t, lfm2JSON int64Text v = c :: t ∧ isSpace c = false := by
  rw [lfm2JSON_eq]
  by_cases hv : ∃ s, v = .string s
  · obtain ⟨s, rfl⟩ := hv
    exact ⟨'"', _, rfl, by decide⟩
  · obtain ⟨⟨c, t, htext, hspace, -⟩, -⟩ := solid_write v fun s h => hv ⟨s, h⟩
    exact ⟨c, t, htext, hspace⟩

section Arguments

variable {k : Text} {v : Json Int64} {fields : List (Text × Json Int64)}

/-- One turn on a field: its key is empty, or its value is read and its comma skipped. -/
theorem parsePythonArgsFrom_field (hk : KeyText k) (n : ℕ) (args : Arguments) :
    parsePythonArgsFrom (n + 1) (renderArguments int64Text true ((k, v) :: fields)) args =
      if k = [] then .error "invalid argument: empty key"
      else
        match parsePythonArgValue
          (lfm2JSON int64Text v ++ renderArguments int64Text false fields) with
        | .error e => .error e
        | .ok (value, next) =>
            parsePythonArgsFrom n (skipOneComma next) (Json.setField k value args) := by
  obtain ⟨c, t, hvalue, hc⟩ := head_lfm2JSON v
  have hs : renderArguments int64Text true ((k, v) :: fields) =
      k ++ '=' :: (lfm2JSON int64Text v ++ renderArguments int64Text false fields) := rfl
  have hchars : ∀ c ∈ k, (c ≠ '=' && c ≠ ',') = true := fun c hc => by
    rw [Bool.and_eq_true, decide_eq_true_eq, decide_eq_true_eq]
    exact ⟨fun h => hk.equals (h ▸ hc), fun h => hk.comma (h ▸ hc)⟩
  have hskip : (k ++ '=' :: (lfm2JSON int64Text v ++ renderArguments int64Text false
      fields)).dropWhile (fun c => c = ',' || isAsciiSpace c) =
      k ++ '=' :: (lfm2JSON int64Text v ++ renderArguments int64Text false fields) := by
    cases k with
    | nil => exact dropWhile_cons_of_neg (by decide)
    | cons c k =>
      refine dropWhile_cons_of_neg ?_
      have hcomma : c ≠ ',' := fun h => hk.comma (h ▸ mem_cons_self)
      rw [isAsciiSpace, head_of_trimSpace hk.trimmed c rfl, Bool.and_false, Bool.or_false,
        decide_eq_true_eq]
      exact hcomma
  have hspace : (lfm2JSON int64Text v ++ renderArguments int64Text false fields).dropWhile
      isAsciiSpace = lfm2JSON int64Text v ++ renderArguments int64Text false fields := by
    rw [hvalue, cons_append]
    refine dropWhile_cons_of_neg ?_
    rw [isAsciiSpace, hc, Bool.and_false]
    exact Bool.false_ne_true
  have hdrop : (k ++ '=' :: (lfm2JSON int64Text v ++ renderArguments int64Text false
      fields)).dropWhile (fun c => c ≠ '=' && c ≠ ',') =
      '=' :: (lfm2JSON int64Text v ++ renderArguments int64Text false fields) := by
    rw [dropWhile_append_of_pos hchars]
    exact dropWhile_cons_of_neg (by decide)
  have htake : (k ++ '=' :: (lfm2JSON int64Text v ++ renderArguments int64Text false
      fields)).takeWhile (fun c => c ≠ '=' && c ≠ ',') = k := by
    rw [takeWhile_append_of_pos hchars, takeWhile_cons_of_neg (by decide), append_nil]
  have hne : k ++ '=' :: (lfm2JSON int64Text v ++ renderArguments int64Text false fields) ≠ [] :=
    append_ne_nil_of_right_ne_nil k (cons_ne_nil _ _)
  rw [hs, parsePythonArgsFrom]
  rw [hskip, if_neg hne, hdrop, htake, hk.trimmed]
  conv_rhs => rw [← hspace]
  rfl

/-- The fields are read in their order, up to what becomes of their values. -/
theorem parsePythonArgsFrom_fields {n : ℕ} (hn : fields.length ≤ n) {acc : Arguments}
    (hacc : ∀ y ∈ acc, ∀ f ∈ fields, y.1 < f.1) (hkeys : ∀ f ∈ fields, KeyText f.1 ∧ f.1 ≠ [])
    (hordered : Json.Ordered fields) (hsorted : Json.SortedMembers fields) :
    ∃ xs, parsePythonArgsFrom n (renderArguments int64Text true fields) acc = .ok (acc ++ xs) ∧
      (Json.mapMembers GoNumber.value xs = Json.mapMembers int64Value fields ↔
        ∀ f ∈ fields, Survives f.2) := by
  induction fields generalizing n acc with
  | nil =>
    refine ⟨[], ?_, fun _ f hf => (not_mem_nil hf).elim, fun _ => rfl⟩
    rw [append_nil]
    cases n <;> rfl
  | cons f fields ih =>
    obtain ⟨k, v⟩ := f
    obtain ⟨n, rfl⟩ := Nat.exists_eq_succ_of_ne_zero (Nat.ne_of_gt (Nat.lt_of_lt_of_le
      (Nat.succ_pos fields.length) hn))
    obtain ⟨hk, hne⟩ := hkeys (k, v) mem_cons_self
    obtain ⟨hfirst, hordered⟩ := pairwise_cons.mp hordered
    obtain ⟨x, hx, hsurvives⟩ := parsePythonArgValue_write v hsorted.1 (ends_render fields)
    have hset : Json.setField k x acc = acc ++ [(k, x)] :=
      Json.setField_last fun y hy => hacc y hy (k, v) mem_cons_self
    have hacc' : ∀ y ∈ acc ++ [(k, x)], ∀ f ∈ fields, y.1 < f.1 := by
      intro y hy f hf
      rcases mem_append.mp hy with hy | hy
      · exact hacc y hy f (mem_cons_of_mem _ hf)
      · obtain rfl := mem_singleton.mp hy
        exact hfirst f hf
    obtain ⟨xs, hxs, hvalues⟩ := ih (Nat.le_of_succ_le_succ hn) hacc'
      (fun f hf => hkeys f (mem_cons_of_mem _ hf)) hordered hsorted.2
    refine ⟨(k, x) :: xs, ?_, ?_⟩
    · rw [parsePythonArgsFrom_field hk, if_neg hne, hx]
      dsimp only
      rw [skipOneComma_render, hset, hxs, append_assoc]
      rfl
    · rw [Json.mapMembers, Json.mapMembers, List.cons.injEq, Prod.mk.injEq, hsurvives, hvalues,
        forall_mem_cons, eq_self_iff_true, true_and]

theorem parsePythonArgsFrom_error {n : ℕ} (hn : fields.length ≤ n) (acc : Arguments)
    (hkeys : ∀ f ∈ fields, KeyText f.1) (hsorted : Json.SortedMembers fields)
    (hempty : ∃ f ∈ fields, f.1 = []) :
    ∃ e, parsePythonArgsFrom n (renderArguments int64Text true fields) acc = .error e := by
  induction fields generalizing n acc with
  | nil =>
    obtain ⟨f, hf, -⟩ := hempty
    exact (not_mem_nil hf).elim
  | cons f fields ih =>
    obtain ⟨k, v⟩ := f
    obtain ⟨n, rfl⟩ := Nat.exists_eq_succ_of_ne_zero (Nat.ne_of_gt (Nat.lt_of_lt_of_le
      (Nat.succ_pos fields.length) hn))
    rw [parsePythonArgsFrom_field (hkeys (k, v) mem_cons_self)]
    by_cases hk : k = []
    · exact ⟨_, if_pos hk⟩
    obtain ⟨x, hx, -⟩ := parsePythonArgValue_write v hsorted.1 (ends_render fields)
    have hrest : ∃ f ∈ fields, f.1 = [] := by
      obtain ⟨f, hf, hnil⟩ := hempty
      rcases mem_cons.mp hf with rfl | hf
      · exact absurd hnil hk
      · exact ⟨f, hf, hnil⟩
    rw [if_neg hk, hx]
    dsimp only
    rw [skipOneComma_render]
    exact ih (Nat.le_of_succ_le_succ hn) _ (fun f hf => hkeys f (mem_cons_of_mem _ hf))
      hsorted.2 hrest

end Arguments

/-! ## §4  Calls -/

/-- A call of the model, with integers of 64 bits. -/
abbrev Call := ToolCall (List (Text × Json Int64))

/-- A call whose name and keys are written as they are. -/
structure CallText (call : Call) : Prop where
  trimmed : trimSpace call.function.name = call.function.name
  paren : '(' ∉ call.function.name
  comma : ',' ∉ call.function.name
  bracket : '[' ∉ call.function.name
  keys : ∀ f ∈ call.function.arguments, KeyText f.1
  sorted : (Json.object call.function.arguments).Sorted

/-- The name and the keys are not empty. -/
def Named (call : Call) : Prop :=
  call.function.name ≠ [] ∧ ∀ f ∈ call.function.arguments, f.1 ≠ []

/-- The parenthesis after the arguments closes the call: outside of quotes, the parentheses in
the arguments match. -/
def Closed (call : Call) : Prop :=
  Balanced (renderArguments int64Text true call.function.arguments)

def parsedJSON (call : ToolCall Arguments) : Text × List (Text × Json (Option ℚ)) :=
  (call.function.name, Json.mapMembers GoNumber.value call.function.arguments)

def callJSON (call : Call) : Text × List (Text × Json (Option ℚ)) :=
  (call.function.name, Json.mapMembers int64Value call.function.arguments)

/-- Keys without quotes and parentheses leave the arguments closed. -/
theorem balanced_render {fields : List (Text × Json Int64)}
    (h : ∀ f ∈ fields, Free "()'\"".toList f.1) (first : Bool) :
    Balanced (renderArguments int64Text first fields) := by
  induction fields generalizing first with
  | nil => exact .nil
  | cons f fields ih =>
    have hcomma : Balanced (if first then [] else [',']) := by
      cases first <;> exact .of_free (by decide)
    have hvalue : Balanced (lfm2ToolCallArgument int64Text f.2) := by
      rw [lfm2ToolCallArgument, lfm2JSON_eq]
      exact balanced_write f.2
    have hrest := ih (fun f hf => h f (mem_cons_of_mem _ hf)) false
    exact hcomma.append ((Balanced.of_free (h f mem_cons_self)).append
      (.plain (by decide) (by decide) (by decide) (by decide) (hvalue.append hrest)))

section Calls

variable {call : Call} {calls : List Call}

theorem parsePythonArgs_eq (h : CallText call) (hkeys : ∀ f ∈ call.function.arguments, f.1 ≠ []) :
    ∃ xs, parsePythonArgs (renderArguments int64Text true call.function.arguments) = .ok xs ∧
      (Json.mapMembers GoNumber.value xs = Json.mapMembers int64Value call.function.arguments ↔
        ∀ f ∈ call.function.arguments, Survives f.2) :=
  parsePythonArgsFrom_fields ((length_le_render true _).trans (Nat.le_succ _)) nofun
    (fun f hf => ⟨h.keys f hf, hkeys f hf⟩) h.sorted.1 h.sorted.2

theorem cut_name (h : CallText call) (rest : Text) :
    cut (call.function.name ++ '(' :: rest) ['('] = some (call.function.name, rest) := by
  refine (cut_eq_some (cons_ne_nil _ _)).mpr ⟨rfl, fun j hj ho => h.paren ?_⟩
  rw [Occurs, drop_append_of_le_length hj.le, drop_eq_getElem_cons hj, cons_append] at ho
  rw [(cons_prefix_cons.mp ho).1]
  exact getElem_mem hj

/-- The call at the head of the text is read, and what follows it is left. -/
theorem parsePythonStyleToolCall_eq (h : CallText call) (hclosed : Closed call) (rest : Text) :
    parsePythonStyleToolCall pythonArgs (call.function.name ++ '(' ::
        (renderArguments int64Text true call.function.arguments ++ ')' :: rest)) =
      if call.function.name = [] then .error "invalid tool call: empty function name"
      else (parsePythonArgs (renderArguments int64Text true call.function.arguments)).map
        fun arguments =>
          ({ function := { name := call.function.name, arguments := arguments } }, rest) := by
  have hargs : ∀ s, (if s = [] then .ok pythonArgs.noArgs else pythonArgs.parsePythonArgs s) =
      parsePythonArgs s := by
    intro s
    split
    · next h =>
      rw [h]
      rfl
    · rfl
  unfold parsePythonStyleToolCall
  rw [cut_name h]
  dsimp only
  rw [h.trimmed, Balanced.closes hclosed]
  dsimp only
  rw [take_left' rfl, hargs]
  have hdrop : (renderArguments int64Text true call.function.arguments ++ ')' :: rest).drop
      ((renderArguments int64Text true call.function.arguments).length + 1) = rest := by
    rw [drop_append, drop_eq_nil_of_le (Nat.le_succ _), Nat.add_sub_cancel_left]
    rfl
  rw [hdrop]

theorem renderCalls_false (call : Call) (calls : List Call) :
    renderCalls int64Text false (call :: calls) =
      ',' :: renderCalls int64Text true (call :: calls) := rfl

theorem length_le_renderCalls (first : Bool) (calls : List Call) :
    calls.length ≤ (renderCalls int64Text first calls).length := by
  induction calls generalizing first with
  | nil => exact Nat.le_refl 0
  | cons call calls ih =>
    have hle := ih false
    rw [renderCalls, length_append, length_append, length_cons,
      length_cons, length_append, length_cons]
    omega

/-- The text of calls ends with a parenthesis. -/
theorem renderCalls_snoc (first : Bool) (call : Call) (calls : List Call) :
    ∃ t, renderCalls int64Text first (call :: calls) = t ++ [')'] := by
  induction calls generalizing first call with
  | nil =>
    refine ⟨(if first then [] else [',']) ++ (call.function.name ++ '(' ::
      renderArguments int64Text true call.function.arguments), ?_⟩
    rw [renderCalls, renderCalls, append_assoc, append_assoc, cons_append]
  | cons call' calls ih =>
    obtain ⟨t, ht⟩ := ih false call'
    refine ⟨(if first then [] else [',']) ++ (call.function.name ++ '(' ::
      (renderArguments int64Text true call.function.arguments ++ ')' :: t)), ?_⟩
    rw [renderCalls, ht]
    simp only [append_assoc, cons_append]

theorem renderCalls_last (first : Bool) (call : Call) (calls : List Call) :
    ∀ r, (renderCalls int64Text first (call :: calls)).getLast? = some r → isSpace r = false := by
  intro r hr
  obtain ⟨t, ht⟩ := renderCalls_snoc first call calls
  rw [ht, getLast?_concat] at hr
  rw [← Option.some.inj hr]
  decide

/-- The text of calls begins with a name, or with the parenthesis after an empty one. -/
theorem renderCalls_head (h : CallText call) (calls : List Call) :
    ∀ r, (renderCalls int64Text true (call :: calls)).head? = some r →
      isSpace r = false ∧ r ≠ ',' := by
  intro r hr
  have htext : renderCalls int64Text true (call :: calls) = call.function.name ++ '(' ::
      (renderArguments int64Text true call.function.arguments ++ ')' ::
        renderCalls int64Text false calls) := rfl
  rw [htext] at hr
  cases hname : call.function.name with
  | nil =>
    rw [hname] at hr
    obtain rfl := Option.some.inj hr
    exact ⟨by decide, by decide⟩
  | cons c name =>
    rw [hname] at hr
    obtain rfl : c = r := Option.some.inj hr
    refine ⟨head_of_trimSpace h.trimmed c (by rw [hname]; rfl), ?_⟩
    rintro rfl
    exact h.comma (by rw [hname]; exact mem_cons_self)

theorem trimSpace_renderCalls (h : CallText call) (calls : List Call) :
    trimSpace (renderCalls int64Text true (call :: calls)) =
      renderCalls int64Text true (call :: calls) :=
  trimSpace_eq (fun r hr => (renderCalls_head h calls r hr).1) (renderCalls_last true call calls)

/-- White space and a comma in front of a call are skipped. -/
theorem skipComma_renderCalls (h : CallText call) (first : Bool) (calls : List Call) :
    skipComma (trimSpace (renderCalls int64Text first (call :: calls))) =
      renderCalls int64Text true (call :: calls) := by
  cases first with
  | true =>
    rw [trimSpace_renderCalls h, skipComma, if_neg]
    intro hcomma
    obtain ⟨t, ht⟩ := hcomma
    refine (renderCalls_head h calls ',' ?_).2 rfl
    rw [← ht]
    rfl
  | false =>
    have htrim : trimSpace (renderCalls int64Text false (call :: calls)) =
        renderCalls int64Text false (call :: calls) :=
      trimSpace_eq (fun r hr => by
        obtain rfl : ',' = r := Option.some.inj hr
        decide) (renderCalls_last false call calls)
    rw [htrim, renderCalls_false, skipComma, if_pos ⟨_, rfl⟩, drop_one, tail_cons,
      trimSpace_renderCalls h]

/-- One turn on a call. -/
theorem parsePythonCalls_call (h : CallText call) (hclosed : Closed call) (first : Bool) (n : ℕ)
    (acc : List (ToolCall Arguments)) :
    parsePythonCalls pythonArgs (n + 1) (renderCalls int64Text first (call :: calls)) acc =
      if call.function.name = [] then .error "invalid tool call: empty function name"
      else
        match parsePythonArgs (renderArguments int64Text true call.function.arguments) with
        | .error e => .error e
        | .ok arguments =>
            parsePythonCalls pythonArgs n (renderCalls int64Text false calls)
              (acc ++ [{ function := { name := call.function.name, arguments := arguments } }]) := by
  have hne : renderCalls int64Text true (call :: calls) ≠ [] := by
    obtain ⟨t, ht⟩ := renderCalls_snoc true call calls
    rw [ht]
    exact concat_ne_nil _ _
  have htext : renderCalls int64Text true (call :: calls) = call.function.name ++ '(' ::
      (renderArguments int64Text true call.function.arguments ++ ')' ::
        renderCalls int64Text false calls) := rfl
  rw [parsePythonCalls]
  rw [skipComma_renderCalls h, if_neg hne, htext, parsePythonStyleToolCall_eq h hclosed]
  by_cases hname : call.function.name = []
  · rw [if_pos hname, if_pos hname]
  · rw [if_neg hname, if_neg hname]
    cases parsePythonArgs (renderArguments int64Text true call.function.arguments) <;> rfl

/-- Calls with names and keys are read one after the other, up to what becomes of their values. -/
theorem parsePythonCalls_calls {n : ℕ} (hn : calls.length ≤ n) (first : Bool)
    (acc : List (ToolCall Arguments)) (htext : ∀ call ∈ calls, CallText call)
    (hclosed : ∀ call ∈ calls, Closed call) (hnamed : ∀ call ∈ calls, Named call) :
    ∃ parsed, parsePythonCalls pythonArgs n (renderCalls int64Text first calls) acc =
        .ok (acc ++ parsed) ∧
      (parsed.map parsedJSON = calls.map callJSON ↔
        ∀ call ∈ calls, ∀ f ∈ call.function.arguments, Survives f.2) := by
  induction calls generalizing n first acc with
  | nil =>
    refine ⟨[], ?_, fun _ call hcall => (not_mem_nil hcall).elim, fun _ => rfl⟩
    rw [append_nil]
    cases n <;> rfl
  | cons call calls ih =>
    obtain ⟨n, rfl⟩ := Nat.exists_eq_succ_of_ne_zero (Nat.ne_of_gt (Nat.lt_of_lt_of_le
      (Nat.succ_pos calls.length) hn))
    have h := htext call mem_cons_self
    obtain ⟨hname, hkeys⟩ := hnamed call mem_cons_self
    obtain ⟨xs, hxs, hvalues⟩ := parsePythonArgs_eq h hkeys
    obtain ⟨parsed, hparsed, hcalls⟩ := ih (Nat.le_of_succ_le_succ hn) false
      (acc ++ [{ function := { name := call.function.name, arguments := xs } }])
      (fun call hcall => htext call (mem_cons_of_mem _ hcall))
      (fun call hcall => hclosed call (mem_cons_of_mem _ hcall))
      (fun call hcall => hnamed call (mem_cons_of_mem _ hcall))
    refine ⟨{ function := { name := call.function.name, arguments := xs } } :: parsed, ?_, ?_⟩
    · rw [parsePythonCalls_call h (hclosed call mem_cons_self), if_neg hname, hxs]
      dsimp only
      rw [hparsed, append_assoc]
      rfl
    · rw [map_cons, map_cons, List.cons.injEq, hcalls, forall_mem_cons, parsedJSON,
        callJSON, Prod.mk.injEq, hvalues, eq_self_iff_true, true_and]

theorem parsePythonCalls_error {n : ℕ} (hn : calls.length ≤ n) (first : Bool)
    (acc : List (ToolCall Arguments)) (htext : ∀ call ∈ calls, CallText call)
    (hclosed : ∀ call ∈ calls, Closed call) (hnamed : ¬∀ call ∈ calls, Named call) :
    ∃ e, parsePythonCalls pythonArgs n (renderCalls int64Text first calls) acc = .error e := by
  induction calls generalizing n first acc with
  | nil => exact absurd (fun call hcall => (not_mem_nil hcall).elim) hnamed
  | cons call calls ih =>
    obtain ⟨n, rfl⟩ := Nat.exists_eq_succ_of_ne_zero (Nat.ne_of_gt (Nat.lt_of_lt_of_le
      (Nat.succ_pos calls.length) hn))
    have h := htext call mem_cons_self
    rw [parsePythonCalls_call h (hclosed call mem_cons_self)]
    by_cases hname : call.function.name = []
    · exact ⟨_, if_pos hname⟩
    rw [if_neg hname]
    by_cases hkeys : ∀ f ∈ call.function.arguments, f.1 ≠ []
    · obtain ⟨xs, hxs, -⟩ := parsePythonArgs_eq h hkeys
      have hrest : ¬∀ call ∈ calls, Named call := fun hall =>
        hnamed (forall_mem_cons.mpr ⟨⟨hname, hkeys⟩, hall⟩)
      rw [hxs]
      exact ih (Nat.le_of_succ_le_succ hn) false _
        (fun call hcall => htext call (mem_cons_of_mem _ hcall))
        (fun call hcall => hclosed call (mem_cons_of_mem _ hcall)) hrest
    · have hempty : ∃ f ∈ call.function.arguments, f.1 = [] := by
        by_contra hnone
        exact hkeys fun f hf hnil => hnone ⟨f, hf, hnil⟩
      obtain ⟨e, he⟩ := parsePythonArgsFrom_error
        ((length_le_render true _).trans (Nat.le_succ _)) [] h.keys h.sorted.2 hempty
      refine ⟨e, ?_⟩
      rw [parsePythonArgs, he]

end Calls

/-! ## §5  What survives -/

def stripTags (s : Text) : Text := trimSuffix (trimPrefix s lfm2ToolCallStartTag) lfm2ToolCallEndTag

/-- The calls that were rendered are parsed, with the same names and arguments. -/
def RoundTrips (calls : List Call) : Prop :=
  ∃ parsed, parseToolCallsContent pythonArgs (stripTags (lfm2RenderToolCalls int64Text calls)) =
      .ok parsed ∧
    parsed.map parsedJSON = calls.map callJSON

theorem stripTags_render (calls : List Call) : stripTags (lfm2RenderToolCalls int64Text calls) =
      '[' :: (renderCalls int64Text true calls ++ [']']) := by
  have hprefix : trimPrefix (lfm2RenderToolCalls int64Text calls) lfm2ToolCallStartTag =
      '[' :: (renderCalls int64Text true calls ++ ']' :: lfm2ToolCallEndTag) := by
    rw [lfm2RenderToolCalls, trimPrefix, if_pos (prefix_append _ _), drop_left]
  have hsplit : '[' :: (renderCalls int64Text true calls ++ ']' :: lfm2ToolCallEndTag) =
      '[' :: (renderCalls int64Text true calls ++ [']']) ++ lfm2ToolCallEndTag := by
    rw [cons_append, append_assoc, singleton_append]
  rw [stripTags, hprefix, hsplit, trimSuffix, if_pos (suffix_append _ _),
    length_append, Nat.add_sub_cancel, take_left]

/-- The brackets around the calls are stripped; no tag is found. -/
theorem parseToolCallsContent_brackets (args : PythonArgs α) (s : Text) :
    parseToolCallsContent args ('[' :: (s ++ [']'])) =
      match parsePythonCalls args (s.length + 1) s [] with
      | .error e => .error e
      | .ok toolCalls => if toolCalls = [] then .error "no tool calls found" else .ok toolCalls := by
  have htrim : trimSpace ('[' :: (s ++ [']'])) = '[' :: (s ++ [']']) :=
    trimSpace_eq (fun r hr => by
      obtain rfl : '[' = r := Option.some.inj hr
      decide) fun r hr => by
        rw [← cons_append, getLast?_concat] at hr
        obtain rfl : ']' = r := Option.some.inj hr
        decide
  have hstart : trimPrefix ('[' :: (s ++ [']'])) lfm2ToolCallStartTag = '[' :: (s ++ [']']) := by
    refine if_neg fun h => ?_
    exact absurd (cons_prefix_cons.mp h).1 (by decide)
  have hend : trimSuffix ('[' :: (s ++ [']'])) lfm2ToolCallEndTag = '[' :: (s ++ [']']) := by
    refine if_neg fun h => ?_
    obtain ⟨t, ht⟩ := h
    have hlast := congrArg List.getLast? ht
    rw [← cons_append, getLast?_concat, getLast?_append_of_ne_nil _ (by decide)] at hlast
    exact absurd (Option.some.inj hlast) (by decide)
  have hstrip : stripBrackets ('[' :: (s ++ [']'])) = s := by
    have hsuffix : [']'] <:+ '[' :: (s ++ [']']) := by
      rw [← cons_append]
      exact suffix_append _ _
    rw [stripBrackets, if_pos ⟨⟨_, rfl⟩, hsuffix⟩, ← cons_append, length_append,
      length_singleton, Nat.add_sub_cancel, take_left, drop_one, tail_cons]
  unfold parseToolCallsContent parsePythonStyleToolCalls
  dsimp only
  rw [htrim, hstart, htrim, hend, htrim, htrim]
  generalize stripBrackets ('[' :: (s ++ [']'])) = content at hstrip ⊢
  subst hstrip
  rfl

/-- When the calls close where they end, exactly the values that survive decide. -/
theorem roundTrips_closed {calls : List Call} (hne : calls ≠ [])
    (htext : ∀ call ∈ calls, CallText call) (hclosed : ∀ call ∈ calls, Closed call) :
    RoundTrips calls ↔ ∀ call ∈ calls, Named call ∧ ∀ f ∈ call.function.arguments, Survives f.2 := by
  have hlength : calls.length ≤ (renderCalls int64Text true calls).length + 1 :=
    (length_le_renderCalls true calls).trans (Nat.le_succ _)
  unfold RoundTrips
  rw [stripTags_render, parseToolCallsContent_brackets]
  by_cases hnamed : ∀ call ∈ calls, Named call
  · obtain ⟨parsed, hparsed, hvalues⟩ := parsePythonCalls_calls hlength true [] htext hclosed hnamed
    have hsome : parsed.map parsedJSON = calls.map callJSON → parsed ≠ [] := by
      rintro h rfl
      exact hne (map_eq_nil_iff.mp h.symm)
    rw [hparsed, nil_append]
    dsimp only
    constructor
    · rintro ⟨parsed', h, hequal⟩
      split at h
      · cases h
      · obtain rfl := Except.ok.inj h
        exact fun call hcall => ⟨hnamed call hcall, hvalues.mp hequal call hcall⟩
    · intro h
      have hequal := hvalues.mpr fun call hcall => (h call hcall).2
      exact ⟨parsed, if_neg (hsome hequal), hequal⟩
  · obtain ⟨e, he⟩ := parsePythonCalls_error hlength true [] htext hclosed hnamed
    rw [he]
    constructor
    · rintro ⟨parsed, h, -⟩
      cases h
    · exact fun h => absurd (fun call hcall => (h call hcall).1) hnamed

/-- Calls come back that have names and keys, close where they end, and have values that
survive. -/
theorem roundTrips_survivors {calls : List Call} (hne : calls ≠ [])
    (htext : ∀ call ∈ calls, CallText call) (hclosed : ∀ call ∈ calls, Closed call)
    (hnamed : ∀ call ∈ calls, Named call)
    (hsurvives : ∀ call ∈ calls, ∀ f ∈ call.function.arguments, Survives f.2) :
    RoundTrips calls :=
  (roundTrips_closed hne htext hclosed).mpr fun call hcall =>
    ⟨hnamed call hcall, hsurvives call hcall⟩

/-- `get_weather(city="Paris",tags=["a), b", null])` -/
def getWeather : Call :=
  { function :=
      { name := "get_weather".toList
        arguments :=
          [("city".toList, .string "Paris".toList),
            ("tags".toList, .array [.string "a), b".toList, .null])] } }

theorem getWeather_text : CallText getWeather := by
  refine ⟨by decide, by decide, by decide, by decide, ?_, ?_, ?_⟩
  · exact forall_mem_cons.mpr ⟨⟨by decide, by decide, by decide⟩,
      forall_mem_singleton.mpr ⟨by decide, by decide, by decide⟩⟩
  · exact pairwise_pair.mpr (by decide)
  · exact ⟨trivial, ⟨trivial, trivial, trivial⟩, trivial⟩

theorem roundTrips_survivors_getWeather : RoundTrips [getWeather] := by
  have hcity : "Paris".toList.all (fun c => Json.escape c = [c]) = true := by decide
  have hplain : ∀ c ∈ "Paris".toList, Json.escape c = [c] := fun c hc =>
    of_decide_eq_true (all_eq_true.mp hcity c hc)
  have hsurvives : ∀ f ∈ getWeather.function.arguments, Survives f.2 :=
    forall_mem_cons.mpr ⟨hplain, forall_mem_singleton.mpr
      ⟨by decide, fun n hn => (not_mem_nil hn).elim⟩⟩
  exact roundTrips_survivors (cons_ne_nil _ _) (forall_mem_singleton.mpr getWeather_text)
    (forall_mem_singleton.mpr (balanced_render (by decide) true))
    (forall_mem_singleton.mpr ⟨by decide, by decide⟩)
    (forall_mem_singleton.mpr hsurvives)

/-- `say(text="a\"b")`: the backslash comes back as a part of the string. -/
def sayQuote : Call :=
  { function :=
      { name := "say".toList
        arguments := [("text".toList, .string "a\"b".toList)] } }

/-- A call whose one key is empty, which the parser refuses. -/
def sayNothing : Call :=
  { function :=
      { name := "say".toList
        arguments := [([], .null)] } }

theorem not_roundTrips_say : (CallText sayQuote ∧ ¬RoundTrips [sayQuote]) ∧
    CallText sayNothing ∧ ¬RoundTrips [sayNothing] := by
  have hquote : CallText sayQuote := by
    refine ⟨by decide, by decide, by decide, by decide, ?_, ?_, ?_⟩
    · exact forall_mem_singleton.mpr ⟨by decide, by decide, by decide⟩
    · exact pairwise_singleton _ _
    · exact ⟨trivial, trivial⟩
  have hnothing : CallText sayNothing := by
    refine ⟨by decide, by decide, by decide, by decide, ?_, ?_, ?_⟩
    · exact forall_mem_singleton.mpr ⟨by decide, by decide, by decide⟩
    · exact pairwise_singleton _ _
    · exact ⟨trivial, trivial⟩
  have hback : ∀ {call : Call}, CallText call → Closed call → RoundTrips [call] →
      Named call ∧ ∀ f ∈ call.function.arguments, Survives f.2 := fun htext hclosed hround =>
    (roundTrips_closed (cons_ne_nil _ _) (forall_mem_singleton.mpr htext)
      (forall_mem_singleton.mpr hclosed)).mp hround _ mem_cons_self
  refine ⟨⟨hquote, fun hround => ?_⟩, hnothing, fun hround => ?_⟩
  · have hsurvives := (hback hquote (balanced_render (by decide) true) hround).2 _ mem_cons_self
    exact absurd (hsurvives '"' (by decide)) (by decide)
  · have hnamed := (hback hnothing (balanced_render (by decide) true) hround).1
    exact hnamed.2 _ mem_cons_self rfl

end Ollama.Renderers
