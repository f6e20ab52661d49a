import Ollama.Parser.Modelfile

/-!
# Modelfiles survive print then parse
-/

namespace Ollama.Parser

open Lib List Scan
open Parsers (Text trimSpace trimLeft trimRight trimRight_append trimSpace_eq)

variable {s t v w : Text}

/-! ## §1  Trimming and quotes -/

/-- Text after a quote is trimmed on the right only. -/
theorem trimSpace_quote (hw : w.head? = some '"') (hlast : w.getLast? = some '"') (t : Text) :
    trimSpace (w ++ t) = w ++ trimRight t := by
  have hleft : trimLeft (w ++ t) = w ++ t := by
    obtain ⟨w, rfl⟩ : ∃ w', w = '"' :: w' := by
      cases w with
      | nil => cases hw
      | cons r w =>
        cases hw
        exact ⟨w, rfl⟩
    exact dropWhile_cons_of_neg (by decide)
  show trimRight (trimLeft (w ++ t)) = _
  rw [hleft]
  refine trimRight_append (fun r hr => ?_) t
  rw [hlast] at hr
  cases hr
  decide

theorem unquote_bare (h : s.head? ≠ some '"') : unquote s = (s, true) := by
  have htriple : ¬(3 ≤ s.length ∧ s.take 3 = tripleQuote) := by
    rintro ⟨hlen, htake⟩
    cases s with
    | nil => cases htake
    | cons r s =>
      injection htake with hr
      exact h (congrArg some hr)
  unfold unquote
  rw [if_neg htriple, if_neg fun hs => h hs.2]

theorem not_triple {a : Text} (ha : a.head? ≠ some '"') :
    ¬(3 ≤ ('"' :: a).length ∧ ('"' :: a).take 3 = tripleQuote) := by
  rintro ⟨-, htake⟩
  cases a with
  | nil => cases htake
  | cons r a =>
    injection htake with _ htake
    injection htake with hr
    exact ha (congrArg some hr)

/-- A single quote is closed by the next one. -/
theorem unquote_single (ha : '"' ∉ s) (hne : s ≠ []) :
    unquote ('"' :: (s ++ ['"'])) = (s, true) ∧ (unquote ('"' :: s)).2 = false := by
  have hhead : ∀ t, (s ++ t).head? ≠ some '"' := by
    intro t
    obtain ⟨r, s, rfl⟩ := exists_cons_of_ne_nil hne
    intro heq
    cases heq
    exact ha mem_cons_self
  have hclosed : ('"' :: (s ++ ['"'])).getLast? = some '"' := by
    rw [← cons_append, getLast?_concat]
  constructor
  · unfold unquote
    rw [if_neg (not_triple (hhead _)), if_pos ⟨by simp, rfl⟩, if_pos ⟨by simp, hclosed⟩]
    simp
  have hnil : s = s ++ [] := (append_nil s).symm
  have hlast : ¬(2 ≤ ('"' :: s).length ∧ ('"' :: s).getLast? = some '"') := by
    rintro ⟨-, hlast⟩
    rw [getLast?_cons_of_ne_nil hne] at hlast
    exact ha (mem_of_getLast? hlast)
  unfold unquote
  rw [if_neg (not_triple (by rw [hnil]; exact hhead [])), if_pos ⟨by simp, rfl⟩, if_neg hlast]

/-- Three quotes are closed by the next three. -/
theorem unquote_triple (ha : ¬tripleQuote <:+: s) :
    unquote (tripleQuote ++ (s ++ tripleQuote)) = (s, true) ∧
      (unquote (tripleQuote ++ s)).2 = false := by
  have hopen : ∀ t : Text, 3 ≤ (tripleQuote ++ t).length ∧ (tripleQuote ++ t).take 3 = tripleQuote :=
    fun t => ⟨by simp [tripleQuote], rfl⟩
  have hlen : (tripleQuote ++ (s ++ tripleQuote)).length = s.length + 6 := by
    simp [tripleQuote]
  constructor
  · have hclosed : (tripleQuote ++ (s ++ tripleQuote)).drop (s.length + 6 - 3) = tripleQuote := by
      have hsplit : tripleQuote ++ (s ++ tripleQuote) = (tripleQuote ++ s) ++ tripleQuote := by
        rw [append_assoc]
      rw [hsplit]
      exact drop_left' (by simp [tripleQuote])
    unfold unquote
    rw [if_pos (hopen _), hlen, if_pos ⟨Nat.le_add_left 6 _, hclosed⟩]
    have hdrop : (tripleQuote ++ (s ++ tripleQuote)).drop 3 = s ++ tripleQuote := rfl
    rw [hdrop, Nat.add_sub_cancel, take_left]
  · have hlen : (tripleQuote ++ s).length = s.length + 3 := by
      simp [tripleQuote]
    have hopen' : ¬(6 ≤ (tripleQuote ++ s).length ∧
        (tripleQuote ++ s).drop ((tripleQuote ++ s).length - 3) = tripleQuote) := by
      rintro ⟨hsix, hdrop⟩
      rw [hlen] at hsix hdrop
      obtain ⟨k, hk⟩ : ∃ k, s.length = k + 3 := ⟨s.length - 3, by omega⟩
      rw [hk, Nat.add_sub_cancel] at hdrop
      have hdrop : s.drop k = tripleQuote := hdrop
      refine ha ⟨s.take k, [], ?_⟩
      rw [append_nil, ← hdrop, take_append_drop]
    unfold unquote
    rw [if_pos (hopen s), if_neg hopen']

/-! ## §2  Values -/

/-- What `strconv.IsPrint` says of ASCII and of white space. -/
structure Prints (IsPrint : Char → Bool) : Prop where
  ascii : ∀ c : Char, c.toNat < 0x80 → IsPrint c = (0x20 ≤ c.toNat && c.toNat < 0x7f)
  space : ∀ c, Parsers.isSpace c = true → IsPrint c = true → c = ' '

variable {IsPrint : Char → Bool}

def Taken (IsPrint : Char → Bool) (r : Char) : Prop :=
  r = '\n' ∨ isSpace r = true ∨ IsPrint r = true ∧ isNewline r = false

/-- The text `v` of a value is read as `s`: its runes are taken, and quotes are open at its
newlines. -/
structure Reads (IsPrint : Char → Bool) (v s : Text) : Prop where
  taken : ∀ r ∈ v, Taken IsPrint r
  inside : ∀ p t, v = p ++ '\n' :: t → (unquote (trimSpace p)).2 = false
  read : unquote (trimSpace v) = (s, true)

/-- A value that is printed without quotes: one line that does not begin with a quote, and neither
begins nor ends with a blank. -/
structure Bare (s : Text) : Prop where
  newline : '\n' ∉ s
  quote : s.head? ≠ some '"'
  head : ∀ r, s.head? = some r → isSpace r = false
  last : ∀ r, s.getLast? = some r → isSpace r = false

variable {r : Char}

theorem space_of_taken (hprint : Prints IsPrint) (h : Taken IsPrint r)
    (hnewline : r ≠ '\n') (hblank : isSpace r = false) : Parsers.isSpace r = false := by
  rcases h with h | h | ⟨h, -⟩
  · exact absurd h hnewline
  · rw [h] at hblank
    cases hblank
  · rw [← Bool.not_eq_true]
    intro hspace
    rw [hprint.space r hspace h] at hblank
    cases hblank

theorem Bare.reads (hprint : Prints IsPrint) (h : Bare s) (htaken : ∀ r ∈ s, Taken IsPrint r) :
    Reads IsPrint s s := by
  refine ⟨htaken, ?_, ?_⟩
  · rintro p t rfl
    exact absurd (mem_append_right _ mem_cons_self) h.newline
  · have hvisible : ∀ r ∈ s, isSpace r = false → Parsers.isSpace r = false := fun r hr hblank =>
      space_of_taken hprint (htaken r hr) (fun heq => h.newline (by rwa [← heq])) hblank
    rw [trimSpace_eq (fun r hr => hvisible r (mem_of_head? hr) (h.head r hr))
      fun r hr => hvisible r (mem_of_getLast? hr) (h.last r hr)]
    exact unquote_bare h.quote

theorem taken_quote (hprint : Prints IsPrint) : Taken IsPrint '"' :=
  Or.inr (Or.inr ⟨hprint.ascii '"' (by decide), by decide⟩)

/-- A newline in quoted text is in the text. -/
theorem inside_quotes {w' p : Text} (hw : '\n' ∉ w) (hw' : '\n' ∉ w')
    (h : w ++ (s ++ w') = p ++ '\n' :: t) : ∃ p', p = w ++ p' ∧ p' <+: s := by
  rcases append_eq_append_iff.mp h with ⟨p', rfl, hrest⟩ | ⟨c, rfl, hrest⟩
  · refine ⟨p', rfl, ?_⟩
    rcases append_eq_append_iff.mp hrest with ⟨c, rfl, hc⟩ | ⟨c, rfl, -⟩
    · refine absurd ?_ hw'
      rw [hc]
      exact mem_append_right _ mem_cons_self
    · exact prefix_append _ _
  · cases c with
    | nil =>
      refine ⟨[], by simp, List.nil_prefix⟩
    | cons r c =>
      injection hrest with hr _
      refine absurd ?_ hw
      rw [← hr]
      exact mem_append_right _ mem_cons_self

theorem taken_quotes (hprint : Prints IsPrint) {w' : Text} (hw : ∀ r ∈ w, r = '"')
    (hw' : ∀ r ∈ w', r = '"') (htaken : ∀ r ∈ s, Taken IsPrint r) :
    ∀ r ∈ w ++ (s ++ w'), Taken IsPrint r := by
  intro r hr
  rcases mem_append.mp hr with hr | hr
  · rw [hw r hr]
    exact taken_quote hprint
  · rcases mem_append.mp hr with hr | hr
    · exact htaken r hr
    · rw [hw' r hr]
      exact taken_quote hprint

theorem trimRight_isPrefix_of (s : Text) : trimRight s <+: s := by
  obtain ⟨w, -, hs⟩ := Parsers.trimRight_spec s
  exact ⟨w, hs.symm⟩

theorem trimSpace_quotes {w' : Text} (hw : w.head? = some '"') (hw' : w'.getLast? = some '"') :
    trimSpace (w ++ (s ++ w')) = w ++ (s ++ w') := by
  refine trimSpace_eq ?_ ?_
  · intro r hr
    rw [head?_append, hw] at hr
    cases hr
    decide
  · intro r hr
    rw [getLast?_append, getLast?_append, hw'] at hr
    cases hr
    decide

theorem reads_single (hprint : Prints IsPrint) (hquote : '"' ∉ s) (hne : s ≠ [])
    (htaken : ∀ r ∈ s, Taken IsPrint r) : Reads IsPrint ('"' :: (s ++ ['"'])) s := by
  have hmem : ∀ r ∈ ['"'], r = '"' := fun r hr => mem_singleton.mp hr
  refine ⟨taken_quotes (w := ['"']) hprint hmem hmem htaken, ?_, ?_⟩
  · intro p t hp
    obtain ⟨p', rfl, hprefix⟩ := inside_quotes (w := ['"']) (by decide) (by decide) hp
    rw [trimSpace_quote rfl rfl]
    by_cases hempty : trimRight p' = []
    · rw [hempty]
      rfl
    · exact (unquote_single
        (fun hmem => hquote (((trimRight_isPrefix_of p').trans hprefix).subset hmem)) hempty).2
  · have htrim : trimSpace ('"' :: (s ++ ['"'])) = '"' :: (s ++ ['"']) :=
      trimSpace_quotes (w := ['"']) rfl rfl
    rw [htrim]
    exact (unquote_single hquote hne).1

theorem reads_triple (hprint : Prints IsPrint) (hquote : ¬tripleQuote <:+: s)
    (htaken : ∀ r ∈ s, Taken IsPrint r) : Reads IsPrint (tripleQuote ++ (s ++ tripleQuote)) s := by
  have hmem : ∀ r ∈ tripleQuote, r = '"' := by
    intro r hr
    simpa [tripleQuote] using hr
  refine ⟨taken_quotes hprint hmem hmem htaken, ?_, ?_⟩
  · intro p t hp
    obtain ⟨p', rfl, hprefix⟩ := inside_quotes (by decide) (by decide) hp
    rw [trimSpace_quote rfl rfl]
    exact (unquote_triple fun hin =>
      hquote (hin.trans ((trimRight_isPrefix_of p').trans hprefix).isInfix)).2
  · rw [trimSpace_quotes rfl rfl]
    exact (unquote_triple hquote).1

structure Value (IsPrint : Char → Bool) (quoted : Bool) (s : Text) : Prop where
  taken : ∀ r ∈ s, Taken IsPrint r
  bare : quoted = false ∨ needsQuotes s = false → Bare s

theorem Value.reads_quote (hprint : Prints IsPrint) (h : Value IsPrint true s)
    (hquote : ¬tripleQuote <:+: s) : Reads IsPrint (quote s) s := by
  unfold quote
  split
  · next hneeds =>
    split
    · exact reads_triple hprint hquote h.taken
    · next hany =>
      refine reads_single hprint (fun hmem => hany (any_eq_true.mpr ⟨'"', hmem, rfl⟩)) ?_ h.taken
      rintro rfl
      cases hneeds
  · next hneeds => exact (h.bare (Or.inr ((Bool.not_eq_true _).mp hneeds))).reads hprint h.taken

theorem Value.reads (hprint : Prints IsPrint) (h : Value IsPrint false s) : Reads IsPrint s s :=
  (h.bare (Or.inl rfl)).reads hprint h.taken

/-! ## §3  Runes -/

theorem feed_append {p p' : Scan} (h : p.feed IsPrint s = .ok p') (t : Text) :
    p.feed IsPrint (s ++ t) = p'.feed IsPrint t := by
  induction s generalizing p with
  | nil =>
    cases h
    rfl
  | cons r s ih =>
    rw [Scan.feed] at h
    rw [cons_append, Scan.feed]
    cases hstep : p.step IsPrint r with
    | error e =>
      rw [hstep] at h
      cases h
    | ok q =>
      rw [hstep] at h
      exact ih h

theorem feed_one {p p' : Scan} (h : p.step IsPrint r = .ok p') : p.feed IsPrint [r] = .ok p' := by
  rw [Scan.feed, h]
  rfl

def Stays (IsPrint : Char → Bool) (curr : State) (r : Char) : Prop :=
  isNewline r = false ∧ IsPrint r = true ∧ parseRuneForState r curr = .ok (curr, r)

variable {p : Scan}

theorem step_stays (h : Stays IsPrint p.curr r) :
    p.step IsPrint r = .ok { p with b := p.b ++ [r] } := by
  obtain ⟨hnewline, hprint, hnext⟩ := h
  unfold step
  rw [hnewline]
  simp only [Bool.false_eq_true, if_false]
  rw [hnext]
  simp only [if_true]
  unfold write
  rw [if_pos hprint]

theorem feed_word (hw : ∀ r ∈ w, Stays IsPrint p.curr r) :
    p.feed IsPrint w = .ok { p with b := p.b ++ w } := by
  induction w generalizing p with
  | nil => rw [append_nil]; rfl
  | cons r w ih =>
    obtain ⟨hr, hw⟩ := forall_mem_cons.mp hw
    rw [Scan.feed, step_stays hr]
    simp only
    rw [ih (p := { p with b := p.b ++ [r] }) hw, append_assoc]
    rfl

theorem step_blank (hcurr : p.curr = .stateValue) (hblank : isSpace r = true) :
    p.step IsPrint r = .ok { p with b := p.b ++ [r] } := by
  have hr : r = ' ' ∨ r = '\t' := by simpa [isSpace] using hblank
  have hnewline : isNewline r = false := by rcases hr with rfl | rfl <;> rfl
  have hnext : parseRuneForState r State.stateValue = .ok (.stateNil, r) := by
    rcases hr with rfl | rfl <;> rfl
  unfold step
  simp only [hnewline, Bool.false_eq_true, if_false, hcurr, hnext, reduceCtorEq, hblank,
    Bool.or_true, if_true]

/-- A rune of a value is read into the buffer: at a newline quotes are open. -/
theorem step_value (hcurr : p.curr = .stateValue) (htaken : Taken IsPrint r)
    (hinside : r = '\n' → (unquote (trimSpace p.b)).2 = false) :
    ∃ line, p.step IsPrint r = .ok { p with b := p.b ++ [r], currLine := line } := by
  rcases htaken with rfl | hblank | ⟨hprint, hnewline⟩
  · refine ⟨p.currLine + 1, ?_⟩
    have hnext : parseRuneForState '\n' State.stateValue = .ok (.stateNil, '\n') := rfl
    unfold step
    simp only [show isNewline '\n' = true from rfl, if_true, hcurr, hnext, reduceCtorEq, if_false,
      hinside rfl, Bool.not_false, Bool.true_or]
  · exact ⟨p.currLine, step_blank hcurr hblank⟩
  refine ⟨p.currLine, ?_⟩
  cases hblank : isSpace r with
  | true => exact step_blank hcurr hblank
  | false =>
    refine step_stays ⟨hnewline, hprint, ?_⟩
    rw [hcurr]
    unfold parseRuneForState
    rw [hnewline, hblank]
    rfl

theorem feed_value (hcurr : p.curr = .stateValue) (htaken : ∀ r ∈ v, Taken IsPrint r)
    (hinside : ∀ q t, v = q ++ '\n' :: t → (unquote (trimSpace (p.b ++ q))).2 = false) :
    ∃ line, p.feed IsPrint v = .ok { p with b := p.b ++ v, currLine := line } := by
  induction v generalizing p with
  | nil =>
    refine ⟨p.currLine, ?_⟩
    rw [append_nil]
    rfl
  | cons r v ih =>
    obtain ⟨hr, hv⟩ := forall_mem_cons.mp htaken
    have hopen : r = '\n' → (unquote (trimSpace p.b)).2 = false := by
      rintro rfl
      have h := hinside [] v rfl
      rwa [append_nil] at h
    obtain ⟨line, hstep⟩ := step_value hcurr hr hopen
    have hrest : ∀ q t, v = q ++ '\n' :: t → (unquote (trimSpace (p.b ++ [r] ++ q))).2 = false := by
      rintro q t rfl
      rw [append_assoc]
      exact hinside (r :: q) t rfl
    obtain ⟨line', hfeed⟩ := ih (p := { p with b := p.b ++ [r], currLine := line }) hcurr hv hrest
    refine ⟨line', ?_⟩
    rw [Scan.feed, hstep]
    simp only
    rw [hfeed, append_assoc]
    rfl

/-- The newline after a value. -/
theorem step_end (hprint : Prints IsPrint) (hcurr : p.curr = .stateValue)
    (hread : unquote (trimSpace p.b) = (s, true)) :
    p.step IsPrint '\n' = .ok ⟨p.name, .stateNil, p.currLine + 1, [], [],
      p.cmds ++ [⟨p.name, p.args s⟩]⟩ := by
  have hnext : parseRuneForState '\n' State.stateValue = .ok (.stateNil, '\n') := rfl
  have hdropped : IsPrint '\n' = false := hprint.ascii '\n' (by decide)
  unfold step
  simp only [show isNewline '\n' = true from rfl, if_true, hcurr, hnext, reduceCtorEq, if_false,
    hread, Bool.not_true, Bool.false_or, show isSpace '\n' = false from rfl, Bool.false_eq_true]
  unfold enter write
  rw [hdropped]
  rfl

/-- A value, and the newline after it. -/
theorem feed_read (hprint : Prints IsPrint) (hv : Reads IsPrint v s)
    (hcurr : p.curr = .stateValue) (hb : p.b = []) :
    ∃ line, p.feed IsPrint (v ++ ['\n']) = .ok ⟨p.name, .stateNil, line, [], [],
      p.cmds ++ [⟨p.name, p.args s⟩]⟩ := by
  obtain ⟨line, hfeed⟩ := feed_value hcurr hv.taken (by
    rw [hb]
    exact hv.inside)
  refine ⟨line + 1, ?_⟩
  rw [feed_append hfeed]
  refine feed_one (step_end (p := { p with b := p.b ++ v, currLine := line }) hprint hcurr ?_)
  rw [hb]
  exact hv.read

/-! ## §4  Commands -/

def isNameRune (r : Char) : Bool := isAlpha r || isNumber r || r == '_'

theorem nameRune_range (h : isNameRune r = true) : 0x30 ≤ r.toNat ∧ r.toNat ≤ 0x7a := by
  unfold isNameRune isAlpha isNumber at h
  simp only [Bool.or_eq_true, Bool.and_eq_true, decide_eq_true_eq, beq_iff_eq, Char.le_def,
    UInt32.le_iff_toNat_le] at h
  rcases h with ((⟨hlo, hhi⟩ | ⟨hlo, hhi⟩) | ⟨hlo, hhi⟩) | rfl
  · exact ⟨Nat.le_trans (by decide) hlo, hhi⟩
  · exact ⟨Nat.le_trans (by decide) hlo, Nat.le_trans hhi (by decide)⟩
  · exact ⟨hlo, Nat.le_trans hhi (by decide)⟩
  · decide

theorem nameRune_plain (hprint : Prints IsPrint) (h : isNameRune r = true) :
    isNewline r = false ∧ IsPrint r = true := by
  obtain ⟨hlo, hhi⟩ := nameRune_range h
  constructor
  · rw [← Bool.not_eq_true]
    intro hnewline
    have hr : r = '\r' ∨ r = '\n' := by simpa [isNewline] using hnewline
    rcases hr with rfl | rfl
    · exact absurd hlo (by decide)
    · exact absurd hlo (by decide)
  · rw [hprint.ascii r (by omega), Bool.and_eq_true, decide_eq_true_eq, decide_eq_true_eq]
    omega

theorem alpha_name (h : isAlpha r = true) : isNameRune r = true := by
  unfold isNameRune
  rw [h]
  rfl

theorem stays_name (hprint : Prints IsPrint) (h : isAlpha r = true) :
    Stays IsPrint .stateName r := by
  obtain ⟨hnewline, hp⟩ := nameRune_plain hprint (alpha_name h)
  refine ⟨hnewline, hp, ?_⟩
  unfold parseRuneForState
  rw [h]
  rfl

theorem stays_message (hprint : Prints IsPrint) (h : isAlpha r = true) :
    Stays IsPrint .stateMessage r := by
  obtain ⟨hnewline, hp⟩ := nameRune_plain hprint (alpha_name h)
  refine ⟨hnewline, hp, ?_⟩
  unfold parseRuneForState
  rw [h]
  rfl

theorem stays_parameter (hprint : Prints IsPrint) (h : isNameRune r = true) :
    Stays IsPrint .stateParameter r := by
  obtain ⟨hnewline, hp⟩ := nameRune_plain hprint h
  refine ⟨hnewline, hp, ?_⟩
  unfold parseRuneForState
  rw [show (isAlpha r || isNumber r || r == '_') = true from h]
  rfl

/-- The state between commands. -/
def Scan.rest (name : Text) (line : ℕ) (cmds : List Command) : Scan :=
  ⟨name, .stateNil, line, [], [], cmds⟩

variable {name : Text} {line : ℕ} {cmds : List Command}

section

variable (hprint : Prints IsPrint)
include hprint

/-- The first word of a command. -/
theorem feed_name (hne : w ≠ []) (hw : w.all isAlpha = true) :
    (Scan.rest name line cmds).feed IsPrint w = .ok ⟨name, .stateName, line, w, [], cmds⟩ := by
  obtain ⟨r, w, rfl⟩ := exists_cons_of_ne_nil hne
  rw [List.all_cons, Bool.and_eq_true] at hw
  obtain ⟨hr, hw⟩ := hw
  obtain ⟨hnewline, hp⟩ := nameRune_plain hprint (alpha_name hr)
  have hlo := (nameRune_range (alpha_name hr)).1
  have hnext : parseRuneForState r .stateNil = .ok (.stateName, r) := by
    have hhash : r ≠ '#' := by
      rintro rfl
      exact absurd hlo (by decide)
    have hblank : isSpace r = false := by
      rw [← Bool.not_eq_true]
      intro hblank
      have hr : r = ' ' ∨ r = '\t' := by simpa [isSpace] using hblank
      rcases hr with rfl | rfl
      · exact absurd hlo (by decide)
      · exact absurd hlo (by decide)
    unfold parseRuneForState
    rw [if_neg hhash, hblank, hnewline]
    rfl
  have hstep : (rest name line cmds).step IsPrint r =
      .ok ⟨name, .stateName, line, [r], [], cmds⟩ := by
    unfold step rest
    simp only [hnewline, Bool.false_eq_true, if_false, hnext, reduceCtorEq]
    unfold enter write
    rw [if_pos hp]
    rfl
  rw [Scan.feed, hstep]
  exact feed_word fun r hr => stays_name hprint (all_eq_true.mp hw r hr)

/-- The blank after the first word: a value follows, a parameter's name or a role. -/
theorem step_name (hvalid : isValidCommand w = true) :
    (⟨name, .stateName, line, w, [], cmds⟩ : Scan).step IsPrint ' ' =
      .ok (if toLower w = "from".toList then ⟨"model".toList, .stateValue, line, [], [], cmds⟩
        else if toLower w = "parameter".toList then ⟨name, .stateParameter, line, [], [], cmds⟩
        else if toLower w = "message".toList then
          ⟨toLower w, .stateMessage, line, [], [], cmds⟩
        else ⟨toLower w, .stateValue, line, [], [], cmds⟩) := by
  have hnext : parseRuneForState ' ' .stateName = .ok (.stateValue, '\x00') := rfl
  have hdropped : IsPrint '\x00' = false := hprint.ascii '\x00' (by decide)
  unfold step
  simp only [show isNewline ' ' = false from rfl, Bool.false_eq_true, if_false, hnext, reduceCtorEq,
    hvalid, Bool.not_true, enter, write, hdropped]
  split
  · rfl
  split
  · rfl
  split
  · rfl
  · rfl

theorem feed_first (hw : w.all isAlpha = true)
    (hvalid : isValidCommand w = true) (name : Text) (line : ℕ) (cmds : List Command) :
    (rest name line cmds).feed IsPrint (w ++ [' ']) =
      .ok (if toLower w = "from".toList then ⟨"model".toList, .stateValue, line, [], [], cmds⟩
        else if toLower w = "parameter".toList then ⟨name, .stateParameter, line, [], [], cmds⟩
        else if toLower w = "message".toList then
          ⟨toLower w, .stateMessage, line, [], [], cmds⟩
        else ⟨toLower w, .stateValue, line, [], [], cmds⟩) := by
  have hne : w ≠ [] := by
    rintro rfl
    cases hvalid
  rw [feed_append (feed_name hprint hne hw)]
  exact feed_one (step_name hprint hvalid)

theorem step_parameter :
    (⟨name, .stateParameter, line, w, [], cmds⟩ : Scan).step IsPrint ' ' =
      .ok ⟨w, .stateValue, line, [], [], cmds⟩ := by
  have hnext : parseRuneForState ' ' .stateParameter = .ok (.stateValue, '\x00') := rfl
  have hdropped : IsPrint '\x00' = false := hprint.ascii '\x00' (by decide)
  unfold step
  simp only [show isNewline ' ' = false from rfl, Bool.false_eq_true, if_false, hnext, reduceCtorEq,
    enter, write, hdropped]

theorem step_message (hrole : isValidMessageRole w = true) :
    (⟨name, .stateMessage, line, w, [], cmds⟩ : Scan).step IsPrint ' ' =
      .ok ⟨name, .stateValue, line, [], w, cmds⟩ := by
  have hnext : parseRuneForState ' ' .stateMessage = .ok (.stateValue, '\x00') := rfl
  have hdropped : IsPrint '\x00' = false := hprint.ascii '\x00' (by decide)
  unfold step
  simp only [show isNewline ' ' = false from rfl, Bool.false_eq_true, if_false, hnext, reduceCtorEq,
    hrole, Bool.not_true, enter, write, hdropped]

theorem feed_parameter (hw : ∀ r ∈ w, isNameRune r = true)
    (name : Text) (line : ℕ) (cmds : List Command) :
    (rest name line cmds).feed IsPrint ("PARAMETER ".toList ++ (w ++ [' '])) =
      .ok ⟨w, .stateValue, line, [], [], cmds⟩ := by
  have hfirst := feed_first (w := "PARAMETER".toList) hprint (by decide) (by decide) name line cmds
  have hword : (⟨name, .stateParameter, line, [], [], cmds⟩ : Scan).feed IsPrint w =
      .ok ⟨name, .stateParameter, line, w, [], cmds⟩ :=
    feed_word fun r hr => stays_parameter hprint (hw r hr)
  have hsplit : "PARAMETER ".toList ++ (w ++ [' ']) =
      ("PARAMETER".toList ++ [' ']) ++ (w ++ [' ']) := rfl
  rw [hsplit, feed_append hfirst]
  exact (feed_append hword [' ']).trans (feed_one (step_parameter hprint))

end

theorem role_cases (h : isValidMessageRole w = true) :
    w = "system".toList ∨ w = "user".toList ∨ w = "assistant".toList := by
  unfold isValidMessageRole at h
  rw [Bool.or_eq_true, Bool.or_eq_true, beq_iff_eq, beq_iff_eq, beq_iff_eq, or_assoc] at h
  exact h

theorem feed_message (hprint : Prints IsPrint) (hrole : isValidMessageRole w = true) (name : Text)
    (line : ℕ) (cmds : List Command) :
    (rest name line cmds).feed IsPrint ("MESSAGE ".toList ++ (w ++ [' '])) =
      .ok ⟨"message".toList, .stateValue, line, [], w, cmds⟩ := by
  have hfirst := feed_first (w := "MESSAGE".toList) hprint (by decide) (by decide) name line cmds
  have halpha : w.all isAlpha = true := by
    rcases role_cases hrole with rfl | rfl | rfl
    · decide
    · decide
    · decide
  have hword : (⟨"message".toList, .stateMessage, line, [], [], cmds⟩ : Scan).feed IsPrint w =
      .ok ⟨"message".toList, .stateMessage, line, w, [], cmds⟩ :=
    feed_word fun r hr => stays_message hprint (all_eq_true.mp halpha r hr)
  have hsplit : "MESSAGE ".toList ++ (w ++ [' ']) =
      ("MESSAGE".toList ++ [' ']) ++ (w ++ [' ']) := rfl
  rw [hsplit, feed_append hfirst]
  exact (feed_append hword [' ']).trans (feed_one (step_message hprint hrole))

/-- The commands that are printed and parsed back. -/
structure Command.Good (IsPrint : Char → Bool) (c : Command) : Prop where
  name : ∀ r ∈ c.Name, isNameRune r = true
  quotes : ¬tripleQuote <:+: c.Args
  model : c.Name = "model".toList → Value IsPrint false c.Args
  message : c.Name = "message".toList → ∃ role message, isValidMessageRole role = true ∧
    c.Args = role ++ (": ".toList ++ message) ∧ Value IsPrint true message
  other : c.Name ≠ "model".toList → c.Name ≠ "message".toList → Value IsPrint true c.Args

theorem cutRole_eq {role : Text} (hrole : isValidMessageRole role = true) (message : Text) :
    cutRole (role ++ (": ".toList ++ message)) = (role, message) := by
  have hcut : cut (role ++ ": ".toList) ": ".toList = some (role, []) := by
    rcases role_cases hrole with rfl | rfl | rfl
    · decide
    · decide
    · decide
  unfold cutRole
  rw [← append_assoc, cut_append (by decide) hcut message]
  rfl

theorem upper_spec {c : Text} (h : c ∈ upperCommands) : (c.map Char.toUpper).all isAlpha = true ∧
    isValidCommand (c.map Char.toUpper) = true ∧ toLower (c.map Char.toUpper) = c ∧
      c ≠ "from".toList ∧ c ≠ "parameter".toList ∧ c ≠ "message".toList := by
  revert c
  decide

theorem append_value (a b c d : Text) (r : Char) :
    a ++ (b ++ r :: c) ++ d = a ++ (b ++ [r]) ++ (c ++ d) := by
  simp only [append_assoc, cons_append, nil_append]

/-- A command is read back: its first words, then its value. -/
theorem feed_command (hprint : Prints IsPrint) {c : Command} (hc : c.Good IsPrint) (name : Text)
    (line : ℕ) (cmds : List Command) :
    ∃ line', (rest name line cmds).feed IsPrint (c.String ++ ['\n']) =
      .ok (rest c.Name line' (cmds ++ [c])) := by
  have hvalue : ∀ {first value args role : Text}, Reads IsPrint value args →
      (rest name line cmds).feed IsPrint first = .ok ⟨c.Name, .stateValue, line, [], role, cmds⟩ →
      (if role ≠ [] then role ++ (": ".toList ++ args) else args) = c.Args →
      ∃ line', (rest name line cmds).feed IsPrint (first ++ (value ++ ['\n'])) =
        .ok (rest c.Name line' (cmds ++ [c])) := by
    intro first value args role hreads hfirst hargs
    obtain ⟨line', hfeed⟩ := feed_read hprint hreads
      (p := ⟨c.Name, .stateValue, line, [], role, cmds⟩) rfl rfl
    refine ⟨line', ?_⟩
    rw [feed_append hfirst, hfeed]
    have hcommand : (⟨c.Name, if role ≠ [] then role ++ (": ".toList ++ args) else args⟩ : Command) =
        c := by
      rw [hargs]
    exact congrArg (fun c' => Except.ok (rest c.Name line' (cmds ++ [c']))) hcommand
  unfold Command.String
  split
  · next hname =>
    have hfirst := feed_first (w := "FROM".toList) hprint (by decide) (by decide) name line cmds
    rw [← hname] at hfirst
    exact hvalue ((hc.model hname).reads hprint) hfirst rfl
  next hmodel =>
  split
  · next hupper =>
    obtain ⟨halpha, hvalid, hlower, hfrom, hparameter, hmessage⟩ := upper_spec hupper
    have hfirst := feed_first hprint halpha hvalid name line cmds
    rw [hlower, if_neg hfrom, if_neg hparameter, if_neg hmessage] at hfirst
    have hreads := (hc.other hmodel hmessage).reads_quote hprint hc.quotes
    have h := hvalue hreads hfirst rfl
    rwa [append_assoc] at h ⊢
  next hupper =>
  split
  · next hmessage =>
    obtain ⟨role, message, hrole, hargs, hmsg⟩ := hc.message hmessage
    have hquotes : ¬tripleQuote <:+: message := fun h => hc.quotes <| by
      rw [hargs, ← append_assoc]
      exact h.trans (suffix_append _ _).isInfix
    have hne : role ≠ [] := by
      rintro rfl
      cases hrole
    have hfirst := feed_message hprint hrole name line cmds
    rw [← hmessage] at hfirst
    have h := hvalue (hmsg.reads_quote hprint hquotes) hfirst (by rw [if_pos hne, hargs])
    rw [hargs, cutRole_eq hrole, append_value]
    exact h
  · next hmessage =>
    have hfirst := feed_parameter hprint hc.name name line cmds
    have h := hvalue ((hc.other hmodel hmessage).reads_quote hprint hc.quotes) hfirst rfl
    rw [append_value]
    exact h

/-! ## §5  Files -/

theorem feed_print (hprint : Prints IsPrint) (cmds : List Command)
    (hgood : ∀ c ∈ cmds, c.Good IsPrint) (name : Text) (line : ℕ) (done : List Command) :
    ∃ name' line', (rest name line done).feed IsPrint (print cmds) =
      .ok (rest name' line' (done ++ cmds)) := by
  induction cmds generalizing name line done with
  | nil => exact ⟨name, line, by rw [append_nil]; rfl⟩
  | cons c cmds ih =>
    obtain ⟨hc, hcmds⟩ := forall_mem_cons.mp hgood
    obtain ⟨line', hfeed⟩ := feed_command hprint hc name line done
    obtain ⟨name'', line'', hrest⟩ := ih hcmds c.Name line' (done ++ [c])
    refine ⟨name'', line'', ?_⟩
    show feed IsPrint _ ((c.String ++ ['\n']) ++ print cmds) = _
    rw [feed_append hfeed, hrest, append_assoc]
    rfl

/-- A command begins with a letter, not with a byte order mark. -/
theorem dropBOM_print (cmds : List Command) : dropBOM (print cmds) = print cmds := by
  cases cmds with
  | nil => rfl
  | cons c cmds =>
    have hfirst : ∃ r s, c.String = r :: s ∧ r ≠ '\uFEFF' := by
      unfold Command.String
      split
      · exact ⟨'F', _, rfl, by decide⟩
      split
      · next hupper =>
        obtain ⟨halpha, hvalid, -⟩ := upper_spec hupper
        generalize c.Name.map Char.toUpper = word at halpha hvalid
        cases word with
        | nil => cases hvalid
        | cons r word =>
          refine ⟨r, _, rfl, ?_⟩
          rintro rfl
          cases halpha
      split
      · exact ⟨'M', _, rfl, by decide⟩
      · exact ⟨'P', _, rfl, by decide⟩
    obtain ⟨r, s, hstring, hr⟩ := hfirst
    show dropBOM (c.String ++ ['\n'] ++ print cmds) = c.String ++ ['\n'] ++ print cmds
    rw [hstring]
    unfold dropBOM
    split
    · next rest heq =>
      injection heq with heq _
      exact absurd heq hr
    · rfl

/-- **Modelfiles survive print then parse.** Commands among which there is a `FROM` are parsed
back as they were, when each one can be: what is printed of its argument is taken by the parser,
and an argument without quotes is bare. -/
theorem parseFile_print (hprint : Prints IsPrint) (cmds : List Command)
    (hmodel : ∃ c ∈ cmds, c.Name = "model".toList) (hgood : ∀ c ∈ cmds, c.Good IsPrint) :
    ParseFile IsPrint (print cmds) = .ok cmds := by
  obtain ⟨name, line, hfeed⟩ := feed_print hprint cmds hgood [] 1 []
  have hany : (cmds.any fun c => c.Name = "model".toList) = true := by
    obtain ⟨c, hc, hname⟩ := hmodel
    exact any_eq_true.mpr ⟨c, hc, decide_eq_true hname⟩
  unfold ParseFile
  rw [dropBOM_print, show init = rest [] 1 [] from rfl, hfeed]
  show (if (cmds.any fun c => c.Name = "model".toList) then Except.ok cmds
    else Except.error Error.missingFrom) = _
  rw [if_pos hany]

/-- `strconv.IsPrint` of ASCII -/
def asciiPrint (r : Char) : Bool := 0x20 ≤ r.toNat && r.toNat < 0x7f

theorem asciiPrint_prints : Prints asciiPrint := by
  refine ⟨fun c _ => rfl, fun c hspace hprint => ?_⟩
  unfold asciiPrint at hprint
  rw [Bool.and_eq_true, decide_eq_true_eq, decide_eq_true_eq] at hprint
  unfold Parsers.isSpace at hspace
  rw [if_pos (by omega)] at hspace
  simp only [Bool.or_eq_true, Bool.and_eq_true, decide_eq_true_eq, beq_iff_eq] at hspace
  refine Char.ext (UInt32.toNat_inj.mp ?_)
  show c.toNat = 0x20
  omega

theorem parseFile_print_quoted :
    ParseFile asciiPrint (print [⟨"model".toList, "a".toList⟩, ⟨"system".toList, " x\n".toList⟩]) =
      .ok [⟨"model".toList, "a".toList⟩, ⟨"system".toList, " x\n".toList⟩] := by
  have htaken : ∀ s : Text, s.all (fun r => r == '\n' || isSpace r ||
      (asciiPrint r && !isNewline r)) = true → ∀ r ∈ s, Taken asciiPrint r := by
    intro s hs r hr
    have h := all_eq_true.mp hs r hr
    simpa [Taken, or_assoc] using h
  refine parseFile_print asciiPrint_prints _ ⟨_, mem_cons_self, rfl⟩ ?_
  rw [forall_mem_cons, forall_mem_singleton]
  refine ⟨⟨?_, by decide, fun _ => ⟨htaken _ (by decide), fun _ => ⟨by decide, by decide, ?_, ?_⟩⟩,
    fun h => absurd h (by decide), fun h => absurd rfl h⟩,
    ⟨?_, by decide, fun h => absurd h (by decide), fun h => absurd h (by decide),
      fun _ _ => ⟨htaken _ (by decide), fun h => absurd h (by decide)⟩⟩⟩
  · exact fun r hr => all_eq_true.mp (by decide : "model".toList.all isNameRune = true) r hr
  · intro r hr
    cases hr
    rfl
  · intro r hr
    cases hr
    rfl
  · exact fun r hr => all_eq_true.mp (by decide : "system".toList.all isNameRune = true) r hr

/-- Without a `FROM` nothing is returned. -/
theorem print_without_from :
    ParseFile asciiPrint (print [⟨"system".toList, "x".toList⟩]) = .error .missingFrom := by
  decide

end Ollama.Parser
