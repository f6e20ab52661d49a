import Ollama.Lib.Strconv

/-!
# JSON texts

JSON values, their texts with any white space after commas and colons, and a reader that limits
how deep arrays and objects nest. The numbers are of any type; how they are written and read is a
parameter. An object is the list of its fields in the order of their keys.
-/

namespace Ollama.Lib

open List Option

/-! ## §1  Values -/

inductive Json (ν : Type)
  | null
  | bool (b : Bool)
  | number (x : ν)
  | string (s : List Char)
  | array (xs : List (Json ν))
  | object (fields : List (List Char × Json ν))

namespace Json

variable {ν μ : Type}

mutual

/-- The value with other numbers. -/
def map (f : ν → μ) : Json ν → Json μ
  | null => null
  | bool b => bool b
  | number x => number (f x)
  | string s => string s
  | array xs => array (mapElements f xs)
  | object fields => object (mapMembers f fields)

def mapElements (f : ν → μ) : List (Json ν) → List (Json μ)
  | [] => []
  | x :: xs => map f x :: mapElements f xs

def mapMembers (f : ν → μ) : List (List Char × Json ν) → List (List Char × Json μ)
  | [] => []
  | (k, x) :: fields => (k, map f x) :: mapMembers f fields

end

mutual

def depth : Json ν → ℕ
  | array xs => depthElements xs + 1
  | object fields => depthMembers fields + 1
  | _ => 0

def depthElements : List (Json ν) → ℕ
  | [] => 0
  | x :: xs => max (depth x) (depthElements xs)

def depthMembers : List (List Char × Json ν) → ℕ
  | [] => 0
  | (_, x) :: fields => max (depth x) (depthMembers fields)

end

mutual

def numbers : Json ν → List ν
  | number x => [x]
  | array xs => numbersElements xs
  | object fields => numbersMembers fields
  | _ => []

def numbersElements : List (Json ν) → List ν
  | [] => []
  | x :: xs => numbers x ++ numbersElements xs

def numbersMembers : List (List Char × Json ν) → List ν
  | [] => []
  | (_, x) :: fields => numbers x ++ numbersMembers fields

end

def Ordered {β : Type} (fields : List (List Char × β)) : Prop :=
  fields.Pairwise fun x y => x.1 < y.1

mutual

def Sorted : Json ν → Prop
  | array xs => SortedElements xs
  | object fields => Ordered fields ∧ SortedMembers fields
  | _ => True

def SortedElements : List (Json ν) → Prop
  | [] => True
  | x :: xs => Sorted x ∧ SortedElements xs

def SortedMembers : List (List Char × Json ν) → Prop
  | [] => True
  | (_, x) :: fields => Sorted x ∧ SortedMembers fields

end

/-- A field of a map, set. -/
def setField {β : Type} (k : List Char) (v : β) : List (List Char × β) → List (List Char × β)
  | [] => [(k, v)]
  | (k', v') :: fields =>
      if k < k' then (k, v) :: (k', v') :: fields
      else if k = k' then (k, v) :: fields
      else (k', v') :: setField k v fields

def setFields {β : Type} (fields : List (List Char × β)) : List (List Char × β) :=
  fields.foldl (fun m x => setField x.1 x.2 m) []

section Fields

variable {β : Type} {k : List Char} {v : β} {fields : List (List Char × β)}

theorem setField_last (h : ∀ x ∈ fields, x.1 < k) : setField k v fields = fields ++ [(k, v)] := by
  induction fields with
  | nil => rfl
  | cons x fields ih =>
    have hlt := h x mem_cons_self
    have hne : k ≠ x.1 := by
      rintro rfl
      exact List.lt_irrefl _ hlt
    rw [setField, if_neg (List.lt_asymm hlt), if_neg hne, ih fun y hy => h y (mem_cons_of_mem x hy)]
    rfl

/-- Fields in order are set as they are. -/
theorem setFields_ordered (h : Ordered fields) : setFields fields = fields := by
  have hgen : ∀ fields acc : List (List Char × β), Ordered (acc ++ fields) →
      fields.foldl (fun m x => setField x.1 x.2 m) acc = acc ++ fields := by
    intro fields
    induction fields with
    | nil =>
      intro acc _
      rw [foldl_nil, append_nil]
    | cons x fields ih =>
      intro acc h
      have hlast : ∀ y ∈ acc, y.1 < x.1 := fun y hy =>
        (pairwise_append.mp h).2.2 y hy x mem_cons_self
      rw [foldl_cons, setField_last hlast, ih (acc ++ [(x.1, x.2)]) (by
        rwa [append_assoc]), append_assoc]
      rfl
  exact hgen fields [] h

end Fields

mutual

/-- Two functions change a value alike when they change its numbers alike. -/
theorem map_eq_map_iff (f g : ν → μ) (v : Json ν) :
    map f v = map g v ↔ ∀ x ∈ numbers v, f x = g x := by
  match v with
  | null => exact ⟨fun _ x hx => (not_mem_nil hx).elim, fun _ => rfl⟩
  | bool b => exact ⟨fun _ x hx => (not_mem_nil hx).elim, fun _ => rfl⟩
  | string s => exact ⟨fun _ x hx => (not_mem_nil hx).elim, fun _ => rfl⟩
  | number x =>
    rw [map, map, number.injEq, numbers, forall_mem_singleton]
  | array xs =>
    rw [map, map, array.injEq, numbers]
    exact mapElements_eq_iff f g xs
  | object fields =>
    rw [map, map, object.injEq, numbers]
    exact mapMembers_eq_iff f g fields

theorem mapElements_eq_iff (f g : ν → μ) (xs : List (Json ν)) :
    mapElements f xs = mapElements g xs ↔ ∀ x ∈ numbersElements xs, f x = g x := by
  match xs with
  | [] => exact ⟨fun _ x hx => (not_mem_nil hx).elim, fun _ => rfl⟩
  | x :: xs =>
    rw [mapElements, mapElements, List.cons.injEq, numbersElements, forall_mem_append,
      map_eq_map_iff f g x, mapElements_eq_iff f g xs]

theorem mapMembers_eq_iff (f g : ν → μ) (fields : List (List Char × Json ν)) :
    mapMembers f fields = mapMembers g fields ↔ ∀ x ∈ numbersMembers fields, f x = g x := by
  match fields with
  | [] => exact ⟨fun _ x hx => (not_mem_nil hx).elim, fun _ => rfl⟩
  | (k, x) :: fields =>
    rw [mapMembers, mapMembers, List.cons.injEq, Prod.mk.injEq, numbersMembers,
      forall_mem_append, map_eq_map_iff f g x, mapMembers_eq_iff f g fields,
      eq_self_iff_true, true_and]

end

mutual

theorem depth_map (f : ν → μ) (v : Json ν) : depth (map f v) = depth v := by
  match v with
  | null => rfl
  | bool b => rfl
  | string s => rfl
  | number x => rfl
  | array xs => rw [map, depth, depth, depthElements_map f xs]
  | object fields => rw [map, depth, depth, depthMembers_map f fields]

theorem depthElements_map (f : ν → μ) (xs : List (Json ν)) :
    depthElements (mapElements f xs) = depthElements xs := by
  match xs with
  | [] => rfl
  | x :: xs => rw [mapElements, depthElements, depthElements, depth_map f x, depthElements_map f xs]

theorem depthMembers_map (f : ν → μ) (fields : List (List Char × Json ν)) :
    depthMembers (mapMembers f fields) = depthMembers fields := by
  match fields with
  | [] => rfl
  | (k, x) :: fields =>
    rw [mapMembers, depthMembers, depthMembers, depth_map f x, depthMembers_map f fields]

end

mutual

theorem map_map {ξ : Type} (f : ν → μ) (g : μ → ξ) (v : Json ν) :
    map g (map f v) = map (g ∘ f) v := by
  match v with
  | null => rfl
  | bool b => rfl
  | string s => rfl
  | number x => rfl
  | array xs => rw [map, map, map, mapElements_map f g xs]
  | object fields => rw [map, map, map, mapMembers_map f g fields]

theorem mapElements_map {ξ : Type} (f : ν → μ) (g : μ → ξ) (xs : List (Json ν)) :
    mapElements g (mapElements f xs) = mapElements (g ∘ f) xs := by
  match xs with
  | [] => rfl
  | x :: xs => rw [mapElements, mapElements, mapElements, map_map f g x, mapElements_map f g xs]

theorem mapMembers_map {ξ : Type} (f : ν → μ) (g : μ → ξ) (fields : List (List Char × Json ν)) :
    mapMembers g (mapMembers f fields) = mapMembers (g ∘ f) fields := by
  match fields with
  | [] => rfl
  | (k, x) :: fields =>
    rw [mapMembers, mapMembers, mapMembers, map_map f g x, mapMembers_map f g fields]

end

theorem mapMembers_keys (f : ν → μ) (fields : List (List Char × Json ν)) :
    (mapMembers f fields).map Prod.fst = fields.map Prod.fst := by
  induction fields with
  | nil => rfl
  | cons x fields ih =>
    rw [mapMembers, map_cons, map_cons, ih]

theorem ordered_keys {β : Type} {fields : List (List Char × β)} :
    Ordered fields ↔ (fields.map Prod.fst).Pairwise (· < ·) := by
  rw [Ordered, pairwise_map]

theorem Ordered.mapMembers {fields : List (List Char × Json ν)} (h : Ordered fields)
    (f : ν → μ) : Ordered (mapMembers f fields) := by
  rw [ordered_keys, mapMembers_keys]
  exact ordered_keys.mp h

/-! ## §2  Writing -/

/-- A character in a string. -/
def escape (c : Char) : List Char :=
  if c = '"' ∨ c = '\\' then ['\\', c]
  else if c = '\x08' then ['\\', 'b']
  else if c = '\x0c' then ['\\', 'f']
  else if c = '\n' then ['\\', 'n']
  else if c = '\r' then ['\\', 'r']
  else if c = '\t' then ['\\', 't']
  else if c.toNat < 0x20 then
    ['\\', 'u', '0', '0', (c.toNat / 16).digitChar, (c.toNat % 16).digitChar]
  else if c.toNat = 0x2028 ∨ c.toNat = 0x2029 then
    ['\\', 'u', '2', '0', '2', (c.toNat % 16).digitChar]
  else [c]

def quote (s : List Char) : List Char := '"' :: (s.flatMap escape ++ ['"'])

structure Style (ν : Type) where
  comma : List Char
  colon : List Char
  number : ν → List Char

variable (style : Style ν)

mutual

def write : Json ν → List Char
  | null => "null".toList
  | bool b => if b then "true".toList else "false".toList
  | number x => style.number x
  | string s => quote s
  | array xs => '[' :: (writeElements true xs ++ [']'])
  | object fields => '{' :: (writeMembers true fields ++ ['}'])

/-- Elements; `first`: nothing is written before them. -/
def writeElements (first : Bool) : List (Json ν) → List Char
  | [] => []
  | x :: xs => (if first then [] else style.comma) ++ (write x ++ writeElements false xs)

def writeMembers (first : Bool) : List (List Char × Json ν) → List Char
  | [] => []
  | (k, x) :: fields =>
      (if first then [] else style.comma) ++
        (quote k ++ (style.colon ++ (write x ++ writeMembers false fields)))

end

/-! ## §3  Reading -/

/-- White space between the parts of a text. -/
def isSpace (c : Char) : Bool := c = ' ' ∨ c = '\t' ∨ c = '\n' ∨ c = '\r'

def skipSpace (s : List Char) : List Char := s.dropWhile isSpace

def hexValue (c : Char) : Option ℕ :=
  if '0' ≤ c ∧ c ≤ '9' then some (c.toNat - '0'.toNat)
  else if 'a' ≤ c ∧ c ≤ 'f' then some (c.toNat - 'a'.toNat + 10)
  else if 'A' ≤ c ∧ c ≤ 'F' then some (c.toNat - 'A'.toNat + 10)
  else none

/-- The four digits of `\u`, and what follows. -/
def readHex : List Char → Option (ℕ × List Char)
  | a :: b :: c :: d :: s => do
      let a ← hexValue a
      let b ← hexValue b
      let c ← hexValue c
      let d ← hexValue d
      return (((a * 16 + b) * 16 + c) * 16 + d, s)
  | _ => none

def replacement : Char := Char.ofNat 0xfffd

/-- A character written as `\u`; a half of a pair without the other one is replaced. -/
def readUnicode (s : List Char) : Option (Char × List Char) :=
  match readHex s with
  | none => none
  | some (r, s) =>
      if 0xd800 ≤ r ∧ r < 0xe000 then
        match s with
        | '\\' :: 'u' :: s' =>
            match readHex s' with
            | none => none
            | some (r', s') =>
                if r < 0xdc00 ∧ 0xdc00 ≤ r' ∧ r' < 0xe000 then
                  some (Char.ofNat ((r - 0xd800) * 0x400 + (r' - 0xdc00) + 0x10000), s')
                else some (replacement, s)
        | s => some (replacement, s)
      else some (Char.ofNat r, s)

/-- A character of a string, and what follows. -/
def readChar : List Char → Option (Char × List Char)
  | [] => none
  | c :: s =>
      if c = '\\' then
        match s with
        | [] => none
        | e :: s =>
            if e = '"' ∨ e = '\\' ∨ e = '/' then some (e, s)
            else if e = 'b' then some ('\x08', s)
            else if e = 'f' then some ('\x0c', s)
            else if e = 'n' then some ('\n', s)
            else if e = 'r' then some ('\r', s)
            else if e = 't' then some ('\t', s)
            else if e = 'u' then readUnicode s
            else none
      else if c.toNat < 0x20 then none
      else some (c, s)

/-- A string after its opening quote, of at most `n` characters. -/
def readStringFrom : ℕ → List Char → Option (List Char × List Char)
  | _, [] => none
  | 0, c :: s => if c = '"' then some ([], s) else none
  | n + 1, c :: s =>
      if c = '"' then some ([], s)
      else do
        let (x, s) ← readChar (c :: s)
        let (xs, s) ← readStringFrom n s
        return (x :: xs, s)

def readString (s : List Char) : Option (List Char × List Char) := readStringFrom s.length s

def readDigits (s : List Char) : Option (List Char × List Char) :=
  if s.takeWhile Char.isDigit = [] then none
  else some (s.takeWhile Char.isDigit, s.dropWhile Char.isDigit)

def readInt : List Char → Option (List Char × List Char)
  | '0' :: s => some (['0'], s)
  | s => readDigits s

def readFraction : List Char → Option (List Char × List Char)
  | '.' :: s => (readDigits s).map fun (digits, s) => ('.' :: digits, s)
  | s => some ([], s)

def readExponent : List Char → Option (List Char × List Char)
  | e :: s =>
      if e = 'e' ∨ e = 'E' then
        match s with
        | '+' :: s => (readDigits s).map fun (digits, s) => (e :: '+' :: digits, s)
        | '-' :: s => (readDigits s).map fun (digits, s) => (e :: '-' :: digits, s)
        | s => (readDigits s).map fun (digits, s) => (e :: digits, s)
      else some ([], e :: s)
  | [] => some ([], [])

def readUnsigned (s : List Char) : Option (List Char × List Char) := do
  let (int, s) ← readInt s
  let (fraction, s) ← readFraction s
  let (exponent, s) ← readExponent s
  return (int ++ (fraction ++ exponent), s)

def readNumber : List Char → Option (List Char × List Char)
  | '-' :: s => (readUnsigned s).map fun (text, s) => ('-' :: text, s)
  | s => readUnsigned s

def readWord (word : List Char) (x : Json μ) (s : List Char) : Option (Json μ × List Char) :=
  if word <+: s then some (x, s.drop word.length) else none

section Reader

variable (decode : List Char → Option μ) (maxDepth : ℕ)

mutual

/-- A value inside of `d` arrays and objects. -/
def readValue : ℕ → ℕ → List Char → Option (Json μ × List Char)
  | 0, _, _ => none
  | n + 1, d, s =>
      match skipSpace s with
      | [] => none
      | c :: s =>
          if c = '"' then (readString s).map fun (x, s) => (string x, s)
          else if c = '[' then
            if maxDepth ≤ d then none
            else
              match skipSpace s with
              | ']' :: s => some (array [], s)
              | _ => (readElements n (d + 1) s).map fun (xs, s) => (array xs, s)
          else if c = '{' then
            if maxDepth ≤ d then none
            else
              match skipSpace s with
              | '}' :: s => some (object [], s)
              | _ => (readMembers n (d + 1) s).map fun (fields, s) => (object (setFields fields), s)
          else if c = 't' then readWord "rue".toList (bool true) s
          else if c = 'f' then readWord "alse".toList (bool false) s
          else if c = 'n' then readWord "ull".toList null s
          else
            match readNumber (c :: s) with
            | none => none
            | some (text, s) => (decode text).map fun x => (number x, s)

/-- The elements up to the end of their array. -/
def readElements : ℕ → ℕ → List Char → Option (List (Json μ) × List Char)
  | 0, _, _ => none
  | n + 1, d, s =>
      match readValue n d s with
      | none => none
      | some (x, s) =>
          match skipSpace s with
          | ',' :: s => (readElements n d s).map fun (xs, s) => (x :: xs, s)
          | ']' :: s => some ([x], s)
          | _ => none

/-- The fields up to the end of their object. -/
def readMembers : ℕ → ℕ → List Char → Option (List (List Char × Json μ) × List Char)
  | 0, _, _ => none
  | n + 1, d, s =>
      match skipSpace s with
      | '"' :: s =>
          match readString s with
          | none => none
          | some (k, s) =>
              match skipSpace s with
              | ':' :: s =>
                  match readValue n d s with
                  | none => none
                  | some (x, s) =>
                      match skipSpace s with
                      | ',' :: s => (readMembers n d s).map fun (fields, s) => ((k, x) :: fields, s)
                      | '}' :: s => some ([(k, x)], s)
                      | _ => none
              | _ => none
      | _ => none

end

def read (s : List Char) : Option (Json μ) :=
  match readValue decode maxDepth (2 * s.length + 1) 0 s with
  | some (x, rest) => if skipSpace rest = [] then some x else none
  | none => none

end Reader

/-! ## §4  What was written is read -/

theorem hexValue_digitChar {d : ℕ} (h : d < 16) : hexValue d.digitChar = some d := by
  have hall : ∀ d < 16, hexValue d.digitChar = some d := by decide
  exact hall d h

theorem readUnicode_digits {a b c d : ℕ} {s : List Char} (ha : a < 16) (hb : b < 16) (hc : c < 16)
    (hd : d < 16) (hlow : ((a * 16 + b) * 16 + c) * 16 + d < 0xd800) :
    readUnicode (a.digitChar :: b.digitChar :: c.digitChar :: d.digitChar :: s) =
      some (Char.ofNat (((a * 16 + b) * 16 + c) * 16 + d), s) := by
  have hread : readHex (a.digitChar :: b.digitChar :: c.digitChar :: d.digitChar :: s) =
      some (((a * 16 + b) * 16 + c) * 16 + d, s) := by
    rw [readHex, hexValue_digitChar ha, hexValue_digitChar hb, hexValue_digitChar hc,
      hexValue_digitChar hd]
    rfl
  unfold readUnicode
  rw [hread]
  dsimp only
  rw [if_neg fun h => absurd h.1 (Nat.not_le.mpr hlow)]

theorem readChar_escape (c : Char) (s : List Char) : readChar (escape c ++ s) = some (c, s) := by
  unfold escape
  split
  · next h =>
    rcases h with rfl | rfl <;> rfl
  split
  · next h =>
    rw [h]
    rfl
  split
  · next h =>
    rw [h]
    rfl
  split
  · next h =>
    rw [h]
    rfl
  split
  · next h =>
    rw [h]
    rfl
  split
  · next h =>
    rw [h]
    rfl
  split
  · next h =>
    have hvalue : ((0 * 16 + 0) * 16 + c.toNat / 16) * 16 + c.toNat % 16 = c.toNat := by omega
    have hread := readUnicode_digits (s := s) (by omega : 0 < 16) (by omega : 0 < 16)
      (by omega : c.toNat / 16 < 16) (by omega : c.toNat % 16 < 16) (by omega)
    rw [hvalue, Char.ofNat_toNat] at hread
    exact hread
  split
  · next h =>
    have hvalue : ((2 * 16 + 0) * 16 + 2) * 16 + c.toNat % 16 = c.toNat := by omega
    have hread := readUnicode_digits (s := s) (by omega : 2 < 16) (by omega : 0 < 16)
      (by omega : 2 < 16) (by omega : c.toNat % 16 < 16) (by omega)
    rw [hvalue, Char.ofNat_toNat] at hread
    exact hread
  · next hquote _ _ _ _ _ hlow _ =>
    have hback : c ≠ '\\' := fun h => hquote (.inr h)
    rw [singleton_append]
    unfold readChar
    dsimp only
    rw [if_neg hback, if_neg hlow]

/-- An escaped character is not empty, and does not begin with a quote. -/
theorem escape_head (c : Char) : ∃ x t, escape c = x :: t ∧ x ≠ '"' := by
  unfold escape
  split
  · exact ⟨_, _, rfl, by decide⟩
  split
  · exact ⟨_, _, rfl, by decide⟩
  split
  · exact ⟨_, _, rfl, by decide⟩
  split
  · exact ⟨_, _, rfl, by decide⟩
  split
  · exact ⟨_, _, rfl, by decide⟩
  split
  · exact ⟨_, _, rfl, by decide⟩
  split
  · exact ⟨_, _, rfl, by decide⟩
  split
  · exact ⟨_, _, rfl, by decide⟩
  · next hquote _ _ _ _ _ _ _ => exact ⟨_, _, rfl, fun h => hquote (.inl h)⟩

theorem readStringFrom_body (s : List Char) (n : ℕ) (hn : s.length ≤ n) (rest : List Char) :
    readStringFrom n (s.flatMap escape ++ '"' :: rest) = some (s, rest) := by
  induction s generalizing n with
  | nil =>
    cases n with
    | zero => rfl
    | succ n => rfl
  | cons c s ih =>
    obtain ⟨n, rfl⟩ := Nat.exists_eq_succ_of_ne_zero (Nat.ne_of_gt (Nat.lt_of_lt_of_le
      (Nat.succ_pos s.length) hn))
    obtain ⟨x, t, hescape, hx⟩ := escape_head c
    have hread := readChar_escape c (s.flatMap escape ++ '"' :: rest)
    rw [flatMap_cons, append_assoc]
    rw [hescape] at hread ⊢
    rw [cons_append] at hread ⊢
    rw [readStringFrom, if_neg hx, hread, bind_eq_bind, bind_some]
    dsimp only
    rw [ih n (Nat.le_of_succ_le_succ hn)]
    rfl

theorem length_le_escape (s : List Char) : s.length ≤ (s.flatMap escape).length := by
  induction s with
  | nil => exact Nat.le_refl 0
  | cons c s ih =>
    obtain ⟨x, t, hescape, -⟩ := escape_head c
    rw [flatMap_cons, hescape, length_append, length_cons, length_cons]
    omega

/-- An escaped string is the string when no character of it is escaped. -/
theorem flatMap_escape_eq_iff (s : List Char) : s.flatMap escape = s ↔ ∀ c ∈ s, escape c = [c] := by
  induction s with
  | nil => exact ⟨fun _ c hc => (not_mem_nil hc).elim, fun _ => rfl⟩
  | cons c s ih =>
    rw [flatMap_cons, forall_mem_cons]
    constructor
    · intro h
      have hlength := congrArg List.length h
      rw [length_append, length_cons] at hlength
      have hle := length_le_escape s
      obtain ⟨x, t, hescape, -⟩ := escape_head c
      rw [hescape, cons_append] at h
      rw [hescape, length_cons] at hlength
      obtain ⟨rfl, hs⟩ := List.cons.inj h
      obtain rfl : t = [] := length_eq_zero_iff.mp (by omega)
      exact ⟨hescape, ih.mp hs⟩
    · rintro ⟨hc, hs⟩
      rw [hc, ih.mpr hs]
      rfl

theorem readString_body (s rest : List Char) :
    readString (s.flatMap escape ++ '"' :: rest) = some (s, rest) := by
  refine readStringFrom_body s _ ?_ rest
  have := length_le_escape s
  rw [length_append]
  omega

def Follows (rest : List Char) : Prop :=
  ∀ c ∈ rest.head?, c.isDigit = false ∧ c ≠ '.' ∧ c ≠ 'e' ∧ c ≠ 'E'

structure NumberText (t : List Char) : Prop where
  head : ∃ c s, t = c :: s ∧ (c = '-' ∨ c.isDigit = true)
  read : ∀ rest, Follows rest → readNumber (t ++ rest) = some (t, rest)

theorem readDigits_append {t rest : List Char} (ht : t ≠ []) (hdigits : ∀ c ∈ t, c.isDigit = true)
    (hrest : Follows rest) : readDigits (t ++ rest) = some (t, rest) := by
  have htake : (t ++ rest).takeWhile Char.isDigit = t ∧
      (t ++ rest).dropWhile Char.isDigit = rest := by
    rw [takeWhile_append_of_pos hdigits, dropWhile_append_of_pos hdigits]
    cases rest with
    | nil => exact ⟨append_nil t, rfl⟩
    | cons c rest =>
      have hc : ¬c.isDigit = true := by
        rw [(hrest c rfl).1]
        exact Bool.false_ne_true
      rw [takeWhile_cons_of_neg hc, dropWhile_cons_of_neg hc]
      exact ⟨append_nil t, rfl⟩
  unfold readDigits
  rw [htake.1, htake.2, if_neg ht]

theorem readFraction_none {rest : List Char} (h : Follows rest) :
    readFraction rest = some ([], rest) := by
  unfold readFraction
  split
  · exact absurd rfl (h '.' rfl).2.1
  · rfl

theorem readExponent_none {rest : List Char} (h : Follows rest) :
    readExponent rest = some ([], rest) := by
  cases rest with
  | nil => rfl
  | cons c rest =>
    obtain ⟨-, -, he, hE⟩ := h c rfl
    have hmark : ¬(c = 'e' ∨ c = 'E') := by
      rintro (h | h)
      · exact he h
      · exact hE h
    unfold readExponent
    dsimp only
    rw [if_neg hmark]

theorem readUnsigned_digits {t rest : List Char} (ht : Strconv.Digits t) (h : Follows rest) :
    readUnsigned (t ++ rest) = some (t, rest) := by
  have hread := readDigits_append ht.nonempty ht.digits h
  have hint : readInt (t ++ rest) = some (t, rest) := by
    obtain ⟨c, t', rfl⟩ := exists_cons_of_ne_nil ht.nonempty
    by_cases hc : c = '0'
    · subst hc
      rw [ht.zero t' rfl]
      rfl
    · unfold readInt
      split
      · next heq => exact absurd (List.cons.inj heq).1 hc
      · exact hread
  unfold readUnsigned
  rw [hint, bind_eq_bind, bind_some]
  dsimp only
  rw [readFraction_none h, bind_some]
  rw [readExponent_none h, bind_some]
  rw [append_nil, append_nil]
  rfl

theorem numberText_digits {t : List Char} (ht : Strconv.Digits t) : NumberText t := by
  obtain ⟨c, t', rfl⟩ := exists_cons_of_ne_nil ht.nonempty
  refine ⟨⟨c, t', rfl, .inr (ht.digits c mem_cons_self)⟩, fun rest hrest => ?_⟩
  have hread := readUnsigned_digits ht hrest
  unfold readNumber
  split
  · next heq => exact absurd (congrArg (· :: t') (List.cons.inj heq).1) (ht.ne (by decide) t')
  · exact hread

theorem numberText_neg {t : List Char} (ht : Strconv.Digits t) : NumberText ('-' :: t) := by
  refine ⟨⟨'-', _, rfl, .inl rfl⟩, fun rest hrest => ?_⟩
  rw [cons_append, readNumber, readUnsigned_digits ht hrest]
  rfl

theorem numberText_decimal (n : ℤ) : NumberText (Strconv.decimal n) := by
  cases n with
  | ofNat k => exact numberText_digits (Strconv.digits_toDigits k)
  | negSucc k => exact numberText_neg (Strconv.digits_toDigits (k + 1))

structure Style.Reads (style : Style ν) (decode : List Char → Option μ) (value : ν → μ) : Prop where
  comma : ∃ w, style.comma = ',' :: w ∧ ∀ c ∈ w, isSpace c = true
  colon : ∃ w, style.colon = ':' :: w ∧ ∀ c ∈ w, isSpace c = true
  text : ∀ x, NumberText (style.number x)
  decode : ∀ x, decode (style.number x) = some (value x)

theorem skipSpace_append {w : List Char} (hw : ∀ c ∈ w, isSpace c = true) (s : List Char) :
    skipSpace (w ++ s) = skipSpace s :=
  dropWhile_append_of_pos hw

theorem skipSpace_cons {c : Char} (hc : isSpace c = false) (s : List Char) :
    skipSpace (c :: s) = c :: s :=
  dropWhile_cons_of_neg (by rw [hc]; exact Bool.false_ne_true)

theorem readWord_append (word rest : List Char) (x : Json μ) :
    readWord word x (word ++ rest) = some (x, rest) := by
  rw [readWord, if_pos (prefix_append word rest), drop_left]

theorem follows_cons {c : Char} (hc : c = ',' ∨ c = ']' ∨ c = '}') (rest : List Char) :
    Follows (c :: rest) := by
  intro x hx
  obtain rfl : c = x := some.inj hx
  rcases hc with rfl | rfl | rfl <;> decide

section WriteRead

variable {style : Style ν} {decode : List Char → Option μ} {value : ν → μ} {maxDepth : ℕ}

variable {w : List Char}

theorem readValue_space (hw : ∀ c ∈ w, isSpace c = true) (n d : ℕ) (s : List Char) :
    readValue decode maxDepth n d (w ++ s) = readValue decode maxDepth n d s := by
  cases n with
  | zero => rfl
  | succ n => rw [readValue, readValue, skipSpace_append hw]

theorem readElements_space (hw : ∀ c ∈ w, isSpace c = true) (n d : ℕ) (s : List Char) :
    readElements decode maxDepth n d (w ++ s) = readElements decode maxDepth n d s := by
  cases n with
  | zero => rfl
  | succ n => rw [readElements, readElements, readValue_space hw]

theorem readMembers_space (hw : ∀ c ∈ w, isSpace c = true) (n d : ℕ) (s : List Char) :
    readMembers decode maxDepth n d (w ++ s) = readMembers decode maxDepth n d s := by
  cases n with
  | zero => rfl
  | succ n => rw [readMembers, readMembers, skipSpace_append hw]

variable {n d : ℕ} {x : Json μ}

theorem readElements_more {s s' t : List Char}
    (hx : readValue decode maxDepth n d s = some (x, s')) (hs : skipSpace s' = ',' :: t) :
    readElements decode maxDepth (n + 1) d s =
      (readElements decode maxDepth n d t).map fun (xs, t) => (x :: xs, t) := by
  rw [readElements, hx]
  dsimp only
  rw [hs]
  rfl

theorem readElements_last {s s' t : List Char}
    (hx : readValue decode maxDepth n d s = some (x, s')) (hs : skipSpace s' = ']' :: t) :
    readElements decode maxDepth (n + 1) d s = some ([x], t) := by
  rw [readElements, hx]
  dsimp only
  rw [hs]
  rfl

/-- A key, a colon and a value are read, and the reader goes on with what follows. -/
theorem readMembers_value {k s t : List Char} (hx : readValue decode maxDepth n d s = some (x, t)) :
    readMembers decode maxDepth (n + 1) d (quote k ++ (':' :: s)) =
      match skipSpace t with
      | ',' :: t => (readMembers decode maxDepth n d t).map fun (fields, t) => ((k, x) :: fields, t)
      | '}' :: t => some ([(k, x)], t)
      | _ => none := by
  have hkey : readString (k.flatMap escape ++ '"' :: ':' :: s) = some (k, ':' :: s) :=
    readString_body k _
  rw [quote, cons_append, append_assoc, singleton_append, readMembers, skipSpace_cons rfl]
  show (match readString (k.flatMap escape ++ '"' :: ':' :: s) with
    | none => none
    | some (k, s) => _) = _
  rw [hkey]
  show (match readValue decode maxDepth n d s with
    | none => none
    | some (x, s) => _) = _
  rw [hx]

theorem readMembers_more {k s s' t : List Char}
    (hx : readValue decode maxDepth n d s = some (x, s')) (hs : skipSpace s' = ',' :: t) :
    readMembers decode maxDepth (n + 1) d (quote k ++ (':' :: s)) =
      (readMembers decode maxDepth n d t).map fun (fields, t) => ((k, x) :: fields, t) := by
  rw [readMembers_value hx, hs]
  rfl

theorem readMembers_last {k s s' t : List Char}
    (hx : readValue decode maxDepth n d s = some (x, s')) (hs : skipSpace s' = '}' :: t) :
    readMembers decode maxDepth (n + 1) d (quote k ++ (':' :: s)) = some ([(k, x)], t) := by
  rw [readMembers_value hx, hs]
  rfl

/-- The first character of a value. -/
theorem write_head (h : style.Reads decode value) (v : Json ν) :
    ∃ c t, write style v = c :: t ∧ isSpace c = false ∧ c ≠ ']' := by
  cases v with
  | null => exact ⟨_, _, rfl, rfl, by decide⟩
  | bool b => cases b <;> exact ⟨_, _, rfl, rfl, by decide⟩
  | number x =>
    obtain ⟨c, t, htext, hc⟩ := (h.text x).head
    refine ⟨c, t, htext, ?_⟩
    rcases hc with rfl | hc
    · decide
    have hne : ∀ c' : Char, c'.isDigit = false → c ≠ c' := by
      rintro c' hc' rfl
      rw [hc] at hc'
      cases hc'
    refine ⟨?_, hne ']' (by decide)⟩
    unfold isSpace
    rw [decide_eq_false_iff_not]
    rintro (h | h | h | h)
    · exact hne ' ' (by decide) h
    · exact hne '\t' (by decide) h
    · exact hne '\n' (by decide) h
    · exact hne '\r' (by decide) h
  | string s => exact ⟨_, _, rfl, rfl, by decide⟩
  | array xs => exact ⟨_, _, rfl, rfl, by decide⟩
  | object fields => exact ⟨_, _, rfl, rfl, by decide⟩

theorem readValue_number (h : style.Reads decode value) (x : ν) (n d : ℕ) {rest : List Char}
    (hrest : Follows rest) :
    readValue decode maxDepth (n + 1) d (style.number x ++ rest) =
      some (number (value x), rest) := by
  obtain ⟨c, t, htext, hc⟩ := (h.text x).head
  have hread := (h.text x).read rest hrest
  have hspace : isSpace c = false := by
    obtain ⟨c', t', htext', hspace, -⟩ := write_head h (number x)
    rw [write, htext] at htext'
    rwa [(List.cons.inj htext').1]
  have hne : ∀ c' : Char, c' ≠ '-' → c'.isDigit = false → c ≠ c' := by
    rintro c' hminus hdigit rfl
    rcases hc with hc | hc
    · exact hminus hc
    · rw [hc] at hdigit
      cases hdigit
  rw [htext, cons_append] at hread ⊢
  rw [readValue, skipSpace_cons hspace]
  dsimp only
  rw [if_neg (hne '"' (by decide) (by decide)), if_neg (hne '[' (by decide) (by decide)),
    if_neg (hne '\x7b' (by decide) (by decide)), if_neg (hne 't' (by decide) (by decide)),
    if_neg (hne 'f' (by decide) (by decide)), if_neg (hne 'n' (by decide) (by decide)), hread]
  dsimp only
  rw [← htext, h.decode x]
  rfl

mutual

/-- What was written is read back, as far as the limit allows arrays and objects to nest. -/
theorem readValue_write (h : style.Reads decode value) (v : Json ν) (n d : ℕ) {rest : List Char}
    (hn : 2 * (write style v).length ≤ n) (hd : d + depth v ≤ maxDepth) (hs : Sorted v)
    (hrest : Follows rest) :
    readValue decode maxDepth n d (write style v ++ rest) = some (map value v, rest) := by
  obtain ⟨c, t, hhead, -⟩ := write_head h v
  have hpos : 0 < n := by
    rw [hhead, length_cons] at hn
    omega
  obtain ⟨n, rfl⟩ := Nat.exists_eq_succ_of_ne_zero hpos.ne'
  match v with
  | null =>
    show readWord "ull".toList null ("ull".toList ++ rest) = _
    exact readWord_append _ _ _
  | bool true =>
    show readWord "rue".toList (bool true) ("rue".toList ++ rest) = _
    exact readWord_append _ _ _
  | bool false =>
    show readWord "alse".toList (bool false) ("alse".toList ++ rest) = _
    exact readWord_append _ _ _
  | number x => exact readValue_number h x n d hrest
  | string s =>
    rw [write, quote, cons_append, append_assoc, readValue, skipSpace_cons rfl]
    dsimp only
    rw [if_pos rfl, singleton_append, readString_body]
    rfl
  | array xs =>
    rw [write, cons_append, append_assoc, singleton_append, readValue, skipSpace_cons rfl]
    have hlt : ¬maxDepth ≤ d := by
      rw [depth] at hd
      omega
    dsimp only
    rw [if_neg (by decide), if_pos rfl, if_neg hlt]
    cases xs with
    | nil => rfl
    | cons x xs =>
      have helements : readElements decode maxDepth n (d + 1)
          (writeElements style true (x :: xs) ++ ']' :: rest) =
          some (mapElements value (x :: xs), rest) := by
        refine readElements_write h (x :: xs) n (d + 1) (cons_ne_nil x xs) ?_ ?_ hs
        · rw [write, length_cons, length_append, length_singleton] at hn
          omega
        · rw [depth] at hd
          omega
      obtain ⟨c, t, hx, hspace, hc⟩ := write_head h x
      have hskip : skipSpace (writeElements style true (x :: xs) ++ ']' :: rest) =
          writeElements style true (x :: xs) ++ ']' :: rest := by
        rw [writeElements, if_pos rfl, nil_append, hx]
        exact skipSpace_cons hspace _
      rw [hskip]
      split
      · next heq =>
        rw [writeElements, if_pos rfl, nil_append, hx] at heq
        exact absurd (List.cons.inj heq).1 hc
      · rw [helements]
        rfl
  | object fields =>
    rw [write, cons_append, append_assoc, singleton_append, readValue, skipSpace_cons rfl]
    have hlt : ¬maxDepth ≤ d := by
      rw [depth] at hd
      omega
    dsimp only
    rw [if_neg (by decide), if_neg (by decide), if_pos rfl, if_neg hlt]
    cases fields with
    | nil => rfl
    | cons x fields =>
      have hmembers : readMembers decode maxDepth n (d + 1)
          (writeMembers style true (x :: fields) ++ '}' :: rest) =
          some (mapMembers value (x :: fields), rest) := by
        refine readMembers_write h (x :: fields) n (d + 1) (cons_ne_nil x fields) ?_ ?_ hs.2
        · rw [write, length_cons, length_append, length_singleton] at hn
          omega
        · rw [depth] at hd
          omega
      split
      · next heq => exact absurd (List.cons.inj heq).1 (by decide)
      · rw [hmembers, map_some, setFields_ordered (hs.1.mapMembers value)]
        rfl

theorem readElements_write (h : style.Reads decode value) (xs : List (Json ν)) (n d : ℕ)
    {rest : List Char} (hne : xs ≠ []) (hn : 2 * (writeElements style true xs).length + 1 ≤ n)
    (hd : d + depthElements xs ≤ maxDepth) (hs : SortedElements xs) :
    readElements decode maxDepth n d (writeElements style true xs ++ ']' :: rest) =
      some (mapElements value xs, rest) := by
  obtain ⟨n, rfl⟩ := Nat.exists_eq_succ_of_ne_zero (Nat.ne_of_gt (Nat.lt_of_lt_of_le
    (Nat.succ_pos _) hn))
  match xs with
  | [] => exact absurd rfl hne
  | [x] =>
    rw [writeElements, if_pos rfl, nil_append, writeElements, append_nil] at hn ⊢
    have hx := readValue_write h x n d (by omega)
      (hd.trans' (Nat.add_le_add_left (Nat.le_max_left _ _) d)) hs.1
      (follows_cons (.inr (.inl rfl)) rest)
    exact readElements_last hx (skipSpace_cons rfl rest)
  | x :: y :: xs =>
    obtain ⟨w, hcomma, hw⟩ := h.comma
    have hmore : writeElements style false (y :: xs) =
        ',' :: (w ++ writeElements style true (y :: xs)) := by
      rw [writeElements, if_neg Bool.false_ne_true, hcomma, writeElements, if_pos rfl, nil_append]
      rfl
    rw [writeElements, if_pos rfl, nil_append, hmore] at hn ⊢
    rw [length_append, length_cons, length_append] at hn
    have hx := readValue_write h x n d (by omega)
      (hd.trans' (Nat.add_le_add_left (Nat.le_max_left _ _) d)) hs.1
      (follows_cons (.inl rfl) ((w ++ writeElements style true (y :: xs)) ++ ']' :: rest))
    rw [append_assoc, cons_append, readElements_more hx (skipSpace_cons rfl _),
      append_assoc, readElements_space hw, readElements_write h (y :: xs) n d
      (cons_ne_nil y xs) (by omega)
      (hd.trans' (Nat.add_le_add_left (Nat.le_max_right _ _) d)) hs.2]
    rfl

theorem readMembers_write (h : style.Reads decode value) (fields : List (List Char × Json ν))
    (n d : ℕ) {rest : List Char} (hne : fields ≠ [])
    (hn : 2 * (writeMembers style true fields).length + 1 ≤ n)
    (hd : d + depthMembers fields ≤ maxDepth) (hs : SortedMembers fields) :
    readMembers decode maxDepth n d (writeMembers style true fields ++ '}' :: rest) =
      some (mapMembers value fields, rest) := by
  obtain ⟨n, rfl⟩ := Nat.exists_eq_succ_of_ne_zero (Nat.ne_of_gt (Nat.lt_of_lt_of_le
    (Nat.succ_pos _) hn))
  obtain ⟨u, hcolon, hu⟩ := h.colon
  match fields with
  | [] => exact absurd rfl hne
  | [(k, x)] =>
    rw [writeMembers, if_pos rfl, nil_append, writeMembers, append_nil, hcolon] at hn ⊢
    rw [length_append, length_append, length_cons] at hn
    have hx := readValue_write h x n d (by omega)
      (hd.trans' (Nat.add_le_add_left (Nat.le_max_left _ _) d)) hs.1
      (follows_cons (.inr (.inr rfl)) rest)
    rw [← readValue_space hu, ← append_assoc] at hx
    rw [append_assoc, append_assoc, cons_append, ← append_assoc u]
    exact readMembers_last hx (skipSpace_cons rfl rest)
  | (k, x) :: (k', y) :: fields =>
    obtain ⟨w, hcomma, hw⟩ := h.comma
    have hmore : writeMembers style false ((k', y) :: fields) =
        ',' :: (w ++ writeMembers style true ((k', y) :: fields)) := by
      rw [writeMembers, if_neg Bool.false_ne_true, hcomma, writeMembers, if_pos rfl, nil_append]
      rfl
    rw [writeMembers, if_pos rfl, nil_append, hmore, hcolon] at hn ⊢
    rw [length_append, length_append, length_append, length_cons, length_cons, length_append] at hn
    have hx := readValue_write h x n d (by omega)
      (hd.trans' (Nat.add_le_add_left (Nat.le_max_left _ _) d)) hs.1
      (follows_cons (.inl rfl) ((w ++ writeMembers style true ((k', y) :: fields)) ++ '}' :: rest))
    rw [← readValue_space hu, ← append_assoc] at hx
    have htext : quote k ++ (':' :: u ++ (write style x ++
        ',' :: (w ++ writeMembers style true ((k', y) :: fields)))) ++ '}' :: rest =
        quote k ++ ':' :: (u ++ write style x ++
          ',' :: (w ++ writeMembers style true ((k', y) :: fields) ++ '}' :: rest)) := by
      simp only [append_assoc, cons_append]
    rw [htext, readMembers_more hx (skipSpace_cons rfl _), append_assoc,
      readMembers_space hw, readMembers_write h ((k', y) :: fields) n d
      (cons_ne_nil _ fields) (by omega)
      (hd.trans' (Nat.add_le_add_left (Nat.le_max_right _ _) d)) hs.2]
    rfl

end

theorem read_write (h : style.Reads decode value) {v : Json ν} (hd : depth v ≤ maxDepth)
    (hs : Sorted v) : read decode maxDepth (write style v) = some (map value v) := by
  have hread : readValue decode maxDepth (2 * (write style v).length + 1) 0
      (write style v ++ []) = some (map value v, []) :=
    readValue_write h v _ 0 (Nat.le_succ _) (by rwa [Nat.zero_add]) hs nofun
  rw [append_nil] at hread
  unfold read
  rw [hread]
  rfl

end WriteRead

/-! ## §5  How deep a value nests that was read -/

section Limit

variable {decode : List Char → Option μ} {maxDepth : ℕ}

theorem depthMembers_le_iff {fields : List (List Char × Json μ)} {b : ℕ} :
    depthMembers fields ≤ b ↔ ∀ x ∈ fields, depth x.2 ≤ b := by
  induction fields with
  | nil => exact ⟨fun _ x hx => (not_mem_nil hx).elim, fun _ => Nat.zero_le b⟩
  | cons x fields ih => rw [depthMembers, Nat.max_le, ih, forall_mem_cons]

theorem setField_subset {β : Type} {k : List Char} {v : β} {fields : List (List Char × β)} :
    ∀ x ∈ setField k v fields, x = (k, v) ∨ x ∈ fields := by
  induction fields with
  | nil => exact fun x hx => .inl (mem_singleton.mp hx)
  | cons y fields ih =>
    intro x hx
    rw [setField] at hx
    split at hx
    · exact (mem_cons.mp hx).imp id id
    split at hx
    · exact (mem_cons.mp hx).imp id (mem_cons_of_mem y)
    · rcases mem_cons.mp hx with rfl | hx
      · exact .inr mem_cons_self
      · exact (ih x hx).imp id (mem_cons_of_mem y)

theorem setFields_subset {β : Type} (fields : List (List Char × β)) :
    ∀ x ∈ setFields fields, x ∈ fields := by
  have hgen : ∀ fields acc : List (List Char × β),
      ∀ x ∈ fields.foldl (fun m x => setField x.1 x.2 m) acc, x ∈ fields ∨ x ∈ acc := by
    intro fields
    induction fields with
    | nil => exact fun acc x hx => .inr hx
    | cons y fields ih =>
      intro acc x hx
      rcases ih _ x hx with hx | hx
      · exact .inl (mem_cons_of_mem y hx)
      · rcases setField_subset x hx with rfl | hx
        · exact .inl mem_cons_self
        · exact .inr hx
  intro x hx
  exact (hgen fields [] x hx).resolve_right not_mem_nil

theorem readWord_eq_some {word s t : List Char} {w x : Json μ}
    (h : readWord word w s = some (x, t)) : x = w ∧ s = word ++ t := by
  unfold readWord at h
  split at h
  · next hword =>
    obtain ⟨rest, rfl⟩ := hword
    rw [drop_left] at h
    obtain ⟨rfl, rfl⟩ := Prod.mk.inj (some.inj h)
    exact ⟨rfl, rfl⟩
  · cases h

/-- Values, elements and fields that are read with `n` of fuel keep the limit. -/
structure Limited (decode : List Char → Option μ) (maxDepth n : ℕ) : Prop where
  value : ∀ {d s x t}, d ≤ maxDepth → readValue decode maxDepth n d s = some (x, t) →
    d + depth x ≤ maxDepth
  elements : ∀ {d s xs t}, d ≤ maxDepth → readElements decode maxDepth n d s = some (xs, t) →
    d + depthElements xs ≤ maxDepth
  members : ∀ {d s fields t}, d ≤ maxDepth →
    readMembers decode maxDepth n d s = some (fields, t) → ∀ x ∈ fields, d + depth x.2 ≤ maxDepth

variable {n : ℕ} {d : ℕ} {s t : List Char}

theorem Limited.value_succ (ih : Limited decode maxDepth n) {x : Json μ} (hd : d ≤ maxDepth)
    (h : readValue decode maxDepth (n + 1) d s = some (x, t)) : d + depth x ≤ maxDepth := by
  have hscalar : ∀ {x : Json μ}, depth x = 0 → d + depth x ≤ maxDepth := fun hx => by
    rwa [hx, Nat.add_zero]
  rw [readValue] at h
  split at h
  · cases h
  split at h
  · obtain ⟨⟨y, t'⟩, -, hy⟩ := map_eq_some_iff.mp h
    obtain rfl := congrArg Prod.fst hy
    exact hscalar rfl
  split at h
  · split at h
    · cases h
    rename_i hlt
    split at h
    · obtain rfl := congrArg Prod.fst (some.inj h)
      show d + (0 + 1) ≤ maxDepth
      omega
    · obtain ⟨⟨xs, t'⟩, hxs, hy⟩ := map_eq_some_iff.mp h
      obtain rfl := congrArg Prod.fst hy
      have hle := ih.elements (Nat.not_le.mp hlt) hxs
      rw [depth]
      omega
  split at h
  · split at h
    · cases h
    rename_i hlt
    split at h
    · obtain rfl := congrArg Prod.fst (some.inj h)
      show d + (0 + 1) ≤ maxDepth
      omega
    obtain ⟨⟨fields, t'⟩, hfields, hy⟩ := map_eq_some_iff.mp h
    obtain rfl := congrArg Prod.fst hy
    have hle : depthMembers (setFields fields) ≤ maxDepth - (d + 1) :=
      depthMembers_le_iff.mpr fun y hy => by
        have := ih.members (Nat.not_le.mp hlt) hfields y (setFields_subset fields y hy)
        omega
    rw [depth]
    omega
  split at h
  · obtain ⟨hx, -⟩ := readWord_eq_some h
    exact hscalar (by rw [hx]; rfl)
  split at h
  · obtain ⟨hx, -⟩ := readWord_eq_some h
    exact hscalar (by rw [hx]; rfl)
  split at h
  · obtain ⟨hx, -⟩ := readWord_eq_some h
    exact hscalar (by rw [hx]; rfl)
  · split at h
    · cases h
    · obtain ⟨y, -, hy⟩ := map_eq_some_iff.mp h
      obtain rfl := congrArg Prod.fst hy
      exact hscalar rfl

theorem Limited.elements_succ (ih : Limited decode maxDepth n)
    {xs : List (Json μ)} (hd : d ≤ maxDepth)
    (h : readElements decode maxDepth (n + 1) d s = some (xs, t)) :
    d + depthElements xs ≤ maxDepth := by
  rw [readElements] at h
  split at h
  · cases h
  rename_i x s hx
  have hle := ih.value hd hx
  split at h
  · obtain ⟨⟨ys, t'⟩, hys, hy⟩ := map_eq_some_iff.mp h
    obtain rfl := congrArg Prod.fst hy
    have hles := ih.elements hd hys
    show d + max (depth x) (depthElements ys) ≤ maxDepth
    omega
  · obtain rfl := congrArg Prod.fst (some.inj h)
    show d + max (depth x) 0 ≤ maxDepth
    omega
  · cases h

theorem Limited.members_succ (ih : Limited decode maxDepth n)
    {fields : List (List Char × Json μ)} (hd : d ≤ maxDepth)
    (h : readMembers decode maxDepth (n + 1) d s = some (fields, t)) :
    ∀ x ∈ fields, d + depth x.2 ≤ maxDepth := by
  rw [readMembers] at h
  split at h
  · split at h
    · cases h
    split at h
    · split at h
      · cases h
      rename_i k _ x _ _ hx
      have hle := ih.value hd hx
      split at h
      · obtain ⟨⟨ys, t'⟩, hys, hy⟩ := map_eq_some_iff.mp h
        obtain rfl := congrArg Prod.fst hy
        exact forall_mem_cons.mpr ⟨hle, ih.members hd hys⟩
      · obtain rfl := congrArg Prod.fst (some.inj h)
        exact forall_mem_singleton.mpr hle
      · cases h
    · cases h
  · cases h

theorem limited (decode : List Char → Option μ) (maxDepth n : ℕ) : Limited decode maxDepth n := by
  induction n with
  | zero => exact ⟨nofun, nofun, nofun⟩
  | succ n ih => exact ⟨ih.value_succ, ih.elements_succ, ih.members_succ⟩

theorem read_depth {s : List Char} {x : Json μ} (h : read decode maxDepth s = some x) :
    depth x ≤ maxDepth := by
  unfold read at h
  split at h
  · next y rest hy =>
    split at h
    · obtain rfl := some.inj h
      have hle := (limited decode maxDepth _).value (Nat.zero_le maxDepth) hy
      rwa [Nat.zero_add] at hle
    · cases h
  · cases h

end Limit

end Json

end Ollama.Lib
