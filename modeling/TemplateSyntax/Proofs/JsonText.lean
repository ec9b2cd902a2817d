import TemplateSyntax.Json

/-!
# JSON as a text

A JSON value is written without blanks. Of the two ways to write a number, the one for integers is
plain decimal digits; the one for floats is left open, but for what keeps numbers apart. What is
written of a value ends where the value ends: two values that begin one text are the same value, if
no number could go on behind them.
-/
namespace TemplateSyntax.Json

/-- What a number may be written with. -/
def isNumeral (c : Char) : Bool := c.isDigit || c == '.' || c == 'e' || c == '+' || c == '-'

/-- A way to write floats that can be read back. A float is not taken for an integer, since it has a
point or an exponent. -/
structure FloatText where
  chars : Binary64 → List Char
  readsBack : Function.Injective chars
  numeral : ∀ x, ∀ c ∈ chars x, isNumeral c = true
  marked : ∀ x, '.' ∈ chars x ∨ 'e' ∈ chars x

/-- The letter that stands for a character behind a backslash. -/
def letter? : Char → Option Char
  | '"' => some '"'
  | '\\' => some '\\'
  | '\x08' => some 'b'
  | '\x0c' => some 'f'
  | '\n' => some 'n'
  | '\r' => some 'r'
  | '\t' => some 't'
  | _ => none

/-- A character between quotes. A control character without a letter has its code there. -/
def escaped (c : Char) : List Char :=
  match letter? c with
  | some letter => ['\\', letter]
  | none =>
    if c.toNat < 32 then
      ['\\', 'u', '0', '0', (c.toNat / 16).digitChar, (c.toNat % 16).digitChar]
    else [c]

def quoted (s : String) : List Char := '"' :: (s.toList.flatMap escaped ++ ['"'])

/-- What stands before a part of an array or of an object. -/
def separator (first : Bool) : List Char := if first then [] else [',']

section Text
variable (floats : FloatText)

def numeral : Number → List Char
  | .integer n => Nat.toDigits 10 n
  | .float x => floats.chars x

mutual
/-- A value as a text. -/
def chars : Json → List Char
  | null => ['n', 'u', 'l', 'l']
  | bool true => ['t', 'r', 'u', 'e']
  | bool false => ['f', 'a', 'l', 's', 'e']
  | number n => numeral floats n
  | string s => quoted s
  | array items => '[' :: itemChars true items
  | object fields => '\x7b' :: fieldChars true fields
termination_by structural j => j
/-- The items of an array that are left to write, and its end. -/
def itemChars (first : Bool) : List Json → List Char
  | [] => [']']
  | item :: items => separator first ++ (chars item ++ itemChars false items)
termination_by structural items => items
/-- The fields of an object that are left to write, and its end. -/
def fieldChars (first : Bool) : List (String × Json) → List Char
  | [] => ['\x7d']
  | field :: fields => separator first ++ (pairChars field ++ fieldChars false fields)
termination_by structural fields => fields
def pairChars : String × Json → List Char
  | (name, value) => quoted name ++ ':' :: chars value
termination_by structural pair => pair
end

def text (j : Json) : String := String.ofList (chars floats j)

end Text

/-! Between quotes each character can be read back. -/

/-- The character that a letter behind a backslash stands for. -/
def ofLetter : Char → Char
  | 'b' => '\x08'
  | 'f' => '\x0c'
  | 'n' => '\n'
  | 'r' => '\r'
  | 't' => '\t'
  | c => c

def ofHex (c : Char) : Nat := if c.isDigit then c.toNat - '0'.toNat else c.toNat - 'a'.toNat + 10

/-- The first character of what is written between quotes, and what is written behind it. -/
def unescape : List Char → Option (Char × List Char)
  | '\\' :: 'u' :: '0' :: '0' :: high :: low :: cs =>
    some (Char.ofNat (16 * ofHex high + ofHex low), cs)
  | '\\' :: letter :: cs => some (ofLetter letter, cs)
  | c :: cs => some (c, cs)
  | [] => none

theorem ofHex_digitChar : ∀ n < 16, ofHex n.digitChar = n := by decide

theorem unescape_letter {c letter : Char} (h : letter? c = some letter) (cs : List Char) :
    unescape ('\\' :: letter :: cs) = some (c, cs) := by
  unfold letter? at h
  split at h <;> cases h <;> rfl

theorem unescape_plain {c : Char} (h : c ≠ '\\') (cs : List Char) :
    unescape (c :: cs) = some (c, cs) := by
  unfold unescape
  split <;> simp_all

theorem ne_of_letter?_eq_none {c : Char} (h : letter? c = none) : c ≠ '"' ∧ c ≠ '\\' := by
  constructor
  · rintro rfl
    cases h
  · rintro rfl
    cases h

theorem unescape_escaped (c : Char) (cs : List Char) :
    unescape (escaped c ++ cs) = some (c, cs) := by
  unfold escaped
  cases hletter : letter? c with
  | some letter => exact unescape_letter hletter cs
  | none =>
    dsimp only
    split
    · next hcontrol =>
      have hhigh := ofHex_digitChar (c.toNat / 16) (by omega)
      have hlow := ofHex_digitChar (c.toNat % 16) (by omega)
      have hcode : 16 * (c.toNat / 16) + c.toNat % 16 = c.toNat := Nat.div_add_mod ..
      simp only [List.cons_append, List.nil_append, unescape, hhigh, hlow, hcode, Char.ofNat_toNat]
    · exact unescape_plain (ne_of_letter?_eq_none hletter).2 cs

theorem escaped_append_inj {c d : Char} {x y : List Char}
    (h : escaped c ++ x = escaped d ++ y) : c = d ∧ x = y := by
  have hread := congrArg unescape h
  rw [unescape_escaped, unescape_escaped] at hread
  simpa using hread

/-- What is written between quotes does not begin with a quote. -/
theorem head?_escaped_ne (c : Char) (x : List Char) : (escaped c ++ x).head? ≠ some '"' := by
  unfold escaped
  cases hletter : letter? c with
  | some letter => simp
  | none =>
    dsimp only
    split
    · simp
    · simpa using (ne_of_letter?_eq_none hletter).1

theorem flatMap_escaped_append_inj {cs ds x y : List Char}
    (h : cs.flatMap escaped ++ '"' :: x = ds.flatMap escaped ++ '"' :: y) : cs = ds ∧ x = y := by
  induction cs generalizing ds with
  | nil =>
    cases ds with
    | nil => exact ⟨rfl, (List.cons.inj h).2⟩
    | cons d ds =>
      refine absurd ?_ (head?_escaped_ne d (ds.flatMap escaped ++ '"' :: y))
      rw [← List.append_assoc, ← List.flatMap_cons, ← h]
      rfl
  | cons c cs ih =>
    cases ds with
    | nil =>
      refine absurd ?_ (head?_escaped_ne c (cs.flatMap escaped ++ '"' :: x))
      rw [← List.append_assoc, ← List.flatMap_cons, h]
      rfl
    | cons d ds =>
      rw [List.flatMap_cons, List.flatMap_cons, List.append_assoc, List.append_assoc] at h
      obtain ⟨rfl, hrest⟩ := escaped_append_inj h
      obtain ⟨rfl, hxy⟩ := ih hrest
      exact ⟨rfl, hxy⟩

theorem quoted_append_inj {s t : String} {x y : List Char} (h : quoted s ++ x = quoted t ++ y) :
    s = t ∧ x = y := by
  have hinside : s.toList.flatMap escaped ++ '"' :: x = t.toList.flatMap escaped ++ '"' :: y := by
    simpa [quoted] using h
  obtain ⟨hst, hxy⟩ := flatMap_escaped_append_inj hinside
  exact ⟨String.toList_inj.mp hst, hxy⟩

/-! A number ends where a character follows that no number is written with. -/

variable {floats : FloatText} {j k : Json} {x y : List Char}

/-- No number goes on with these characters. -/
def EndsNumeral (x : List Char) : Prop := ∀ c ∈ x.head?, isNumeral c = false

theorem endsNumeral_nil : EndsNumeral [] := by simp [EndsNumeral]

theorem endsNumeral_cons {c : Char} (h : isNumeral c = false) : EndsNumeral (c :: x) := by
  simpa [EndsNumeral] using h

theorem isDigit_of_mem_numeral {n : Nat} {c : Char} (h : c ∈ numeral floats (.integer n)) :
    c.isDigit = true :=
  Nat.isDigit_of_mem_toDigits (by decide) (by decide) h

theorem isNumeral_of_mem {n : Number} {c : Char} (h : c ∈ numeral floats n) :
    isNumeral c = true := by
  cases n with
  | integer n => simp [isNumeral, isDigit_of_mem_numeral h]
  | float x => exact floats.numeral x c h

theorem numeral_ne_nil (floats : FloatText) (n : Number) : numeral floats n ≠ [] := by
  cases n with
  | integer n => exact Nat.toDigits_ne_nil
  | float x =>
    rcases floats.marked x with h | h
    · exact List.ne_nil_of_mem h
    · exact List.ne_nil_of_mem h

theorem numeral_integer_ne_float (n : Nat) (x : Binary64) :
    numeral floats (.integer n) ≠ numeral floats (.float x) := by
  intro h
  have hmarked : '.' ∈ numeral floats (.integer n) ∨ 'e' ∈ numeral floats (.integer n) := by
    rw [h]
    exact floats.marked x
  rcases hmarked with hc | hc
  · exact absurd (isDigit_of_mem_numeral hc) (by decide)
  · exact absurd (isDigit_of_mem_numeral hc) (by decide)

theorem numeral_injective : Function.Injective (numeral floats) := by
  intro m n h
  cases m with
  | integer m =>
    cases n with
    | integer n =>
      have hdigits : Nat.toDigits 10 m = Nat.toDigits 10 n := h
      have hmn : m = n := by
        calc m = Nat.ofDigitChars 10 (Nat.toDigits 10 m) 0 := Nat.ofDigitChars_ten_toDigits.symm
          _ = Nat.ofDigitChars 10 (Nat.toDigits 10 n) 0 := by rw [hdigits]
          _ = n := Nat.ofDigitChars_ten_toDigits
      rw [hmn]
    | float x => exact absurd h (numeral_integer_ne_float m x)
  | float x =>
    cases n with
    | integer n => exact absurd h.symm (numeral_integer_ne_float n x)
    | float y => rw [floats.readsBack h]

theorem takeWhile_numeral_append (n : Number) (hx : EndsNumeral x) :
    (numeral floats n ++ x).takeWhile isNumeral = numeral floats n := by
  rw [List.takeWhile_append_of_pos fun _ => isNumeral_of_mem]
  cases x with
  | nil => simp
  | cons c x => simp [hx c rfl]

theorem numeral_append_inj {m n : Number} (hx : EndsNumeral x) (hy : EndsNumeral y)
    (h : numeral floats m ++ x = numeral floats n ++ y) : m = n ∧ x = y := by
  have hchars : numeral floats m = numeral floats n := by
    rw [← takeWhile_numeral_append m hx, h, takeWhile_numeral_append n hy]
  rw [hchars] at h
  exact ⟨numeral_injective hchars, List.append_cancel_left h⟩

/-! What kind of value is written can be told from its first character. -/

/-- Kinds of values. The two truth values are of one kind, though they begin differently. -/
inductive Kind where
  | null | bool | number | string | array | object

def kind : Json → Kind
  | null => .null
  | bool _ => .bool
  | number _ => .number
  | string _ => .string
  | array _ => .array
  | object _ => .object

/-- The kind of value that is written with this first character, if any is. -/
def Kind.ofLead? : Char → Option Kind
  | 'n' => some null
  | 't' | 'f' => some bool
  | '"' => some string
  | '[' => some array
  | '\x7b' => some object
  | c => if isNumeral c then some number else none

theorem Kind.ofLead?_of_isNumeral {c : Char} (h : isNumeral c = true) :
    ofLead? c = some number := by
  unfold ofLead?
  split
  all_goals first | exact absurd h (by decide) | exact if_pos h

/-- The first character of a value tells its kind, whatever is written behind the value. -/
theorem lead (floats : FloatText) (j : Json) (x : List Char) :
    (chars floats j ++ x).head?.bind Kind.ofLead? = some j.kind := by
  cases j with
  | null => rfl
  | bool b => cases b <;> rfl
  | number n =>
    obtain ⟨c, cs, hn⟩ := List.exists_cons_of_ne_nil (numeral_ne_nil floats n)
    have hc : c ∈ numeral floats n := by simp [hn]
    rw [chars, hn]
    exact Kind.ofLead?_of_isNumeral (isNumeral_of_mem hc)
  | string s => rfl
  | array items => rfl
  | object fields => rfl

theorem kind_eq_of_append (h : chars floats j ++ x = chars floats k ++ y) : j.kind = k.kind := by
  have hlead : (chars floats j ++ x).head?.bind Kind.ofLead? =
      (chars floats k ++ y).head?.bind Kind.ofLead? := by rw [h]
  rw [lead, lead] at hlead
  exact Option.some.inj hlead

theorem endsNumeral_itemChars (items : List Json) :
    EndsNumeral (itemChars floats false items ++ x) := by
  cases items with
  | nil => exact endsNumeral_cons (by decide)
  | cons item items => exact endsNumeral_cons (by decide)

theorem endsNumeral_fieldChars (fields : List (String × Json)) :
    EndsNumeral (fieldChars floats false fields ++ x) := by
  cases fields with
  | nil => exact endsNumeral_cons (by decide)
  | cons field fields => exact endsNumeral_cons (by decide)

/-- No value begins as an array ends. -/
theorem itemChars_cons_ne (first : Bool) (item : Json) (items : List Json) :
    itemChars floats first (item :: items) ++ x ≠ ']' :: y := by
  intro h
  cases first with
  | false => cases (List.cons.inj h).1
  | true =>
    have hlead := lead floats item (itemChars floats false items ++ x)
    rw [itemChars, separator, if_pos rfl, List.nil_append, List.append_assoc] at h
    rw [h] at hlead
    cases hlead

/-- No name begins as an object ends. -/
theorem fieldChars_cons_ne (first : Bool) (field : String × Json)
    (fields : List (String × Json)) :
    fieldChars floats first (field :: fields) ++ x ≠ '\x7d' :: y := by
  intro h
  obtain ⟨name, value⟩ := field
  cases first with
  | false => cases (List.cons.inj h).1
  | true => cases (List.cons.inj h).1

mutual
/-- A text is cut behind its first value in one way only. What is written behind an item or a field
is a separator or an end, so that a number there ends where it should. -/
theorem chars_append_inj : ∀ {j k : Json} {x y : List Char}, EndsNumeral x → EndsNumeral y →
    chars floats j ++ x = chars floats k ++ y → j = k ∧ x = y
  | null, k, x, y, _, _, h => by
    cases k with
    | null => exact ⟨rfl, List.append_cancel_left h⟩
    | _ => cases kind_eq_of_append h
  | bool b, k, x, y, _, _, h => by
    cases k with
    | bool c => cases b <;> cases c <;> simp_all [chars]
    | _ => cases kind_eq_of_append h
  | number m, k, x, y, hx, hy, h => by
    cases k with
    | number n =>
      obtain ⟨rfl, hxy⟩ := numeral_append_inj hx hy h
      exact ⟨rfl, hxy⟩
    | _ => cases kind_eq_of_append h
  | string s, k, x, y, _, _, h => by
    cases k with
    | string t =>
      obtain ⟨rfl, hxy⟩ := quoted_append_inj h
      exact ⟨rfl, hxy⟩
    | _ => cases kind_eq_of_append h
  | array items, k, x, y, _, _, h => by
    cases k with
    | array others =>
      obtain ⟨rfl, hxy⟩ := itemChars_append_inj (List.cons.inj h).2
      exact ⟨rfl, hxy⟩
    | _ => cases kind_eq_of_append h
  | object fields, k, x, y, _, _, h => by
    cases k with
    | object others =>
      obtain ⟨rfl, hxy⟩ := fieldChars_append_inj (List.cons.inj h).2
      exact ⟨rfl, hxy⟩
    | _ => cases kind_eq_of_append h
theorem itemChars_append_inj : ∀ {first : Bool} {items others : List Json} {x y : List Char},
    itemChars floats first items ++ x = itemChars floats first others ++ y →
      items = others ∧ x = y
  | _, [], [], x, y, h => ⟨rfl, List.append_cancel_left h⟩
  | first, [], other :: others, x, y, h =>
    absurd h.symm (itemChars_cons_ne first other others)
  | first, item :: items, [], x, y, h =>
    absurd h (itemChars_cons_ne first item items)
  | first, item :: items, other :: others, x, y, h => by
    simp only [itemChars, List.append_assoc] at h
    obtain ⟨rfl, hitems⟩ := chars_append_inj (endsNumeral_itemChars items)
      (endsNumeral_itemChars others) (List.append_cancel_left h)
    obtain ⟨rfl, hxy⟩ := itemChars_append_inj hitems
    exact ⟨rfl, hxy⟩
theorem fieldChars_append_inj : ∀ {first : Bool} {fields others : List (String × Json)}
    {x y : List Char}, fieldChars floats first fields ++ x = fieldChars floats first others ++ y →
      fields = others ∧ x = y
  | _, [], [], x, y, h => ⟨rfl, List.append_cancel_left h⟩
  | first, [], other :: others, x, y, h =>
    absurd h.symm (fieldChars_cons_ne first other others)
  | first, field :: fields, [], x, y, h =>
    absurd h (fieldChars_cons_ne first field fields)
  | first, field :: fields, other :: others, x, y, h => by
    simp only [fieldChars, List.append_assoc] at h
    obtain ⟨rfl, hfields⟩ := pairChars_append_inj (endsNumeral_fieldChars fields)
      (endsNumeral_fieldChars others) (List.append_cancel_left h)
    obtain ⟨rfl, hxy⟩ := fieldChars_append_inj hfields
    exact ⟨rfl, hxy⟩
theorem pairChars_append_inj : ∀ {pair other : String × Json} {x y : List Char}, EndsNumeral x →
    EndsNumeral y → pairChars floats pair ++ x = pairChars floats other ++ y →
      pair = other ∧ x = y
  | (name, value), (name', value'), x, y, hx, hy, h => by
    simp only [pairChars, List.append_assoc, List.cons_append] at h
    obtain ⟨rfl, hvalue⟩ := quoted_append_inj h
    obtain ⟨rfl, hxy⟩ := chars_append_inj hx hy (List.cons.inj hvalue).2
    exact ⟨rfl, hxy⟩
end

/-- Values are told apart by their texts. -/
@[simp] theorem text_inj : text floats j = text floats k ↔ j = k := by
  constructor
  · intro h
    have hchars : chars floats j ++ [] = chars floats k ++ [] := by
      rw [String.ofList_injective h]
    exact (chars_append_inj endsNumeral_nil endsNumeral_nil hchars).1
  · rintro rfl
    rfl

example : text floats (object [("a", array [null, bool true, string "\n"])]) =
    "\x7b\"a\":[null,true,\"\\n\"]\x7d" := rfl

end TemplateSyntax.Json
