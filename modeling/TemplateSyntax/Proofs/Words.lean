import TemplateSyntax.Proofs.Extension

/-!
# Words and their tokens

A word is a token as a writer thinks of it, and can be written in several ways: a string with either
quote, a number with any digits that have its value. Behind blanks, and before something that keeps
it apart from what follows, the lexer finds a word again as one token.
-/
namespace TemplateSyntax

namespace Text

/-- The code points of the blanks. -/
def blankCodes : List Nat :=
  [0x9, 0xA, 0xB, 0xC, 0xD, 0x20, 0x85, 0xA0, 0x1680, 0x2000, 0x2001, 0x2002, 0x2003, 0x2004,
    0x2005, 0x2006, 0x2007, 0x2008, 0x2009, 0x200A, 0x2028, 0x2029, 0x202F, 0x205F, 0x3000]

theorem toNat_mem_of_isBlank {c : Char} (h : isBlank c = true) : c.toNat ∈ blankCodes := by
  simp only [isBlank, Bool.or_eq_true, Bool.and_eq_true, decide_eq_true_eq, beq_iff_eq] at h
  simp only [blankCodes, List.mem_cons, List.not_mem_nil, or_false]
  omega

/-- What can be checked of every blank holds of all of them. -/
theorem forall_isBlank {p : Char → Bool} (h : ∀ n ∈ blankCodes, p (Char.ofNat n) = true) {c : Char}
    (hc : isBlank c = true) : p c = true := by
  have hn := h c.toNat (toNat_mem_of_isBlank hc)
  rwa [Char.ofNat_toNat] at hn

/-- No name begins with a digit. -/
theorem startsIdentifier_of_isDigit {c : Char} (h : c.isDigit = true) :
    startsIdentifier c = false := by
  have hcode : 48 ≤ c.toNat ∧ c.toNat ≤ 57 := by
    simp only [Char.isDigit, Bool.and_eq_true, decide_eq_true_eq, ge_iff_le,
      UInt32.le_iff_toNat_le] at h
    exact h
  obtain ⟨hlow, hhigh⟩ := hcode
  rw [← Char.ofNat_toNat c]
  interval_cases c.toNat <;> decide

/-- A class of characters that leaves out both quotes holds no quote. -/
theorem Quoted.isQuote_eq_false {p : Char → Bool} (hp : p '"' = false ∧ p '\'' = false) {c : Char}
    (h : p c = true) : isQuote c = false := by
  by_contra hq
  simp only [isQuote, Bool.not_eq_false, Bool.or_eq_true, beq_iff_eq] at hq
  rcases hq with rfl | rfl
  · simp [hp.1] at h
  · simp [hp.2] at h

end Text

namespace Piece
variable {quotes : Bool} {c : Char}

theorem first_of_isDigit (hc : c.isDigit = true) (cs : List Char) :
    first quotes (c :: cs) = number (c :: cs) := by
  have hquote := Text.Quoted.isQuote_eq_false (p := Char.isDigit) (by decide) hc
  simp [first, hquote, hc]

theorem first_of_startsIdentifier (hc : Text.startsIdentifier c = true) (cs : List Char) :
    first quotes (c :: cs) = identifier c cs := by
  have hdigit : c.isDigit = false := by
    by_contra hd
    rw [Text.startsIdentifier_of_isDigit (by simpa using hd)] at hc
    cases hc
  have hquote := Text.Quoted.isQuote_eq_false (p := Text.startsIdentifier) (by decide) hc
  simp [first, hquote, hdigit, hc]

/-- No token begins with a blank. -/
theorem first_of_isBlank (hc : Text.isBlank c = true) (cs : List Char) :
    first quotes (c :: cs) = ⟨[c], .error .unexpectedCharacter⟩ := by
  have hquote : Text.Quoted.isQuote c = false := by
    simpa using Text.forall_isBlank (p := fun c => !Text.Quoted.isQuote c) (by decide) hc
  have hdigit : c.isDigit = false := by
    simpa using Text.forall_isBlank (p := fun c => !c.isDigit) (by decide) hc
  have hname : Text.startsIdentifier c = false := by
    simpa using Text.forall_isBlank (p := fun c => !Text.startsIdentifier c) (by decide +kernel) hc
  have hsymbol : Symbol.match? (c :: cs) = none := by
    refine List.find?_eq_none.mpr fun s _ hs => ?_
    have hhead : s.spelling.toList.head?.map Text.isBlank = some false := by
      cases s <;> decide
    obtain ⟨a, as, ha⟩ := List.exists_cons_of_ne_nil s.spelling_ne_nil
    rw [ha, List.isPrefixOf_cons_cons, Bool.and_eq_true, beq_iff_eq] at hs
    rw [ha, hs.1] at hhead
    simp [hc] at hhead
  simp [first, hquote, hdigit, hname, hsymbol]

/-- Where a token stands there is no blank. -/
theorem takeWhile_isBlank_of_first {cs : List Char} {t : Token}
    (h : (first quotes cs).token = .ok t) : cs.takeWhile Text.isBlank = [] := by
  cases cs with
  | nil => rfl
  | cons c cs =>
    by_cases hc : Text.isBlank c = true
    · rw [first_of_isBlank hc] at h
      cases h
    · simp [hc]

end Piece

/-- A name as the lexer reads one. -/
def IsIdentifier (name : String) : Prop :=
  ∃ c cs, name.toList = c :: cs ∧ Text.startsIdentifier c = true ∧
    ∀ d ∈ cs, Text.continuesIdentifier d = true

instance (name : String) : Decidable (IsIdentifier name) :=
  match h : name.toList with
  | [] => .isFalse fun ⟨_, _, hn, _⟩ => nomatch h.symm.trans hn
  | c :: cs =>
    decidable_of_iff (Text.startsIdentifier c = true ∧ cs.all Text.continuesIdentifier = true) <| by
      simp only [IsIdentifier, h, List.cons.injEq, List.all_eq_true]
      constructor
      · exact fun hall => ⟨c, cs, ⟨rfl, rfl⟩, hall⟩
      · rintro ⟨_, _, ⟨rfl, rfl⟩, hall⟩
        exact hall

/-- Keywords are read as names. -/
theorem Keyword.isIdentifier (k : Keyword) : IsIdentifier k.spelling := by
  cases k <;> decide +kernel

/-- A word of the language. -/
inductive Word where
  | symbol (s : Symbol)
  | name (name : String)
  | number (value : Number)
  /-- A string literal with this value. -/
  | text (value : String)
  deriving DecidableEq

namespace Word

/-- How a word may be written. A number is written as any literal that is read as that number, and
a string as any literal that has this value. -/
inductive WrittenAs : Word → List Char → Prop
  | symbol (s : Symbol) : WrittenAs (.symbol s) s.spelling.toList
  | name (name : String) : WrittenAs (.name name) name.toList
  | number {value : Number} {literal : List Char}
    (h : Piece.first true literal = ⟨literal, .ok (.number value)⟩) :
    WrittenAs (.number value) literal
  | text {value : String} {quote : Char} {inside : List Char} (hq : Text.Quoted.isQuote quote)
    (hc : Text.Quoted.Closes quote inside)
    (hd : Text.Quoted.decode quote inside = .ok value.toList) :
    WrittenAs (.text value) (quote :: inside)

/-- Every text is written between quotes of either kind, with its escapes. -/
theorem writtenAs_encode {quote : Char} (hq : Text.Quoted.isQuote quote) (value : String) :
    WrittenAs (.text value) (quote :: (Text.Quoted.encode quote value.toList ++ [quote])) := by
  refine .text hq ?_ (Text.Quoted.decode_encode hq value.toList [])
  induction value.toList with
  | nil => exact .close
  | cons c cs ih =>
    unfold Text.Quoted.encode
    split
    · next h =>
      refine .escape ?_ ih
      simp only [Bool.or_eq_true, decide_eq_true_eq] at h
      rcases h with rfl | rfl
      · simp
      · simp only [Text.Quoted.isQuote, Bool.or_eq_true, beq_iff_eq] at hq
        rcases hq with rfl | rfl <;> simp
    · next h =>
      simp only [Bool.or_eq_true, decide_eq_true_eq, not_or] at h
      exact .plain h.1 h.2 ih

/-- The words that the lexer knows how to tell from each other. -/
def Valid : Word → Prop
  | .symbol s => s ≠ .openBrace
  | .name n => IsIdentifier n
  | _ => True

/-- The token that a word is read as. -/
def ReadAs : Word → Token → Prop
  | .symbol s, t => t = .symbol s
  | .name n, t => t = .identifier n
  | .number value, t => t = .number value
  | .text value, t => ∃ raw, t = .string raw ∧
    ∀ span, Expression.stringValue raw span = pure (.string value span)

theorem ReadAs.eq_symbol {w : Word} {s : Symbol} (h : w.ReadAs (.symbol s)) : w = .symbol s := by
  cases w with
  | symbol => cases h; rfl
  | text =>
    obtain ⟨raw, h, -⟩ := h
    cases h
  | _ => cases h

theorem ReadAs.eq_name {w : Word} {name : String} (h : w.ReadAs (.identifier name)) :
    w = .name name := by
  cases w with
  | name => cases h; rfl
  | text =>
    obtain ⟨raw, h, -⟩ := h
    cases h
  | _ => cases h

/-- A written word is read as its token if it is all there is. -/
theorem WrittenAs.first {w : Word} {cs : List Char} (h : w.WrittenAs cs) (hw : w.Valid) :
    ∃ t, w.ReadAs t ∧ t.Firm ∧ Piece.first true cs = ⟨cs, .ok t⟩ := by
  cases h with
  | symbol s =>
    refine ⟨.symbol s, rfl, hw, ?_⟩
    cases s <;> rfl
  | name name =>
    refine ⟨.identifier name, rfl, trivial, ?_⟩
    obtain ⟨c, cs, hname, hc, hcs⟩ := hw
    have hrun : cs.takeWhile Text.continuesIdentifier = cs := List.takeWhile_eq_self_iff.mpr hcs
    rw [hname, Piece.first_of_startsIdentifier hc]
    simp [Piece.identifier, hrun, ← hname]
  | number h => exact ⟨_, rfl, trivial, h⟩
  | @text value quote inside hq hc hd =>
    have hraw : (String.ofList (quote :: inside)).toList = quote :: inside := String.toList_ofList
    refine ⟨.string (String.ofList (quote :: inside)), ⟨_, rfl, fun span => ?_⟩,
      ⟨quote, inside, hraw, hc⟩, ?_⟩
    · simp [Expression.stringValue, hd]
    · have hscan := Text.Quoted.scan_of_closes hq hc []
      rw [List.append_nil] at hscan
      simp [Piece.first, Piece.string, hq, hscan]

end Word

namespace Cursor

/-- The words stand from one cursor to the other. -/
inductive ReadsAll : List Word → Cursor → Cursor → Prop
  | nil {c : Cursor} : ReadsAll [] c c
  | cons {w : Word} {ws : List Word} {t : Token} {c d e : Cursor} (hr : c.Reads t d)
    (hw : w.ReadAs t) (h : ReadsAll ws d e) : ReadsAll (w :: ws) c e

theorem ReadsAll.of_append {vs ws : List Word} {c e : Cursor} (h : ReadsAll (vs ++ ws) c e) :
    ∃ d, ReadsAll vs c d ∧ ReadsAll ws d e := by
  induction vs generalizing c with
  | nil => exact ⟨c, .nil, h⟩
  | cons v vs ih =>
    cases h with
    | cons hr hw h =>
      obtain ⟨d, hd, he⟩ := ih h
      exact ⟨d, .cons hr hw hd, he⟩

/-- A written word is read behind blanks if a blank stands behind it or nothing. -/
theorem exists_reads_of_writtenAs {c : Cursor} {w : Word} {blanks cs v : List Char}
    (hc : c.rest = blanks ++ (cs ++ v)) (hb : ∀ b ∈ blanks, Text.isBlank b = true)
    (hw : w.WrittenAs cs) (hvalid : w.Valid) (hv : Apart v) :
    ∃ t d, c.Reads t d ∧ w.ReadAs t ∧ d.rest = v := by
  obtain ⟨t, ht, hfirm, hfirst⟩ := hw.first hvalid
  have hpiece := Piece.first_apart hfirst hfirm hv
  have hstart : (cs ++ v).takeWhile Text.isBlank = [] := by
    cases cs with
    | nil =>
      cases hfirst
      exact hfirm.elim
    | cons a cs =>
      by_cases ha : Text.isBlank a = true
      · rw [List.cons_append, Piece.first_of_isBlank ha] at hpiece
        cases hpiece
      · simp [ha]
  refine ⟨t, _, reads_of_first hc hb hstart hpiece, ht, ?_⟩
  simp only [past, hc, List.drop_left]

/-- The lexer finds all words of a text, one token for each. -/
theorem exists_readsAll {ws : List Word} {texts : List (List Char)}
    (hws : List.Forall₂ Word.WrittenAs ws texts) {w : Word} {text : List Char} {c : Cursor}
    (blanks : List Char) (hw : w.WrittenAs text) (hvalid : ∀ x ∈ w :: ws, x.Valid)
    (hb : ∀ b ∈ blanks, Text.isBlank b = true)
    (hc : c.rest = blanks ++ (text ++ texts.flatMap (' ' :: ·))) :
    ∃ d, ReadsAll (w :: ws) c d ∧ d.rest = [] := by
  induction hws generalizing w text blanks c with
  | nil =>
    obtain ⟨t, d, hr, ht, hd⟩ := exists_reads_of_writtenAs hc hb hw (hvalid w (by simp)) .nil
    exact ⟨d, .cons hr ht .nil, hd⟩
  | cons hw' _ ih =>
    obtain ⟨t, d, hr, ht, hd⟩ :=
      exists_reads_of_writtenAs hc hb hw (hvalid w (by simp)) (.blank _)
    obtain ⟨e, he, hrest⟩ := ih [' '] hw'
      (fun x hx => hvalid x (List.mem_cons_of_mem _ hx))
      (List.forall_mem_singleton.mpr (by decide)) hd
    exact ⟨e, .cons hr ht he, hrest⟩

end Cursor

end TemplateSyntax
