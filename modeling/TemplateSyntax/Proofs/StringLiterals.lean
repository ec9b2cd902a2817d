import TemplateSyntax.Proofs.Spelling

/-!
# String literals

Behind its opening quote a literal is a row of parts: characters that stand for themselves, and
backslashes, each with the character that it takes along. The lexer ends a literal behind the first
part that is its quote, whatever the backslashes take along; the decoder replaces the parts and
refuses a backslash that it does not know. Both of them find the same closing quote, and a literal
that is written for a text is one token and has that text as its value.
-/
namespace TemplateSyntax

namespace Text.Quoted

/-- A character that stands for itself, or a backslash with the character that it takes along. At
the end of a text there is none to take. -/
inductive Part where
  | plain (c : Char)
  | escape (escaped : Option Char)
  deriving DecidableEq

namespace Part

/-- How a part is written. -/
def chars : Part → List Char
  | plain c => [c]
  | escape escaped => '\\' :: escaped.toList

/-- A backslash stands before one of six characters. -/
def Known : Part → Prop
  | plain _ => True
  | escape escaped => ∃ c ∈ ['n', 'r', 't', '\\', '"', '\''], escaped = some c

/-- The character that a part stands for. -/
def value : Part → Char
  | plain c => c
  | escape (some 'n') => '\n'
  | escape (some 'r') => '\r'
  | escape (some 't') => '\t'
  | escape (some c) => c
  | escape none => '\\'

/-- The ways to write a character of a text between quotes. The quote and the backslash are
escaped, ends of lines and tabs may be. -/
inductive Writes (quote : Char) : Char → Part → Prop
  | plain {c : Char} (hb : c ≠ '\\') (hq : c ≠ quote) : Writes quote c (.plain c)
  | backslash : Writes quote '\\' (.escape (some '\\'))
  | quote : Writes quote quote (.escape (some quote))
  | newline : Writes quote '\n' (.escape (some 'n'))
  | carriageReturn : Writes quote '\r' (.escape (some 'r'))
  | tab : Writes quote '\t' (.escape (some 't'))

theorem escape?_isSome_iff_known (c : Char) : (escape? c).isSome ↔ (escape (some c)).Known := by
  rw [escape?_isSome_iff]
  simp [Known]

theorem eq_value_of_escape? {c d : Char} (h : escape? c = some d) :
    d = (escape (some c)).value := by
  unfold escape? at h
  split at h
  · cases h; rfl
  · cases h; rfl
  · cases h; rfl
  · next hn hr ht =>
    split at h
    · cases h
      rw [value]
      · exact fun hc => hn hc
      · exact fun hc => hr hc
      · exact fun hc => ht hc
    · cases h

end Part

/-- The parts of the characters behind an opening quote. -/
def parts : List Char → List Part
  | [] => []
  | '\\' :: [] => [.escape none]
  | '\\' :: c :: cs => .escape (some c) :: parts cs
  | c :: cs => .plain c :: parts cs

theorem parts_cons {c : Char} (hb : c ≠ '\\') (cs : List Char) :
    parts (c :: cs) = .plain c :: parts cs := by
  rw [parts]
  · exact fun h => absurd h hb
  · exact fun _ _ h => absurd h hb

/-- A character that the two cases of a backslash leave over is none. -/
theorem ne_backslash {c : Char} {cs : List Char} (hlast : c = '\\' → cs = [] → False)
    (hmore : ∀ d ds, c = '\\' → cs = d :: ds → False) : c ≠ '\\' := by
  intro hb
  cases cs with
  | nil => exact hlast hb rfl
  | cons d ds => exact hmore d ds hb rfl

/-- No character is lost. -/
theorem flatMap_chars_parts (cs : List Char) : (parts cs).flatMap Part.chars = cs := by
  fun_induction parts cs with
  | case1 => rfl
  | case2 => rfl
  | case3 c cs ih => simp [Part.chars, ih]
  | case4 c cs _ _ ih => simp [Part.chars, ih]

variable {quote : Char} {cs value : List Char}

theorem exists_of_map_eq_ok {c : Char} {r : Except Defect (List Char)}
    (h : r.map (c :: ·) = .ok value) : ∃ tail, r = .ok tail ∧ value = c :: tail := by
  cases r with
  | error e => cases h
  | ok tail =>
    cases h
    exact ⟨tail, rfl, rfl⟩

/-- What has a value has a quote, and the value is that of the parts before the first one. -/
theorem exists_parts_of_decode (h : decode quote cs = .ok value) :
    ∃ body behind, parts cs = body ++ .plain quote :: behind ∧ .plain quote ∉ body ∧
      (∀ p ∈ body, p.Known) ∧ value = body.map Part.value := by
  fun_induction decode quote cs generalizing value with
  | case1 => cases h
  | case2 => cases h
  | case3 c cs d hd ih =>
    obtain ⟨tail, htail, rfl⟩ := exists_of_map_eq_ok h
    obtain ⟨body, behind, hparts, hfree, hknown, rfl⟩ := ih htail
    refine ⟨.escape (some c) :: body, behind, ?_, by simpa using hfree, ?_, ?_⟩
    · rw [parts, hparts, List.cons_append]
    · have hc := (Part.escape?_isSome_iff_known c).mp (by simp [hd])
      exact List.forall_mem_cons.mpr ⟨hc, hknown⟩
    · rw [List.map_cons, ← Part.eq_value_of_escape? hd]
  | case4 c cs hd => cases h
  | case5 cs hb hb' =>
    cases h
    exact ⟨[], parts cs, parts_cons (ne_backslash hb hb') _, by simp, by simp, rfl⟩
  | case6 c cs hb hb' hq ih =>
    obtain ⟨tail, htail, rfl⟩ := exists_of_map_eq_ok h
    obtain ⟨body, behind, hparts, hfree, hknown, rfl⟩ := ih htail
    refine ⟨.plain c :: body, behind, ?_, ?_, ?_, rfl⟩
    · rw [parts_cons (ne_backslash hb hb') _, hparts, List.cons_append]
    · simpa [Ne.symm hq] using hfree
    · exact List.forall_mem_cons.mpr ⟨trivial, hknown⟩

/-- What is written with known escapes before a quote has a value. -/
theorem decode_of_parts {body behind : List Part}
    (hparts : parts cs = body ++ .plain quote :: behind) (hfree : .plain quote ∉ body)
    (hknown : ∀ p ∈ body, p.Known) : decode quote cs = .ok (body.map Part.value) := by
  fun_induction parts cs generalizing body with
  | case1 => simp at hparts
  | case2 => cases body <;> simp at hparts
  | case3 c cs ih =>
    cases body with
    | nil => simp at hparts
    | cons p body =>
      obtain ⟨rfl, hrest⟩ := List.cons.inj hparts
      obtain ⟨hc, hbody⟩ := List.forall_mem_cons.mp hknown
      obtain ⟨d, hd⟩ := Option.isSome_iff_exists.mp ((Part.escape?_isSome_iff_known c).mpr hc)
      rw [decode, hd, ih hrest (fun h => hfree (List.mem_cons_of_mem _ h)) hbody]
      simp [Except.map, Part.eq_value_of_escape? hd]
  | case4 c cs hlast hmore ih =>
    rw [decode_cons (ne_backslash hlast hmore)]
    cases body with
    | nil =>
      obtain ⟨hc, -⟩ := List.cons.inj hparts
      cases hc
      simp
    | cons p body =>
      obtain ⟨rfl, hrest⟩ := List.cons.inj hparts
      obtain ⟨-, hbody⟩ := List.forall_mem_cons.mp hknown
      have hc : c ≠ quote := by
        rintro rfl
        exact hfree (by simp)
      rw [if_neg hc, ih hrest (fun h => hfree (List.mem_cons_of_mem _ h)) hbody]
      rfl

/-- The lexer stops behind the first part that is the quote, or at the end of the text. -/
theorem exists_parts_scan (quote : Char) (cs : List Char) : ∃ body, .plain quote ∉ body ∧
    (parts (scan quote cs) = body ∨ parts (scan quote cs) = body ++ [.plain quote]) := by
  fun_induction scan quote cs with
  | case1 => exact ⟨[], by simp, .inl rfl⟩
  | case2 => exact ⟨[.escape none], by simp, .inl rfl⟩
  | case3 c cs ih =>
    obtain ⟨body, hfree, hparts⟩ := ih
    refine ⟨.escape (some c) :: body, by simpa using hfree, ?_⟩
    rw [parts]
    exact hparts.imp (congrArg _) (congrArg _)
  | case4 cs hlast hmore =>
    exact ⟨[], by simp, .inr (parts_cons (ne_backslash hlast hmore) [])⟩
  | case5 c cs hlast hmore hc ih =>
    obtain ⟨body, hfree, hparts⟩ := ih
    refine ⟨.plain c :: body, by simpa [Ne.symm hc] using hfree, ?_⟩
    rw [parts_cons (ne_backslash hlast hmore)]
    exact hparts.imp (congrArg _) (congrArg _)

theorem notMem_of_parts_scan {body : List Part}
    (hparts : parts (scan quote cs) = body ++ [.plain quote]) : .plain quote ∉ body := by
  obtain ⟨found, hfree, hfound | hfound⟩ := exists_parts_scan quote cs
  · intro h
    rw [← hfound, hparts] at hfree
    exact hfree (List.mem_append_left _ h)
  · rw [hparts] at hfound
    rwa [List.append_inj_left' hfound rfl]

/-- A literal that is found has a value if the last part of it is the quote and the escapes are
known. -/
theorem decode_scan_eq_ok_iff : decode quote (scan quote cs) = .ok value ↔
    ∃ body, parts (scan quote cs) = body ++ [.plain quote] ∧ (∀ p ∈ body, p.Known) ∧
      value = body.map Part.value := by
  obtain ⟨found, hfree, hfound⟩ := exists_parts_scan quote cs
  constructor
  · intro h
    obtain ⟨body, behind, hparts, -, hknown, hvalue⟩ := exists_parts_of_decode h
    rcases hfound with hfound | hfound
    · rw [hfound] at hparts
      exact absurd (hparts ▸ by simp) hfree
    · rw [hfound, List.append_cons_inj_of_notMem hfree (by simp)] at hparts
      obtain ⟨rfl, -, rfl⟩ := hparts
      exact ⟨found, hfound, hknown, hvalue⟩
  · rintro ⟨body, hparts, hknown, rfl⟩
    exact decode_of_parts hparts (notMem_of_parts_scan hparts) hknown

/-- What stands before a last part has the parts that are before it. -/
theorem exists_parts_of_parts_concat {body : List Part} {c : Char}
    (hparts : parts cs = body ++ [.plain c]) :
    ∃ before, cs = before ++ [c] ∧ parts before = body := by
  fun_induction parts cs generalizing body with
  | case1 => simp at hparts
  | case2 => cases body <;> simp at hparts
  | case3 d cs ih =>
    cases body with
    | nil => simp at hparts
    | cons p body =>
      obtain ⟨rfl, hrest⟩ := List.cons.inj hparts
      obtain ⟨before, rfl, rfl⟩ := ih hrest
      exact ⟨'\\' :: d :: before, rfl, rfl⟩
  | case4 d cs hlast hmore ih =>
    cases body with
    | nil =>
      obtain ⟨hd, htail⟩ := List.cons.inj hparts
      cases hd
      have hchars := flatMap_chars_parts cs
      rw [htail] at hchars
      exact ⟨[], by rw [← hchars]; rfl, rfl⟩
    | cons p body =>
      obtain ⟨rfl, hrest⟩ := List.cons.inj hparts
      obtain ⟨before, rfl, rfl⟩ := ih hrest
      exact ⟨d :: before, rfl, parts_cons (ne_backslash hlast hmore) before⟩

/-- What stands behind the first part that is the quote does not change where a literal ends. -/
theorem scan_append_of_parts {body behind : List Part}
    (hparts : parts cs = body ++ .plain quote :: behind) (hfree : .plain quote ∉ body)
    (v : List Char) : scan quote (cs ++ v) = body.flatMap Part.chars ++ [quote] := by
  fun_induction parts cs generalizing body with
  | case1 => simp at hparts
  | case2 => cases body <;> simp at hparts
  | case3 c cs ih =>
    cases body with
    | nil => simp at hparts
    | cons p body =>
      obtain ⟨rfl, hrest⟩ := List.cons.inj hparts
      have htail := ih hrest fun h => hfree (List.mem_cons_of_mem _ h)
      simp [scan, htail, Part.chars]
  | case4 c cs hlast hmore ih =>
    have hb := ne_backslash hlast hmore
    cases body with
    | nil =>
      obtain ⟨hc, -⟩ := List.cons.inj hparts
      cases hc
      simp [scan, hb]
    | cons p body =>
      obtain ⟨rfl, hrest⟩ := List.cons.inj hparts
      have hc : c ≠ quote := by
        rintro rfl
        exact hfree (by simp)
      have htail := ih hrest fun h => hfree (List.mem_cons_of_mem _ h)
      simp [scan, hb, hc, htail, Part.chars]

/-- A literal whose first quote of its kind is its last character is found whole. -/
theorem scan_append_of_closed {body : List Part} (hparts : parts cs = body ++ [.plain quote])
    (hfree : .plain quote ∉ body) (v : List Char) : scan quote (cs ++ v) = cs := by
  have hchars := flatMap_chars_parts cs
  rw [hparts, List.flatMap_append] at hchars
  rw [scan_append_of_parts hparts hfree v]
  exact hchars

/-- The decoder reads a literal through its last character: nothing that ends earlier has a
value. -/
theorem eq_of_isPrefix_of_decode {body : List Part} (hparts : parts cs = body ++ [.plain quote])
    (hfree : .plain quote ∉ body) {p : List Char} (hp : p <+: cs)
    (hd : decode quote p = .ok value) : p = cs := by
  obtain ⟨before, behind, hbefore, hbefore', -, -⟩ := exists_parts_of_decode hd
  refine hp.eq_of_length_le ?_
  obtain ⟨v, rfl⟩ := hp
  have hself := scan_append_of_closed hparts hfree []
  rw [List.append_nil] at hself
  have hwhole : p ++ v = before.flatMap Part.chars ++ [quote] := by
    rw [← scan_append_of_parts hbefore hbefore' v, hself]
  have hchars := flatMap_chars_parts p
  rw [hbefore, List.flatMap_append] at hchars
  rw [hwhole, ← hchars]
  simp [Part.chars]

namespace Part
variable {c : Char} {p : Part}

theorem Writes.known (hq : isQuote quote = true) (h : Writes quote c p) : p.Known := by
  simp only [isQuote, Bool.or_eq_true, beq_iff_eq] at hq
  cases h with
  | plain => trivial
  | quote => rcases hq with rfl | rfl <;> simp [Known]
  | _ => simp [Known]

theorem Writes.value_eq (hq : isQuote quote = true) (h : Writes quote c p) : p.value = c := by
  simp only [isQuote, Bool.or_eq_true, beq_iff_eq] at hq
  cases h with
  | quote => rcases hq with rfl | rfl <;> rfl
  | _ => rfl

theorem Writes.ne_plain (h : Writes quote c p) : p ≠ .plain quote := by
  cases h with
  | plain _ hc => exact fun h => hc (by cases h; rfl)
  | _ => simp

/-- A written part is found again, whatever is written behind it. -/
theorem Writes.parts_append (h : Writes quote c p) (v : List Char) :
    parts (p.chars ++ v) = p :: parts v := by
  cases h with
  | plain hb => exact parts_cons hb v
  | _ => rfl

end Part

section Written
variable {written : List Part}

theorem parts_of_writes (h : List.Forall₂ (Part.Writes quote) value written) (v : List Char) :
    parts (written.flatMap Part.chars ++ v) = written ++ parts v := by
  induction h with
  | nil => rfl
  | cons hp _ ih =>
    rw [List.flatMap_cons, List.append_assoc, hp.parts_append, ih, List.cons_append]

theorem exists_writes_of_mem (h : List.Forall₂ (Part.Writes quote) value written) {p : Part}
    (hp : p ∈ written) : ∃ c, Part.Writes quote c p := by
  induction h with
  | nil => simp at hp
  | cons hw _ ih =>
    rcases List.mem_cons.mp hp with rfl | hp
    · exact ⟨_, hw⟩
    · exact ih hp

theorem map_value_of_writes (hq : isQuote quote = true)
    (h : List.Forall₂ (Part.Writes quote) value written) : written.map Part.value = value := by
  induction h with
  | nil => rfl
  | cons hw _ ih => rw [List.map_cons, hw.value_eq hq, ih]

/-- What is written for a text, and the quote behind it, is closed, and its value is the text. -/
theorem closed_of_writes (hq : isQuote quote = true)
    (h : List.Forall₂ (Part.Writes quote) value written) :
    parts (written.flatMap Part.chars ++ [quote]) = written ++ [.plain quote] ∧
      .plain quote ∉ written ∧
      decode quote (written.flatMap Part.chars ++ [quote]) = .ok value := by
  have hne : quote ≠ '\\' := by
    rintro rfl
    exact absurd hq (by decide)
  have hparts : parts (written.flatMap Part.chars ++ [quote]) = written ++ [.plain quote] := by
    rw [parts_of_writes h, parts_cons hne, parts]
  have hfree : .plain quote ∉ written := by
    intro hmem
    obtain ⟨c, hc⟩ := exists_writes_of_mem h hmem
    exact hc.ne_plain rfl
  have hknown : ∀ p ∈ written, p.Known := by
    intro p hp
    obtain ⟨c, hc⟩ := exists_writes_of_mem h hp
    exact hc.known hq
  refine ⟨hparts, hfree, ?_⟩
  rw [decode_of_parts hparts hfree hknown, map_value_of_writes hq h]

/-- Encoding is one way to write a text, so every text has one. -/
theorem exists_writes_encode (quote : Char) (value : List Char) :
    ∃ written, List.Forall₂ (Part.Writes quote) value written ∧
      written.flatMap Part.chars = encode quote value := by
  induction value with
  | nil => exact ⟨[], .nil, rfl⟩
  | cons c cs ih =>
    obtain ⟨written, hw, hchars⟩ := ih
    unfold encode
    split
    · next h =>
      refine ⟨.escape (some c) :: written, .cons ?_ hw, by simp [Part.chars, hchars]⟩
      simp only [Bool.or_eq_true, decide_eq_true_eq] at h
      rcases h with rfl | rfl
      · exact .backslash
      · exact .quote
    · next h =>
      simp only [Bool.or_eq_true, decide_eq_true_eq, not_or] at h
      exact ⟨.plain c :: written, .cons (.plain h.1 h.2) hw, by simp [Part.chars, hchars]⟩

end Written
end Text.Quoted

namespace Piece

/-- A closed literal is a token, whatever follows it. -/
theorem first_of_closed {quote : Char} {inside : List Char} {body : List Text.Quoted.Part}
    (hq : Text.Quoted.isQuote quote = true)
    (hparts : Text.Quoted.parts inside = body ++ [.plain quote])
    (hfree : .plain quote ∉ body) (rest : List Char) :
    first true (quote :: inside ++ rest) =
      ⟨quote :: inside, .ok (.string (String.ofList (quote :: inside)))⟩ := by
  have hscan := Text.Quoted.scan_append_of_closed hparts hfree rest
  simp only [List.cons_append, first, hq, Bool.and_self, if_true, string, hscan]

end Piece

/-- A token with blanks before it, its span, and the cursor behind it. -/
theorem Cursor.next_of_first {c : Cursor} {t : Token} (blanks : List Char) {taken rest : List Char}
    (hr : c.rest = blanks ++ (taken ++ rest)) (hb : ∀ b ∈ blanks, Text.isBlank b = true)
    (hf : Piece.first true (taken ++ rest) = ⟨taken, .ok t⟩) :
    c.next true = (.ok ⟨t, ⟨c.position.advanceBy blanks,
      (c.position.advanceBy blanks).advanceBy taken⟩⟩,
        ⟨(c.position.advanceBy blanks).advanceBy taken, rest⟩) := by
  have hstart := Piece.takeWhile_isBlank_of_first (congrArg Piece.token hf)
  have hskip : c.skipBlanks = ⟨c.position.advanceBy blanks, taken ++ rest⟩ := by
    rw [skipBlanks_of_rest hr hb hstart, past_of_rest hr]
  simp only [next, hskip, hf, past, List.drop_left]

namespace Expression
open Text.Quoted

/-- A string has the value that the decoder finds behind its first quote. -/
theorem stringValue_eq_ok_iff {raw : String} {quote : Char} {inside : List Char}
    (hraw : raw.toList = quote :: inside) {span : Span} {s t : Reader} {e : Expression} :
    stringValue raw span s = .ok e t ↔ ∃ value,
      decode quote inside = .ok value ∧ e = .string (String.ofList value) span ∧ t = s := by
  unfold stringValue
  rw [hraw]
  dsimp only
  cases decode quote inside with
  | ok value =>
    constructor
    · intro h
      cases h
      exact ⟨value, rfl, rfl, rfl⟩
    · rintro ⟨_, ⟨⟩, rfl, rfl⟩
      rfl
  | error defect =>
    constructor
    · intro h
      cases defect <;> cases h
    · rintro ⟨_, ⟨⟩, -⟩

section Found
variable {raw : String} {quote : Char} {cs : List Char} {span : Span} {s t : Reader}
  {e : Expression}

/-- A literal that is found has a value exactly if it ends with its quote and its escapes are
known. -/
theorem exists_stringValue_iff (hraw : raw.toList = quote :: scan quote cs) :
    (∃ e t, stringValue raw span s = .ok e t) ↔
      (parts (scan quote cs)).getLast? = some (.plain quote) ∧
        ∀ p ∈ parts (scan quote cs), p.Known := by
  simp only [stringValue_eq_ok_iff hraw, decode_scan_eq_ok_iff]
  constructor
  · rintro ⟨_, _, _, ⟨body, hparts, hknown, -⟩, -, -⟩
    rw [hparts]
    refine ⟨by simp, ?_⟩
    intro p hp
    rcases List.mem_append.mp hp with hp | hp
    · exact hknown p hp
    · rw [List.mem_singleton.mp hp]
      trivial
  · rintro ⟨hlast, hknown⟩
    obtain ⟨body, hparts⟩ := List.getLast?_eq_some_iff.mp hlast
    refine ⟨_, s, _, ⟨body, hparts, ?_, rfl⟩, rfl, rfl⟩
    intro p hp
    exact hknown p (hparts ▸ List.mem_append_left _ hp)

/-- The decoder has read a literal through its last character, and its value is that of the parts
before it. -/
theorem eq_string_of_stringValue (hraw : raw.toList = quote :: scan quote cs)
    (h : stringValue raw span s = .ok e t) :
    (∀ p, p <+: scan quote cs → (∃ value, decode quote p = .ok value) → p = scan quote cs) ∧
      ∃ body, scan quote cs = body ++ [quote] ∧
        e = .string (String.ofList ((parts body).map Text.Quoted.Part.value)) span := by
  obtain ⟨value, hvalue, rfl, -⟩ := (stringValue_eq_ok_iff hraw).mp h
  obtain ⟨partsBefore, hparts, -, rfl⟩ := decode_scan_eq_ok_iff.mp hvalue
  obtain ⟨body, hbody, rfl⟩ := exists_parts_of_parts_concat hparts
  refine ⟨?_, body, hbody, rfl⟩
  rintro p hp ⟨v, hv⟩
  exact eq_of_isPrefix_of_decode hparts (notMem_of_parts_scan hparts) hp hv

end Found
end Expression

open Text.Quoted Expression in
/-- The lexer and the decoder agree on string literals. Of every string token that is read from a
text, the decoder finds a value exactly if the last part of the token is an unescaped quote like
its first character and each backslash stands before one of the six characters; then it has read
through the last character, and the value is what stands between the quotes with the escapes
replaced. And what is written for a text between two quotes, whatever follows it, is one token over
exactly that literal, and its value is the text. -/
theorem literals_read_as_written :
    (∀ (text raw : String) (c d : Cursor) (span : Span) (s : Reader),
      (Cursor.ofText text).Reaches c → c.next true = (.ok ⟨.string raw, span⟩, d) →
      span.slice? text = some raw ∧ ∃ quote inside, raw.toList = quote :: inside ∧
        isQuote quote = true ∧
        ((∃ e t, stringValue raw span s = .ok e t) ↔
          (parts inside).getLast? = some (.plain quote) ∧ ∀ p ∈ parts inside, p.Known) ∧
        ∀ e t, stringValue raw span s = .ok e t →
          (∀ p, p <+: inside → (∃ value, decode quote p = .ok value) → p = inside) ∧
          ∃ body, inside = body ++ [quote] ∧
            e = .string (String.ofList ((parts body).map Text.Quoted.Part.value)) span) ∧
    ∀ (quote : Char) (value : String) (written : List Text.Quoted.Part), isQuote quote = true →
      List.Forall₂ (Text.Quoted.Part.Writes quote) value.toList written →
      ∀ (c : Cursor) (literal rest : List Char),
        literal = quote :: (written.flatMap Text.Quoted.Part.chars ++ [quote]) →
        c.rest = literal ++ rest →
        c.next true = (.ok ⟨.string (String.ofList literal),
          ⟨c.position, c.position.advanceBy literal⟩⟩, ⟨c.position.advanceBy literal, rest⟩) ∧
        ∀ span, stringValue (String.ofList literal) span = pure (.string value span) := by
  constructor
  · intro text raw c d span s hc hnext
    have hread : Lexeme.IsReadIn text ⟨.string raw, span⟩ := ⟨c, hc, congrArg Prod.fst hnext⟩
    obtain ⟨taken, hslice, rfl, -⟩ := hread.exists_slice
    rw [String.ofList_toList] at hslice
    obtain ⟨quote, cs, hq, hraw⟩ := Cursor.Reads.exists_scan ⟨span, hnext⟩
    exact ⟨hslice, quote, scan quote cs, hraw, hq, exists_stringValue_iff hraw,
      fun _ _ => eq_string_of_stringValue hraw⟩
  · rintro quote value written hq hw c literal rest rfl hrest
    obtain ⟨hparts, hfree, hdecode⟩ := closed_of_writes hq hw
    constructor
    · exact Cursor.next_of_first [] hrest (by simp)
        (Piece.first_of_closed hq hparts hfree rest)
    · intro span
      simp [stringValue, hdecode]

/-- A literal with an escaped quote of its kind and an escaped tab, and a quote behind it. -/
theorem literals_read_as_written_contraction :
    let raw := "'it\\'s\\t'"
    let text := "'it\\'s\\t'\""
    let span : Span := ⟨.start, ⟨9, 1, 9⟩⟩
    (Cursor.ofText text).next true = (.ok ⟨.string raw, span⟩, ⟨⟨9, 1, 9⟩, ['"']⟩) ∧
      span.slice? text = some raw ∧
      (∃ e t, Expression.stringValue raw span ⟨.ofText text, none, 0⟩ = .ok e t) ∧
      ∀ span, Expression.stringValue raw span = pure (.string "it's\t" span) := by
  intro raw text span
  have hwritten : List.Forall₂ (Text.Quoted.Part.Writes '\'') "it's\t".toList
      [.plain 'i', .plain 't', .escape (some '\''), .plain 's', .escape (some 't')] :=
    .cons (.plain (by decide) (by decide)) (.cons (.plain (by decide) (by decide))
      (.cons .quote (.cons (.plain (by decide) (by decide)) (.cons .tab .nil))))
  obtain ⟨hnext, hvalue⟩ := literals_read_as_written.2 '\'' "it's\t" _ (by decide) hwritten
    (.ofText text) raw.toList ['"'] (by decide) (by decide)
  have hstop : (Cursor.ofText text).position.advanceBy raw.toList = ⟨9, 1, 9⟩ := by decide
  rw [String.ofList_toList] at hvalue
  rw [String.ofList_toList, hstop] at hnext
  obtain ⟨hslice, quote, inside, hraw, -, hiff, -⟩ := literals_read_as_written.1 text raw
    (.ofText text) _ span ⟨.ofText text, none, 0⟩ (.refl _) hnext
  refine ⟨hnext, hslice, hiff.mpr ?_, hvalue⟩
  have hinside : raw.toList = '\'' :: ['i', 't', '\\', '\'', 's', '\\', 't', '\''] := by decide
  rw [hinside] at hraw
  cases hraw
  refine ⟨by decide, ?_⟩
  simp [Text.Quoted.parts, Text.Quoted.Part.Known]

end TemplateSyntax
