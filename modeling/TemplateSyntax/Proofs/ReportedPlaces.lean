import TemplateSyntax.Proofs.FaultReports
import TemplateSyntax.Proofs.FloatLayout
import TemplateSyntax.Proofs.Pictures

/-!
# The places that the two forms of a diagnostic name

Both forms of a diagnostic name the line and the column where its span starts. The short form counts
the characters before the start, the full form the columns that these take where the line is shown.
So the forms name one place exactly if there are as many columns as characters. That is so if no
character has a code above that of the no-break space, and the start is shown.
-/
namespace TemplateSyntax

namespace Text
variable {cs : List Char}

/-- Characters up to the no-break space take a column each. -/
theorem measure_of_plain (h : ∀ c ∈ cs, c.toNat ≤ 0xA0 ∧ c ≠ '\n') :
    measure cs = ((cs.length : Int), {}) := by
  induction cs with
  | nil => rfl
  | cons c cs ih =>
    obtain ⟨hcode, hline⟩ := h c (by simp)
    have hbehind := ih fun d hd => h d (by simp [hd])
    have hwidth : charWidth c {} = (1, {}) := by
      simp [charWidth, hcode, hline]
    simp only [measure, hbehind, hwidth, List.length_cons]
    push_cast
    rw [add_comm]

theorem width_of_plain (h : ∀ c ∈ cs, c.toNat ≤ 0xA0 ∧ c ≠ '\n') : width cs = cs.length := by
  rw [width, measure_of_plain h, Int.toNat_natCast]

end Text

/-- A line and a column as they are shown, both counted from 1. -/
def placeText (line column : Nat) : List Char :=
  Nat.toDigits 10 line ++ ':' :: Nat.toDigits 10 (column + 1)

theorem placeText_inj {line a b : Nat} : placeText line a = placeText line b ↔ a = b := by
  refine ⟨fun h => ?_, fun h => h ▸ rfl⟩
  have hdigits := (List.cons.inj (List.append_cancel_left h)).2
  have hvalue := congrArg Number.ofDigits hdigits
  rw [Decimal.ofDigits_toDigits, Decimal.ofDigits_toDigits] at hvalue
  omega

/-- A place is read up to what is no part of one. -/
theorem takeWhile_placeText {d : Char} (hd : d.isDigit = false ∧ d ≠ ':') (line column : Nat)
    (behind : List Char) :
    (placeText line column ++ d :: behind).takeWhile (· != d) = placeText line column := by
  refine Text.takeWhile_append_mark ?_ (by simp)
  intro hmem
  rcases List.mem_append.mp hmem with hmem | hmem
  · exact (Decimal.allDigits_toDigits line).notMem hd.1 hmem
  · rcases List.mem_cons.mp hmem with hmem | hmem
    · exact hd.2 hmem
    · exact (Decimal.allDigits_toDigits (column + 1)).notMem hd.1 hmem

theorem toList_place (line column : Nat) :
    (toString line ++ ":" ++ toString (column + 1)).toList = placeText line column := by
  change (line.repr ++ ":" ++ (column + 1).repr).toList = _
  rw [String.toList_append, String.toList_append, Decimal.toList_repr, Decimal.toList_repr,
    List.append_assoc]
  rfl

theorem drop_toList_append (a b : String) : (a ++ b).toList.drop a.length = b.toList := by
  rw [String.toList_append, ← String.length_toList, List.drop_left]

namespace Diagnostic

/-- The name of a template as the short form shows it. -/
def shortName (d : Diagnostic) : String :=
  match d.name with
  | some name => name ++ ":"
  | none => ""

/-- The line and the column that the short form names first, behind the name of the template. -/
def shortPlace (d : Diagnostic) : List Char :=
  (d.short.toList.drop (d.heading ++ " at " ++ d.shortName).length).takeWhile (· != '-')

/-- The line and the column that the full form names behind its arrow and the name of the
template. -/
def fullPlace (d : Diagnostic) : List Char :=
  let picture := (d.full.toList.drop d.heading.length).dropWhile (· != '>')
  (picture.drop ("> " ++ d.name.getD "?" ++ ":").length).takeWhile (· != '\n')

variable {d : Diagnostic}

theorem shortPlace_eq {span : Span} (h : d.span = some span) :
    d.shortPlace = placeText span.start.line span.start.column := by
  have hshort : d.short = d.heading ++ " at " ++ d.shortName ++ toString span := by
    unfold short shortName
    cases hname : d.name with
    | none => simp only [h, String.append_assoc, String.empty_append]
    | some name => simp only [h, String.append_assoc]
  have hspan : (toString span).toList = placeText span.start.line span.start.column ++
      '-' :: (toString span.stop).toList := by
    rw [← toList_place]
    change (toString span.start ++ "-" ++ toString span.stop).toList = _
    rw [String.toList_append, String.toList_append, List.append_assoc]
    rfl
  rw [shortPlace, hshort, drop_toList_append, hspan, takeWhile_placeText (by decide)]

/-- The first line of a picture, up to the place. -/
theorem toList_render_eq (picture : Picture) (name help : Option String) :
    ∃ tail, (picture.render name help).toList =
      ("\n " ++ Picture.repeated (toString (picture.line + 1)).length ' ' ++ "--").toList ++
        (("> " ++ name.getD "?" ++ ":").toList ++
          (placeText (picture.line + 1) picture.column ++ '\n' :: tail)) := by
  obtain ⟨bottom, hrender⟩ := picture.exists_render_eq name help
  have harrow : "--> " = "--" ++ "> " := rfl
  have hplace : name.getD "?" ++ ":" ++ toString (picture.line + 1) ++ ":" ++
      toString (picture.column + 1) = name.getD "?" ++ ":" ++
        String.ofList (placeText (picture.line + 1) picture.column) := by
    rw [← toList_place, String.ofList_toList]
    simp only [String.append_assoc]
  rw [hrender, harrow, hplace]
  simp only [String.toList_append, String.toList_ofList, List.append_assoc]
  exact ⟨_, rfl⟩

theorem fullPlace_eq {picture : Picture} (h : d.picture = some picture) :
    d.fullPlace = placeText (picture.line + 1) picture.column := by
  obtain ⟨tail, hrender⟩ := toList_render_eq picture d.name d.help
  have hfull : d.full = d.heading ++ picture.render d.name d.help := by simp only [full, h]
  have hmargin : '>' ∉ ("\n " ++ Picture.repeated (toString (picture.line + 1)).length ' ' ++
      "--").toList := by
    simp [Picture.repeated]
  have hmark : ∀ c ∈ (("> " ++ d.name.getD "?" ++ ":").toList ++
      (placeText (picture.line + 1) picture.column ++ '\n' :: tail)).head?, c = '>' := by
    simp [String.toList_append]
  unfold fullPlace
  dsimp only
  rw [hfull, drop_toList_append, hrender, Text.dropWhile_append_mark hmargin hmark,
    ← String.length_toList, List.drop_left, takeWhile_placeText (by decide)]

end Diagnostic

/-- What is reported of a text points to a part of the text. -/
theorem exists_report_of_compile {text : String} {name : Option String} {d : Diagnostic}
    (h : compile text name = .error d) :
    ∃ pre covered rest, text.toList = pre ++ (covered ++ rest) ∧
      let span : Span := ⟨Position.start.advanceBy pre, Position.start.advanceBy (pre ++ covered)⟩
      d.span = some span ∧ d.picture = some (.ofSpan text span) := by
  obtain ⟨-, hreports⟩ := Session.generate_reports (Session.reads_start text name) rfl
  obtain ⟨f, rfl, hblames⟩ := hreports d h
  obtain ⟨covered, pre, rest, htext, hspan⟩ := hblames.faithful.cutsOut
  refine ⟨pre, covered, rest, by rw [htext, List.append_assoc], ?_, ?_⟩
  · rw [← hspan]
    rfl
  · rw [← hspan]
    rfl

/-- Both forms of the diagnostic of a text name the line on which its span starts. The short form
names the number of characters before the start, and the full form the columns that these take, as
far as they are shown. The two are the same if these are characters up to the no-break space, and
the span does not start among the carriage returns at the end of its line. -/
theorem compile_error_places (text : String) (name : Option String) (d : Diagnostic)
    (h : compile text name = .error d) :
    ∃ pre post, text.toList = pre ++ post ∧
      d.span.map Span.start = some (Position.start.advanceBy pre) ∧ Nonempty (LineAt pre post) ∧
      ∀ line : LineAt pre post,
        let number := line.above.count '\n' + 1
        let columns := Text.width (line.shown.take line.before.length)
        d.shortPlace = placeText number line.before.length ∧
        d.fullPlace = placeText number columns ∧
        (d.fullPlace = d.shortPlace ↔ columns = line.before.length) ∧
        ((∀ c ∈ line.before, c.toNat ≤ 0xA0) → line.before.length ≤ line.shown.length →
          d.fullPlace = d.shortPlace) := by
  obtain ⟨pre, covered, rest, htext, hspan, hpicture⟩ := exists_report_of_compile h
  refine ⟨pre, covered ++ rest, htext, by rw [hspan]; rfl, ⟨Text.lineAround _ _⟩, ?_⟩
  intro line number columns
  have hshort : d.shortPlace = placeText number line.before.length := by
    rw [Diagnostic.shortPlace_eq hspan, line.line_start, line.column_start]
  have hfull : d.fullPlace = placeText number columns := by
    rw [Diagnostic.fullPlace_eq hpicture, Picture.ofSpan_eq htext line]
  have hiff : d.fullPlace = d.shortPlace ↔ columns = line.before.length := by
    rw [hshort, hfull, placeText_inj]
  refine ⟨hshort, hfull, hiff, fun hplain hlength => hiff.mpr ?_⟩
  have hshown : line.shown.take line.before.length = line.before := by
    have htake := congrArg (List.take line.before.length) line.line_eq
    rw [List.take_left, List.take_append_of_le_length hlength] at htake
    exact htake.symm
  change Text.width _ = _
  rw [hshown, Text.width_of_plain]
  exact fun c hc => ⟨hplain c hc, ne_of_mem_of_not_mem hc line.before_notMem⟩

/-- Behind four characters, one of them a tab, both forms name the fifth column of the second
line. -/
theorem compile_error_places_plain :
    let text := "a\n\t\x7b\x7b @"
    ∃ d pre post, ∃ line : LineAt pre post, compile text = .error d ∧ text.toList = pre ++ post ∧
      d.shortPlace = ['2', ':', '5'] ∧ d.fullPlace = ['2', ':', '5'] ∧
      d.shortPlace = placeText (line.above.count '\n' + 1) line.before.length ∧
      Text.width (line.shown.take line.before.length) = line.before.length := by
  intro text
  let fault : Fault := ⟨.unexpectedCharacter, ⟨⟨6, 2, 4⟩, ⟨7, 2, 5⟩⟩⟩
  have hd : compile text none = .error (fault.report text none) := by decide +kernel
  have hshort : (fault.report text none).shortPlace = ['2', ':', '5'] := by decide +kernel
  have hfull : (fault.report text none).fullPlace = ['2', ':', '5'] := by decide +kernel
  obtain ⟨pre, post, htext, -, ⟨line⟩, hplaces⟩ := compile_error_places text none _ hd
  obtain ⟨hplace, -, hiff, -⟩ := hplaces line
  exact ⟨_, pre, post, line, hd, htext, hshort, hfull, hplace, hiff.mp (hfull.trans hshort.symm)⟩

/-- Behind a wide character the two forms name different columns. -/
theorem not_compile_error_places_eq :
    ¬ ∀ text name d, compile text name = .error d → d.fullPlace = d.shortPlace := by
  intro h
  let fault : Fault := ⟨.unexpectedCharacter, ⟨⟨6, 1, 4⟩, ⟨7, 1, 5⟩⟩⟩
  have hd : compile "日\x7b\x7b @" none = .error (fault.report "日\x7b\x7b @" none) := by
    decide +kernel
  exact absurd (h _ _ _ hd) (by decide +kernel)

end TemplateSyntax
