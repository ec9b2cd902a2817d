import TemplateSyntax.Diagnostic.Picture
import TemplateSyntax.Proofs.Spelling

/-!
# Pictures show what spans cover

A place in a text lies on one line of it. The picture of a span shows the line on which the span
starts, without carriage returns at its end. Its carets stand below what the span covers on that
line: before them are as many columns as the characters before the span take. A picture can be drawn
of any span, also of one that is no part of the source.
-/
namespace TemplateSyntax

/-- The line of a text that holds the place between two parts of the text. -/
structure LineAt (pre post : List Char) where
  /-- The lines above, with the line feed that ends each. -/
  above : List Char
  before : List Char
  behind : List Char
  /-- The lines below, with the line feed before each. -/
  below : List Char
  /-- The line, as far as it is shown. -/
  shown : List Char
  returns : List Char
  pre_eq : pre = above ++ before
  post_eq : post = behind ++ below
  above_ends : ∀ c ∈ above.getLast?, c = '\n'
  below_begins : ∀ c ∈ below.head?, c = '\n'
  before_notMem : '\n' ∉ before
  behind_notMem : '\n' ∉ behind
  line_eq : before ++ behind = shown ++ returns
  returns_eq : ∀ c ∈ returns, c = '\r'
  shown_ends : ∀ c ∈ shown.getLast?, c ≠ '\r'

namespace Text
variable {cs : List Char} {n : Nat}

theorem notMem_takeWhile (d : Char) (cs : List Char) : d ∉ cs.takeWhile (· != d) := fun h => by
  simpa using List.mem_takeWhile_imp h

theorem head?_dropWhile (d : Char) (cs : List Char) :
    ∀ c ∈ (cs.dropWhile (· != d)).head?, c = d := by
  intro c hc
  have hnot := List.head?_dropWhile_not (· != d) cs
  rw [Option.mem_def.mp hc] at hnot
  simpa using hnot

/-- Every place in a text lies on a line. -/
def lineAround (pre post : List Char) : LineAt pre post where
  above := (pre.reverse.dropWhile (· != '\n')).reverse
  before := (pre.reverse.takeWhile (· != '\n')).reverse
  behind := post.takeWhile (· != '\n')
  below := post.dropWhile (· != '\n')
  shown := trimReturns ((pre.reverse.takeWhile (· != '\n')).reverse ++ post.takeWhile (· != '\n'))
  returns := (((pre.reverse.takeWhile (· != '\n')).reverse ++
    post.takeWhile (· != '\n')).reverse.takeWhile (· == '\r')).reverse
  pre_eq := by
    rw [← List.reverse_append, List.takeWhile_append_dropWhile, List.reverse_reverse]
  post_eq := List.takeWhile_append_dropWhile.symm
  above_ends := by
    rw [List.getLast?_reverse]
    exact head?_dropWhile '\n' _
  below_begins := head?_dropWhile '\n' _
  before_notMem := by
    rw [List.mem_reverse]
    exact notMem_takeWhile '\n' _
  behind_notMem := notMem_takeWhile '\n' _
  line_eq := by
    rw [trimReturns, ← List.reverse_append, List.takeWhile_append_dropWhile, List.reverse_reverse]
  returns_eq := by
    intro c hc
    simpa using List.mem_takeWhile_imp (List.mem_reverse.mp hc)
  shown_ends := by
    intro c hc
    rw [trimReturns, List.getLast?_reverse] at hc
    have hnot := List.head?_dropWhile_not (· == '\r')
      ((pre.reverse.takeWhile (· != '\n')).reverse ++ post.takeWhile (· != '\n')).reverse
    rw [Option.mem_def.mp hc] at hnot
    simpa using hnot

theorem dropLines_succ_of_ne {c : Char} (hc : c ≠ '\n') (n : Nat) (cs : List Char) :
    dropLines (n + 1) (c :: cs) = dropLines (n + 1) cs := by
  simp [dropLines, hc]

theorem dropLines_succ_newline (n : Nat) (cs : List Char) :
    dropLines (n + 1) ('\n' :: cs) = dropLines n cs := by
  simp [dropLines]

/-- As many lines are dropped as line feeds are counted. -/
theorem dropLines_append {above : List Char} (h : ∀ c ∈ above.getLast?, c = '\n')
    (cs : List Char) : dropLines (above.count '\n') (above ++ cs) = cs := by
  induction above with
  | nil => rfl
  | cons c above ih =>
    by_cases hc : c = '\n'
    · subst hc
      have hrest : ∀ c ∈ above.getLast?, c = '\n' := by
        intro c hlast
        refine h c ?_
        cases above with
        | nil => cases hlast
        | cons d above => rwa [List.getLast?_cons_cons]
      rw [List.count_cons_self, List.cons_append, dropLines_succ_newline, ih hrest]
    · -- The line is ended by a line feed that is still to come.
      cases above with
      | nil => exact absurd (h c rfl) hc
      | cons d above =>
        rw [List.getLast?_cons_cons] at h
        have hmem : '\n' ∈ d :: above := by
          have hlast := List.getLast?_eq_some_getLast (List.cons_ne_nil d above)
          rw [← h _ hlast]
          exact List.getLast_mem _
        obtain ⟨n, hn⟩ := Nat.exists_eq_succ_of_ne_zero (List.count_pos_iff.mpr hmem).ne'
        have hdrop := ih h
        rw [hn] at hdrop
        rw [List.count_cons_of_ne hc, hn, List.cons_append, dropLines_succ_of_ne hc, hdrop]

theorem lineAt_append {above line below : List Char} (h : ∀ c ∈ above.getLast?, c = '\n')
    (hline : '\n' ∉ line) (hbelow : ∀ c ∈ below.head?, c = '\n') :
    lineAt (above.count '\n') (above ++ (line ++ below)) = line := by
  rw [lineAt, dropLines_append h, takeWhile_append_mark hline hbelow]

theorem trimReturns_append {shown returns : List Char} (h : ∀ c ∈ shown.getLast?, c ≠ '\r')
    (hreturns : ∀ c ∈ returns, c = '\r') : trimReturns (shown ++ returns) = shown := by
  have hall : ∀ c ∈ returns.reverse, (c == '\r') = true := fun c hc =>
    beq_iff_eq.mpr (hreturns c (List.mem_reverse.mp hc))
  have hnone : shown.reverse.dropWhile (· == '\r') = shown.reverse := by
    rw [← List.head?_reverse] at h
    exact dropWhile_of_head (by simpa using h)
  rw [trimReturns, List.reverse_append, List.dropWhile_append_of_pos hall, hnone,
    List.reverse_reverse]

end Text

namespace LineAt
variable {pre post : List Char} (line : LineAt pre post)

theorem append_eq : pre ++ post = line.above ++ (line.shown ++ line.returns ++ line.below) := by
  have happend := congrArg₂ (· ++ ·) line.pre_eq line.post_eq
  rw [← line.line_eq]
  simpa using happend

theorem count_pre : pre.count '\n' = line.above.count '\n' := by
  have hcount := congrArg (List.count '\n') line.pre_eq
  rwa [List.count_append, List.count_eq_zero.mpr line.before_notMem, Nat.add_zero] at hcount

theorem lastLine_pre : Position.lastLine pre = line.before := by
  have hbefore : ∀ c ∈ line.before.reverse, decide (c ≠ '\n') = true := fun c hc =>
    decide_eq_true (ne_of_mem_of_not_mem (List.mem_reverse.mp hc) line.before_notMem)
  have habove : line.above.reverse.takeWhile (decide <| · ≠ '\n') = [] := by
    have hends := line.above_ends
    rw [← List.head?_reverse] at hends
    exact Text.takeWhile_of_head (by simpa using hends)
  have hpre := congrArg Position.lastLine line.pre_eq
  rw [hpre, Position.lastLine, List.reverse_append, List.takeWhile_append_of_pos hbefore, habove,
    List.append_nil, List.reverse_reverse]

theorem line_start : (Position.start.advanceBy pre).line = line.above.count '\n' + 1 := by
  rw [Position.line_advanceBy, line.count_pre]
  exact Nat.add_comm 1 _

theorem column_start : (Position.start.advanceBy pre).column = line.before.length := by
  rw [Position.column_advanceBy rfl, line.lastLine_pre]

/-- The text that is shown is found by the number of the line. -/
theorem trimReturns_lineAt :
    Text.trimReturns (Text.lineAt (line.above.count '\n') (pre ++ post)) = line.shown := by
  have hline : '\n' ∉ line.shown ++ line.returns := by
    rw [← line.line_eq, List.mem_append, not_or]
    exact ⟨line.before_notMem, line.behind_notMem⟩
  rw [line.append_eq, Text.lineAt_append line.above_ends hline line.below_begins,
    Text.trimReturns_append line.shown_ends line.returns_eq]

end LineAt

theorem drop_length_take {α : Type} (n : Nat) (xs : List α) :
    xs.drop (xs.take n).length = xs.drop n := by
  rcases le_total n xs.length with h | h
  · rw [List.length_take_of_le h]
  · rw [List.take_of_length_le h, List.drop_length, List.drop_eq_nil_of_le h]

namespace Picture

/-- The picture of a part of a text. -/
theorem ofSpan_eq {source : String} {pre covered rest : List Char}
    (h : source.toList = pre ++ (covered ++ rest)) (line : LineAt pre (covered ++ rest)) :
    ofSpan source ⟨Position.start.advanceBy pre, Position.start.advanceBy (pre ++ covered)⟩ =
      { line := line.above.count '\n'
        column := Text.width (line.shown.take line.before.length)
        length := max 1 (Text.width
          (if '\n' ∈ covered then line.shown.drop line.before.length else covered))
        text := String.ofList line.shown } := by
  have hstart : (Position.start.advanceBy pre).line - 1 = line.above.count '\n' := by
    rw [line.line_start, Nat.add_sub_cancel]
  have hstop : (Position.start.advanceBy (pre ++ covered)).line =
      (Position.start.advanceBy pre).line ↔ '\n' ∉ covered := by
    rw [Position.advanceBy_append, Position.line_advanceBy, Nat.add_eq_left, List.count_eq_zero]
  have hslice :
      (⟨Position.start.advanceBy pre, Position.start.advanceBy (pre ++ covered)⟩ : Span).slice?
        source = some (String.ofList covered) := by
    let c : Cursor := ⟨Position.start.advanceBy pre, covered ++ rest⟩
    have hreaches : (Cursor.ofText source).Reaches c := ⟨pre, h, rfl⟩
    exact hreaches.slice?_eq (d := ⟨_, rest⟩) (Position.advanceBy_append _ _ _) rfl
  have hmarked : (if (Position.start.advanceBy (pre ++ covered)).line =
        (Position.start.advanceBy pre).line then covered
      else line.shown.drop (line.shown.take line.before.length).length) =
      if '\n' ∈ covered then line.shown.drop line.before.length else covered := by
    simp only [drop_length_take, hstop, ite_not]
  unfold ofSpan
  simp only [hstart, line.column_start, h, line.trimReturns_lineAt, hslice, Option.getD_some,
    String.toList_ofList, hmarked]

/-- The picture of a span, if all cuts fall between characters of what is cut. The rest of a line is
cut from it by bytes. The covered text is only looked up, and may be missing. -/
def ofSpan? (source : String) (span : Span) : Option Picture := do
  let line := span.start.line - 1
  let text := Text.trimReturns (Text.lineAt line source.toList)
  let before := text.take span.start.column
  let marked ←
    if span.stop.line = span.start.line then some ((span.slice? source).getD "").toList
    else Text.dropBytes? (String.utf8Len before) text
  return { line, column := Text.width before, length := max 1 (Text.width marked),
           text := String.ofList text }

/-- No cut is refused. -/
theorem ofSpan?_eq (source : String) (span : Span) :
    ofSpan? source span = some (ofSpan source span) := by
  have hcut (n : Nat) (text : List Char) :
      Text.dropBytes? (String.utf8Len (text.take n)) text = some (text.drop n) := by
    have happend := Text.dropBytes?_append (text.take n) (text.drop n)
    rwa [List.take_append_drop] at happend
  unfold ofSpan? ofSpan
  simp only [hcut, drop_length_take]
  split <;> rfl

/-- A picture as it is printed names the place first, and has the line and the carets below each
other. -/
theorem exists_render_eq (p : Picture) (name help : Option String) :
    let number := toString (p.line + 1)
    let margin := repeated number.length ' '
    let place := name.getD "?" ++ ":" ++ number ++ ":" ++ toString (p.column + 1)
    ∃ bottom, p.render name help =
      "\n " ++ margin ++ "--> " ++ place ++
        "\n " ++ margin ++ " |" ++
        "\n " ++ number ++ " | " ++ p.text ++
        "\n " ++ margin ++ " | " ++ yellow ++ (repeated p.column ' ' ++ repeated p.length '^') ++
        plainColor ++ repeated (3 - p.length) '-' ++
        "\n " ++ margin ++ " |\n" ++ bottom :=
  ⟨_, rfl⟩

end Picture

/-- The picture of a part of a text shows the line on which the part starts, with its number. Below
the line are as many blanks as the characters before the part take columns, and as many carets as
the part takes on the line, and one if it takes none. A picture is drawn of any span. -/
theorem picture_points_at_span (source : String) :
    (∀ pre covered rest, source.toList = pre ++ (covered ++ rest) →
      let span : Span := ⟨Position.start.advanceBy pre, Position.start.advanceBy (pre ++ covered)⟩
      let picture := Picture.ofSpan source span
      Nonempty (LineAt pre (covered ++ rest)) ∧
      ∀ line : LineAt pre (covered ++ rest),
        picture.text = String.ofList line.shown ∧
        picture.column = Text.width (line.shown.take line.before.length) ∧
        picture.length = max 1 (Text.width
          (if '\n' ∈ covered then line.shown.drop line.before.length else covered)) ∧
        ∀ name help, ∃ top bottom,
          let number := toString (line.above.count '\n' + 1)
          let margin := Picture.repeated number.length ' '
          picture.render name help =
            top ++ "\n " ++ number ++ " | " ++ String.ofList line.shown ++
              "\n " ++ margin ++ " | " ++ Picture.yellow ++
              (Picture.repeated picture.column ' ' ++ Picture.repeated picture.length '^') ++
              Picture.plainColor ++ Picture.repeated (3 - picture.length) '-' ++
              "\n " ++ margin ++ " |\n" ++ bottom) ∧
    ∀ span, Picture.ofSpan? source span = some (Picture.ofSpan source span) := by
  refine ⟨?_, Picture.ofSpan?_eq source⟩
  intro pre covered rest h span picture
  refine ⟨⟨Text.lineAround _ _⟩, fun line => ?_⟩
  have hpicture := Picture.ofSpan_eq h line
  change picture = _ at hpicture
  clear_value picture
  subst hpicture
  refine ⟨rfl, rfl, rfl, fun name help => ?_⟩
  obtain ⟨bottom, hrender⟩ := Picture.exists_render_eq _ name help
  exact ⟨_, bottom, hrender⟩

/-- The end of a line behind a wide character, with the return and the line feed. -/
theorem picture_points_at_span_wide :
    let source := "日a\r\nb"
    let picture := Picture.ofSpan source ⟨⟨3, 1, 1⟩, ⟨6, 2, 0⟩⟩
    source.toList = ['日'] ++ (['a', '\r', '\n'] ++ ['b']) ∧
      picture.text = "日a" ∧ picture.column = 2 ∧ picture.length = 1 ∧
      ∃ top bottom, picture.render none none =
        top ++ "\n " ++ "1" ++ " | " ++ "日a" ++ "\n " ++ " " ++ " | " ++ Picture.yellow ++
          ("  " ++ "^") ++ Picture.plainColor ++ "--" ++ "\n " ++ " " ++ " |\n" ++ bottom := by
  intro source picture
  have hsource : source.toList = ['日'] ++ (['a', '\r', '\n'] ++ ['b']) := by decide
  obtain ⟨-, hline⟩ := (picture_points_at_span source).1 ['日'] ['a', '\r', '\n'] ['b'] hsource
  obtain ⟨htext, hcolumn, hlength, hrender⟩ := hline (Text.lineAround _ _)
  replace hcolumn : picture.column = 2 := hcolumn.trans (by decide +kernel)
  replace hlength : picture.length = 1 := hlength.trans (by decide +kernel)
  obtain ⟨top, bottom, hpicture⟩ := hrender none none
  change picture.render none none =
    top ++ "\n " ++ "1" ++ " | " ++ "日a" ++ "\n " ++ " " ++ " | " ++ Picture.yellow ++
      (Picture.repeated picture.column ' ' ++ Picture.repeated picture.length '^') ++
      Picture.plainColor ++ Picture.repeated (3 - picture.length) '-' ++
      "\n " ++ " " ++ " |\n" ++ bottom at hpicture
  rw [hcolumn, hlength] at hpicture
  exact ⟨hsource, htext, hcolumn, hlength, top, bottom, hpicture⟩

end TemplateSyntax
