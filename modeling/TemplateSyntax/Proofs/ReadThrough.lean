import TemplateSyntax.Proofs.FaultReports
import TemplateSyntax.Proofs.Resumption

/-!
# Reading a source through

A source can be read into the open body first and taken out as a template later, or both at once.
The two ways agree: they succeed for the same sources, fail with the same fault and give the same
template. Behind the last character there is nothing more to read, so reading again changes nothing,
and once the template has been taken out only an empty one is left.
-/
namespace TemplateSyntax

/-- The template of a source that has nothing in it, at a position. -/
def Template.emptyAt (p : Position) : Template where
  parent := none
  blocks := .empty
  macros := .empty
  body := .opened p
  span := .empty p

namespace Draft

/-- What is left of a draft when its template has been taken out. -/
def emptied (d : Draft) : Draft :=
  { d with
    current := .opened d.reader.cursor.position
    macros := .empty
    blocks := .empty
    parent := none }

/-- When all has been read, no token is kept back, nothing is left of the source, and the bodies
that were open before are the ones that are open. -/
theorem finished_of_readAll {d t : Draft} (hp : d.reader.peeked = none)
    (h : readAll d = .ok () t) :
    t.reader.peeked = none ∧ t.reader.cursor.rest = [] ∧ t.enclosing = d.enclosing := by
  obtain ⟨_, _, hat, -⟩ := (lands_readAll d.reader.cursor d.parents).ok ⟨⟨hp, rfl⟩, rfl⟩ h
  exact ⟨hat.1, rest_of_readAll hp h, ((nests_readAll _ _).ok (grownFrom_self d) h).1⟩

end Draft

namespace Session
variable {s t : Session}

/-- A session in which all has been read: it is at the end of its source, and only the body of the
template is open. -/
structure Finished (s : Session) : Prop where
  peeked : s.draft.reader.peeked = none
  rest : s.cursor.rest = []
  enclosing : s.draft.enclosing = []

namespace Finished

/-- There is nothing more to read. -/
theorem process_eq (h : s.Finished) : s.process = (.ok (), s) :=
  process_of_ok (Draft.readAll_of_end h.peeked h.rest)

/-- The template is taken out. -/
theorem generate_eq (h : s.Finished) :
    s.generate = (.ok s.draft.template, { s with draft := s.draft.emptied }) := by
  have hopen : s.draft.enclosing.isEmpty = true := List.isEmpty_iff.mpr h.enclosing
  unfold generate
  rw [h.process_eq]
  dsimp only
  rw [if_pos hopen]
  rfl

/-- What is left of the session is finished as well. -/
theorem emptied (h : s.Finished) : Finished { s with draft := s.draft.emptied } :=
  ⟨h.peeked, h.rest, h.enclosing⟩

/-- Reading on changes nothing, however often it is done. -/
theorem process_again (h : s.Finished) (n : Nat) :
    s.after (List.replicate n .process) = s ∧
      s.answers (List.replicate n .process) = List.replicate n (.processed (.ok ())) := by
  induction n with
  | zero => exact ⟨rfl, rfl⟩
  | succ n ih =>
    have hcall : s.call .process = (.processed (.ok ()), s) := by rw [call, h.process_eq]
    simp only [List.replicate_succ, after, List.foldl_cons, answers, hcall]
    exact ⟨ih.1, congrArg _ ih.2⟩

/-- Once the template has been taken out, the one open body is empty and starts at the cursor. -/
theorem stack_emptied (h : s.Finished) :
    stack { s with draft := s.draft.emptied } = [.opened s.cursor.position] := by
  simp [stack, Draft.stack, Draft.emptied, h.enclosing, cursor]

/-- The template that is taken out next is empty. -/
theorem generate_emptied (h : s.Finished) :
    (generate { s with draft := s.draft.emptied }).1 = .ok (.emptyAt s.cursor.position) := by
  rw [h.emptied.generate_eq]
  rfl

end Finished

/-- A session that has read its source in one call is finished. -/
theorem finished_of_process (hp : s.draft.reader.peeked = none) (he : s.draft.enclosing = [])
    (h : s.process = (.ok (), t)) : t.Finished := by
  cases hr : Draft.readAll s.draft with
  | error f d =>
    rw [process_of_error hr] at h
    cases h
  | ok u d =>
    rw [process_of_ok hr] at h
    cases h
    obtain ⟨hpeeked, hrest, henclosing⟩ := Draft.finished_of_readAll hp hr
    exact ⟨hpeeked, hrest, henclosing.trans he⟩

/-- Taking out a template reads first, and fails where reading fails. -/
theorem generate_of_process_error {e : Diagnostic} (h : s.process = (.error e, t)) :
    s.generate = (.error e, t) := by
  rw [generate, h]

/-- Taking out a template reads first, and then takes out what reading has left. -/
theorem generate_of_process_ok (h : s.process = (.ok (), t)) (ht : t.Finished) :
    s.generate = t.generate := by
  rw [generate, generate, h, ht.process_eq]

/-- A fresh session that has read its source stands at the end. -/
theorem position_of_start {text : String} {name : Option String}
    (h : (start text name).process = (.ok (), t)) :
    t.cursor.position = Position.start.advanceBy text.toList := by
  have hposition : (start text name).process.2.cursor.position =
      Position.start.advanceBy text.toList :=
    position_of_process (placed_start text name) rfl (by rw [h])
  rwa [h] at hposition

end Session

/-- Reading a source in a fresh session, and taking the template out of another one, succeed or fail
together, with equal diagnostics. What has been read is then the template: its statements are in the
open body, its definitions are in the tables, and nothing is left of the source. Reading again,
however often, succeeds and changes nothing, and the template that is taken out in the end is the
one that is taken out at once. Behind it the tables and the one open body are empty, and the
template that is taken out next is empty and stands at the end of the source. -/
theorem Session.process_agrees_generate (text : String) (name : Option String) :
    let s := start text name
    let last := Position.start.advanceBy text.toList
    (s.process.1.isOk = s.generate.1.isOk ∧
      ∀ e, s.process.1 = .error e ↔ s.generate.1 = .error e) ∧
    (∀ t, s.process = (.ok (), t) → ∃ template, s.generate.1 = .ok template ∧
      t.context.body = template.body.body ∧ t.macros = template.macros ∧
      t.blocks = template.blocks ∧ t.cursor.atEnd = true ∧
      ∀ n, t.after (List.replicate n .process) = t ∧
        t.answers (List.replicate n .process) = List.replicate n (.processed (.ok ())) ∧
        (t.after (List.replicate n .process)).generate.1 = .ok template) ∧
    ∀ template u, s.generate = (.ok template, u) →
      u.macros = .empty ∧ u.blocks = .empty ∧ u.stack = [.opened last] ∧
      u.generate.1 = .ok (.emptyAt last) := by
  intro s last
  cases hprocess : s.process with
  | mk result t =>
    cases result with
    | error e =>
      have hgenerate : s.generate = (.error e, t) := generate_of_process_error hprocess
      rw [hgenerate]
      refine ⟨⟨rfl, fun _ => ⟨?_, ?_⟩⟩, fun _ h => ?_, fun _ _ h => ?_⟩
      · exact fun h => congrArg Except.error (Except.error.inj h)
      · exact fun h => congrArg Except.error (Except.error.inj h)
      · cases h
      · cases h
    | ok u =>
      have hfinished : t.Finished := finished_of_process rfl rfl hprocess
      have hlast : t.cursor.position = last := position_of_start hprocess
      have hgenerate : s.generate =
          (.ok t.draft.template, { t with draft := t.draft.emptied }) := by
        rw [generate_of_process_ok hprocess hfinished, hfinished.generate_eq]
      rw [hgenerate]
      refine ⟨⟨rfl, fun _ => ⟨?_, ?_⟩⟩, fun _ h => ?_, fun _ _ h => ?_⟩
      · exact fun h => nomatch h
      · exact fun h => nomatch h
      · cases h
        refine ⟨t.draft.template, rfl, rfl, rfl, rfl, List.isEmpty_iff.mpr hfinished.rest,
          fun n => ?_⟩
        obtain ⟨hafter, hanswers⟩ := hfinished.process_again n
        exact ⟨hafter, hanswers, by rw [hafter, hfinished.generate_eq]⟩
      · cases h
        exact ⟨rfl, rfl, hlast ▸ hfinished.stack_emptied, hlast ▸ hfinished.generate_emptied⟩

/-- A source with a block is read three times and then taken out: nothing of it is lost, and nothing
is there twice. -/
theorem Session.process_agrees_generate_block : ∃ t template,
    (start "\x7b% block a %\x7db\x7b% endblock %\x7dc").process = (.ok (), t) ∧
      (t.after [.process, .process]).generate.1 = .ok template ∧
      template.blocks.names = ["a"] ∧ template.body.body.length = 2 := by
  have hok : (start "\x7b% block a %\x7db\x7b% endblock %\x7dc").process.1 = .ok () := by
    decide +kernel
  have hkept : (start "\x7b% block a %\x7db\x7b% endblock %\x7dc").process.2.blocks.names = ["a"] ∧
      (start "\x7b% block a %\x7db\x7b% endblock %\x7dc").process.2.context.body.length = 2 := by
    decide +kernel
  cases ht : (start "\x7b% block a %\x7db\x7b% endblock %\x7dc").process with
  | mk result t =>
    rw [ht] at hok hkept
    cases hok
    obtain ⟨template, -, hbody, -, hblocks, -, hagain⟩ := (process_agrees_generate _ none).2.1 t ht
    exact ⟨t, template, rfl, (hagain 2).2.2, hblocks ▸ hkept.1, hbody ▸ hkept.2⟩

end TemplateSyntax
