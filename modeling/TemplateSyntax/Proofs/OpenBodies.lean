import TemplateSyntax.Proofs.MovedBodies
import TemplateSyntax.Proofs.NoDrift
import TemplateSyntax.Proofs.TemplateSoundness

/-!
# Open bodies

The open bodies of a draft are a stack. A reader that is given some open bodies leaves all of them
open: those around the innermost one are not touched, and that one is only added to. Bodies that it
opens itself it closes again, unless it fails: then they stay open above the others. So the stack
never shrinks, from call to call of a session, until a template is taken out of it.
-/
namespace TemplateSyntax

/-- A body with more statements at its end. -/
def Scope.append {σ : Type} (b : Scope σ) (added : List σ) : Scope σ :=
  { b with body := b.body ++ added }

@[simp] theorem Scope.append_nil {σ : Type} (b : Scope σ) : b.append [] = b := by
  simp [append]

@[simp] theorem Scope.append_append {σ : Type} (b : Scope σ) (xs ys : List σ) :
    (b.append xs).append ys = b.append (xs ++ ys) := by
  simp [append]

namespace Draft

/-- The open bodies, the outermost first. -/
def stack (d : Draft) : List Body := d.enclosing.reverse ++ [d.current]

@[simp] theorem stack_ne_nil (d : Draft) : d.stack ≠ [] := by
  simp [stack]

/-- The innermost open body has grown from `b`, and those around it are `bs`. -/
def GrownFrom (b : Body) (bs : List Body) (d : Draft) : Prop :=
  d.enclosing = bs ∧ ∃ added, d.current = b.append added

/-- The same bodies are open, one of them grown from `b`, and perhaps others inside it. -/
def NestedIn (b : Body) (bs : List Body) (d : Draft) : Prop :=
  ∃ added more, d.stack = bs.reverse ++ b.append added :: more

variable {b : Body} {bs : List Body} {d : Draft}

theorem grownFrom_self (d : Draft) : GrownFrom d.current d.enclosing d :=
  ⟨rfl, [], by simp⟩

theorem GrownFrom.stack_eq (h : GrownFrom b bs d) :
    ∃ added, d.stack = bs.reverse ++ [b.append added] := by
  obtain ⟨rfl, added, hcurrent⟩ := h
  exact ⟨added, by rw [stack, hcurrent]⟩

theorem GrownFrom.nestedIn (h : GrownFrom b bs d) : NestedIn b bs d := by
  obtain ⟨added, hstack⟩ := h.stack_eq
  exact ⟨added, [], hstack⟩

theorem GrownFrom.append (h : GrownFrom b bs d) (xs : List Statement) :
    GrownFrom b bs { d with current := d.current.append xs } := by
  obtain ⟨henclosing, added, hcurrent⟩ := h
  refine ⟨henclosing, added ++ xs, ?_⟩
  rw [hcurrent, Scope.append_append]

/-- What is open inside a body that was opened in a draft is open inside the draft's own. -/
theorem GrownFrom.nestedIn_of_opened {t : Draft} (hd : GrownFrom b bs d)
    (h : NestedIn d.opened.current d.opened.enclosing t) : NestedIn b bs t := by
  obtain ⟨rfl, added, hadded⟩ := hd
  obtain ⟨xs, more, hstack⟩ := h
  refine ⟨added, d.opened.current.append xs :: more, ?_⟩
  rw [hstack, ← hadded]
  simp [opened]

/-- Whatever bodies are open, the computation leaves them open and adds only to the innermost. If it
fails, it may leave others open inside that one. -/
def Nests {α : Type} (m : DraftM α) : Prop :=
  ∀ b bs, Ensures (GrownFrom b bs) m (fun _ => GrownFrom b bs) fun _ => NestedIn b bs

namespace Nests
variable {α β : Type}

theorem pure (a : α) : Nests (pure a : DraftM α) :=
  fun _ _ => Ensures.pure fun _ h => h

theorem throw (f : Fault) : Nests (throw f : DraftM α) :=
  fun _ _ => Ensures.throw fun _ h => h.nestedIn

theorem bind {m : DraftM α} {f : α → DraftM β} (hm : Nests m) (hf : ∀ a, Nests (f a)) :
    Nests (m >>= f) :=
  fun b bs => (hm b bs).bind fun a => hf a b bs

theorem discard {m : DraftM α} (hm : Nests m) : Nests (discard m : DraftM PUnit) :=
  hm.bind fun _ => pure _

theorem loop {step : β → DraftM (ForInStep β)} (h : ∀ x, Nests (step x)) (x : β) :
    Nests (loop Draft.size step x) := by
  intro b bs
  refine Ensures.loop_weak (I := fun _ => GrownFrom b bs) (fun x => ?_) x
  refine (h x b bs).after fun r d hd => ?_
  cases r <;> exact hd

/-- Taking tokens does not touch the bodies. -/
theorem lift (m : ReadM α) : Nests (liftM m : DraftM α) := by
  intro b bs d hd
  rw [run_lift]
  cases m d.reader with
  | ok a r => exact hd
  | error f r => exact GrownFrom.nestedIn (d := { d with reader := r }) hd

theorem modifyGet {g : Draft → α × Draft}
    (h : ∀ d, ∃ xs, (g d).2.enclosing = d.enclosing ∧ (g d).2.current = d.current.append xs) :
    Nests (modifyGet g : DraftM α) := by
  intro b bs d hd
  obtain ⟨xs, henclosing, hcurrent⟩ := h d
  obtain ⟨rfl, added, hadded⟩ := hd
  rw [run_modifyGet]
  exact ⟨henclosing, added ++ xs, by rw [hcurrent, hadded, Scope.append_append]⟩

end Nests

theorem nests_push (x : Statement) : Nests (push x) :=
  .modifyGet fun _ => ⟨[x], rfl, rfl⟩

theorem nests_note (e : Event) : Nests (note e) :=
  .modifyGet fun _ => ⟨[], rfl, (Scope.append_nil _).symm⟩

theorem nests_position : Nests position :=
  fun _ _ _ h => h

theorem nests_define (x : Definition) : Nests (define x) := by
  refine .modifyGet fun d => ⟨[], ?_⟩
  cases x <;> simp [keep]

theorem nests_setParent (e : Expression) : Nests (setParent e) := by
  refine .modifyGet fun d => ⟨[], ?_⟩
  cases d.parent.isSome <;> simp

theorem GrownFrom.behindText (h : GrownFrom b bs d) : GrownFrom b bs d.behindText := by
  unfold Draft.behindText
  dsimp only
  split
  · exact h
  · exact h.append _

theorem nests_opening : Nests opening := by
  intro b bs d hd
  rw [run_opening]
  split
  · exact hd.behindText
  · cases Reader.next d.behindText.reader with
    | ok l r => exact hd.behindText
    | error f r => exact GrownFrom.nestedIn (d := { d.behindText with reader := r }) hd.behindText

/-! ## Tags and bodies -/

section Tags
variable {n : Nat} {body : BodyReader} {opening : Span}

theorem nests_nextArm (hb : ∀ closers, Nests (body closers)) (x : List (Arm Statement) × Closing) :
    Nests (nextArm n body x) := by
  obtain ⟨arms, closing⟩ := x
  unfold nextArm
  dsimp only
  split
  · exact (Nests.lift _).bind fun _ => (hb _).bind fun _ => .pure _
  · exact .pure _

theorem nests_ifTag (hb : ∀ closers, Nests (body closers)) : Nests (ifTag n body opening) := by
  refine (Nests.lift _).bind fun _ => (hb _).bind fun _ => ?_
  refine (Nests.loop (nests_nextArm hb) _).bind fun (_, closing) => ?_
  dsimp only
  split
  · refine (Nests.lift _).discard.bind fun _ => (hb _).bind fun _ => ?_
    exact (Nests.lift _).discard.bind fun _ => .pure _
  · exact (Nests.lift _).discard.bind fun _ => .pure _

theorem nests_forTag (hb : ∀ closers, Nests (body closers)) : Nests (forTag n body opening) := by
  refine (Nests.lift _).bind fun _ => (hb _).bind fun (_, closing) => ?_
  dsimp only
  split
  · refine (Nests.lift _).discard.bind fun _ => (hb _).bind fun _ => ?_
    exact (Nests.lift _).discard.bind fun _ => .pure _
  · exact (Nests.lift _).discard.bind fun _ => .pure _

theorem nests_callTag (hb : ∀ closers, Nests (body closers)) : Nests (callTag n body opening) :=
  (Nests.lift _).bind fun _ => (hb _).bind fun _ => (Nests.lift _).discard.bind fun _ => .pure _

theorem nests_filterTag (hb : ∀ closers, Nests (body closers)) :
    Nests (filterTag n body opening) :=
  (Nests.lift _).bind fun _ => (hb _).bind fun _ => (Nests.lift _).discard.bind fun _ => .pure _

theorem nests_blockTag (hb : ∀ closers, Nests (body closers)) : Nests (blockTag body opening) :=
  (Nests.lift _).bind fun _ => (hb _).bind fun _ => (Nests.lift _).bind fun _ =>
    (nests_define _).bind fun _ => .pure _

theorem nests_macroTag (hb : ∀ closers, Nests (body closers)) : Nests (macroTag n body opening) :=
  (Nests.lift _).bind fun _ => (hb _).bind fun _ =>
    (Nests.lift _).discard.bind fun _ => nests_define _

theorem nests_extendsTag : Nests (extendsTag n) := by
  refine (Nests.lift _).bind fun target => (nests_setParent target).bind fun isFirst => ?_
  split
  · exact .pure _
  · exact .throw _

theorem nests_tag (hb : ∀ closers, Nests (body closers)) (name : Identifier) :
    Nests (tag n body opening name) := by
  unfold tag
  split
  · exact (nests_ifTag hb).bind fun _ => nests_push _
  · exact (nests_forTag hb).bind fun _ => nests_push _
  · exact (Nests.lift _).bind fun _ => nests_push _
  · exact (nests_callTag hb).bind fun _ => nests_push _
  · exact (nests_filterTag hb).bind fun _ => nests_push _
  · exact (nests_blockTag hb).bind fun _ => nests_push _
  · exact nests_macroTag hb
  · exact nests_extendsTag
  · exact .throw _

theorem nests_piece (hb : ∀ closers, Nests (body closers)) (closers : List Keyword) :
    Nests (piece n body closers) := by
  refine nests_opening.bind fun found => ?_
  split
  · exact .pure _
  · split
    · exact (Nests.lift _).bind fun _ => (nests_push _).bind fun _ => .pure _
    · refine (Nests.lift _).bind fun name => (nests_note _).bind fun _ => ?_
      split
      · exact .pure _
      · exact (nests_tag hb name).bind fun _ => .pure _
    · exact .throw _

theorem nests_content (hb : ∀ closers, Nests (body closers)) (closers : List Keyword) :
    Nests (content n body closers) :=
  .loop (fun _ => nests_piece hb closers) none

/-- A body that is opened is closed again, or stays open when reading fails. -/
theorem nests_body (n : Nat) (closers : List Keyword) : Nests (Draft.body n closers) := by
  induction n generalizing closers with
  | zero => exact nests_position.bind fun _ => .throw _
  | succ n ih =>
    intro b bs d hd
    have hcontent := nests_content (n := n) ih closers _ _ _ (grownFrom_self d.opened)
    have hopen : openBody d = .ok () d.opened := rfl
    rw [Draft.body, run_bind_ok hopen, run_bind]
    cases hr : content n (Draft.body n) closers d.opened with
    | error f t =>
      rw [hr] at hcontent
      exact hd.nestedIn_of_opened hcontent
    | ok found t =>
      rw [hr] at hcontent
      cases found with
      | none => exact hd.nestedIn_of_opened hcontent.nestedIn
      | some closing =>
        change Ends _ _ ((closeBody closing.opening.start >>= fun s => pure (s, closing)) t)
        rw [closeBody, run_bind_ok (run_modifyGet _ _), hcontent.1]
        exact hd

theorem nests_readAll : Nests readAll := (nests_content (nests_body _) []).discard

/-- When a body is closed, all that was open when it was opened is still open below it. -/
theorem stack_of_content {closers : List Keyword} {found : Option Closing} {d t : Draft}
    (h : content n (Draft.body n) closers d.opened = .ok found t) :
    ∃ inner, t.stack = d.stack ++ [inner] := by
  obtain ⟨added, hstack⟩ :=
    ((nests_content (nests_body n) closers _ _).ok (grownFrom_self d.opened) h).stack_eq
  refine ⟨d.opened.current.append added, ?_⟩
  rw [hstack]
  simp [opened, stack]

end Tags
end Draft

/-! ## Sessions -/

namespace Session
variable {α : Type} {s t : Session}

/-- The open bodies of a session, the outermost first. -/
def stack (s : Session) : List Body := s.draft.stack

/-- Whether a call has done what it was asked for. -/
def Answer.isOk : Answer → Bool
  | .processed result => result.isOk
  | .generated result => result.isOk
  | .read result => result.isOk
  | .taken result => result.isOk
  | .renamed => true

/-- All bodies below the innermost stay as they are, that one is only added to, and there may be
more above it. -/
def GrowsTo (before after more : List Body) : Prop :=
  ∃ below top added, before = below ++ [top] ∧ after = below ++ top.append added :: more

theorem growsTo_self (s : Session) : GrowsTo s.stack s.stack [] :=
  ⟨_, _, [], rfl, by rw [Scope.append_nil]; rfl⟩

/-- A stack that grows does not get shorter. -/
theorem GrowsTo.length_le {before after more : List Body} (h : GrowsTo before after more) :
    before.length ≤ after.length := by
  obtain ⟨below, top, added, rfl, rfl⟩ := h
  simp

theorem growsTo_of_grownFrom {d : Draft} (h : d.GrownFrom s.draft.current s.draft.enclosing) :
    GrowsTo s.stack d.stack [] := by
  obtain ⟨added, hstack⟩ := h.stack_eq
  exact ⟨_, _, added, rfl, hstack⟩

theorem growsTo_of_nestedIn {d : Draft} (h : d.NestedIn s.draft.current s.draft.enclosing) :
    ∃ more, GrowsTo s.stack d.stack more := by
  obtain ⟨added, more, hstack⟩ := h
  exact ⟨more, _, _, added, rfl, hstack⟩

/-- Calls that take tokens do not touch the open bodies. -/
theorem stack_run_lift (s : Session) (m : ReadM α) : (s.run (liftM m)).2.stack = s.stack := by
  unfold run
  rw [run_lift]
  cases m s.draft.reader <;> rfl

theorem process_growsTo (s : Session) :
    ∃ more, GrowsTo s.stack s.process.2.stack more ∧ (s.process.1.isOk = true → more = []) := by
  have h := Draft.nests_readAll _ _ _ (Draft.grownFrom_self s.draft)
  cases hr : Draft.readAll s.draft with
  | ok u d =>
    rw [hr] at h
    rw [process_of_ok hr]
    exact ⟨[], growsTo_of_grownFrom h, fun _ => rfl⟩
  | error f d =>
    rw [hr] at h
    rw [process_of_error hr]
    obtain ⟨more, hmore⟩ := growsTo_of_nestedIn h
    exact ⟨more, hmore, fun hok => by cases hok⟩

/-- A template is taken out when nothing but its own body is open; a new one is then opened where
reading has come to. -/
theorem generate_eq_ok {template : Template} (h : s.generate.1 = .ok template) :
    s.process.1 = .ok () ∧ s.process.2.draft.enclosing = [] ∧
      s.generate.2.stack = [.opened s.process.2.cursor.position] := by
  unfold generate at h ⊢
  split at h
  · cases h
  · next t hp =>
    dsimp only at h
    split at h
    · next he =>
      rw [hp]
      have hnil := List.isEmpty_iff.mp he
      refine ⟨rfl, hnil, ?_⟩
      dsimp only
      rw [if_pos he]
      simp [stack, Draft.stack, hnil]
    · cases h

/-- A call for a template that gives none has read as far as it could, and no more. -/
theorem generate_eq_error {e : Diagnostic} (h : s.generate.1 = .error e) :
    s.generate.2 = s.process.2 := by
  unfold generate at h ⊢
  split at h
  · next hp => rw [hp]
  · next hp =>
    rw [hp]
    dsimp only at h ⊢
    split at h
    · cases h
    · next he => rw [if_neg he]

/-- A call that takes no template out only lets the stack grow, and opens nothing if it succeeds. -/
theorem call_growsTo (s : Session) (c : Call)
    (h : ∀ template, (s.call c).1 ≠ .generated (.ok template)) :
    ∃ more, GrowsTo s.stack (s.call c).2.stack more ∧
      ((s.call c).1.isOk = true → more = []) := by
  cases c with
  | process => exact process_growsTo s
  | generate =>
    obtain ⟨more, hmore, -⟩ := process_growsTo s
    cases hg : s.generate.1 with
    | ok template => exact absurd (congrArg Answer.generated hg) (h template)
    | error e =>
      refine ⟨more, ?_, fun hok => ?_⟩
      · change GrowsTo _ s.generate.2.stack _
        rw [generate_eq_error hg]
        exact hmore
      · simp only [call, Answer.isOk, hg] at hok
        cases hok
  | expression stops =>
    refine ⟨[], ?_, fun _ => rfl⟩
    rw [call, expression, stack_run_lift]
    exact growsTo_self s
  | next =>
    refine ⟨[], ?_, fun _ => rfl⟩
    rw [call, next, stack_run_lift]
    exact growsTo_self s
  | withName name => exact ⟨[], growsTo_self s, fun _ => rfl⟩

/-- The bodies that are open when a template is taken out were open before. -/
theorem length_stack_of_generate {template : Template} (h : s.generate.1 = .ok template) :
    s.stack.length = 1 := by
  obtain ⟨-, henclosing, -⟩ := generate_eq_ok h
  obtain ⟨more, hmore, -⟩ := process_growsTo s
  have hle := hmore.length_le
  have hlast : s.process.2.stack.length = 1 := by simp [stack, Draft.stack, henclosing]
  have hpos : 0 < s.stack.length := List.length_pos_iff.mpr s.draft.stack_ne_nil
  omega

/-- Once bodies are left open, they stay open whatever is called. -/
theorem Reaches.one_lt_length {answers : List Answer} (h : s.Reaches answers t)
    (hs : 1 < s.stack.length) : 1 < t.stack.length := by
  induction h with
  | refl => exact hs
  | @call _ t _ c _ ih =>
    obtain ⟨more, hmore, -⟩ := call_growsTo t c fun template hc => by
      cases c with
      | generate =>
        have := length_stack_of_generate (Answer.generated.inj hc)
        omega
      | process | expression _ | next | withName _ => cases hc
    exact ih.trans_le hmore.length_le

/-- A source that was read through is read up to its last character. -/
theorem position_of_process {text : String} (hs : s.Placed text) (hc : s.Allows .process)
    (h : s.process.1 = .ok ()) :
    s.process.2.cursor.position = Position.start.advanceBy text.toList := by
  have hplaced := (process_placed hs).2
  cases hr : Draft.readAll s.draft with
  | error f d =>
    rw [process_of_error hr] at h
    cases h
  | ok u d =>
    rw [process_of_ok hr] at hplaced ⊢
    have hrest := Draft.rest_of_readAll hc hr
    obtain ⟨taken, htext, hposition⟩ := hplaced.1
    change text.toList = taken ++ d.reader.cursor.rest at htext
    rw [hrest, List.append_nil] at htext
    rw [htext]
    exact hposition

end Session

/-- Whatever calls were made in a session, with whatever answers: some body is open. A call leaves
the bodies below the innermost one as they are and only adds statements to that one; it may leave
others open above it, but not if it succeeds. Only a call that gives a template does otherwise: then
no other body was open, and one empty body is opened at the end of the source. Whenever a body is
closed, all that was open when it was opened is still open below it. And once reading has failed
with bodies left open, no later call gives a template. -/
theorem stack_discipline {text : String} {name : Option String} {answers : List Session.Answer}
    {s : Session} (h : (Session.start text name).Reaches answers s) :
    s.stack ≠ [] ∧
    (∀ c, s.Allows c →
      (∀ template, (s.call c).1 = .generated (.ok template) →
        s.stack.length = 1 ∧
          (s.call c).2.stack = [.opened (Position.start.advanceBy text.toList)]) ∧
      ((∀ template, (s.call c).1 ≠ .generated (.ok template)) →
        ∃ below top added more, s.stack = below ++ [top] ∧
          (s.call c).2.stack = below ++ { top with body := top.body ++ added } :: more ∧
          ((s.call c).1.isOk = true → more = []))) ∧
    (∀ n closers (d t : Draft) closing,
      Draft.content n (Draft.body n) closers d.opened = .ok (some closing) t →
        ∃ inner, t.stack = d.stack ++ [inner]) ∧
    ∀ e t, s.Allows .process → s.process = (.error e, t) → 1 < t.stack.length →
      ∀ answers' u, t.Reaches answers' u → ∀ template, u.generate.1 ≠ .ok template := by
  have hplaced := (h.placed (Session.placed_start text name)).2
  refine ⟨s.draft.stack_ne_nil, fun c hc => ⟨fun template hanswer => ?_, fun hanswer => ?_⟩,
    fun _ _ _ _ _ hr => Draft.stack_of_content hr,
    fun e t _ _ hopen answers' u hu template hg => ?_⟩
  · cases c with
    | generate =>
      have hg := Session.Answer.generated.inj hanswer
      obtain ⟨hprocess, -, hstack⟩ := Session.generate_eq_ok hg
      refine ⟨Session.length_stack_of_generate hg, ?_⟩
      rw [← Session.position_of_process hplaced hc hprocess]
      exact hstack
    | process | expression _ | next | withName _ => cases hanswer
  · obtain ⟨more, ⟨below, top, added, hbefore, hafter⟩, hmore⟩ := s.call_growsTo c hanswer
    exact ⟨below, top, added, more, hbefore, hafter, hmore⟩
  · have hlength := hu.one_lt_length hopen
    have := Session.length_stack_of_generate hg
    omega

/-- Behind a token, a fault in a loop leaves the arm around it open for good. -/
theorem stack_discipline_arm :
    ∃ answers s e t, (Session.start "a \x7b% if b %\x7dc\x7b% for %\x7dd").Reaches answers s ∧
      answers.length = 1 ∧ s.Allows .process ∧ s.process = (.error e, t) ∧ t.stack.length = 2 ∧
      ∀ answers' u, t.Reaches answers' u → ∀ template, u.generate.1 ≠ .ok template := by
  have hreach := (Session.Reaches.refl (s := Session.start
    "a \x7b% if b %\x7dc\x7b% for %\x7dd")).call .next trivial
  have hallows : ((Session.start "a \x7b% if b %\x7dc\x7b% for %\x7dd").call .next).2.Allows
      .process := by
    change (_ : Option Lexeme) = none
    decide +kernel
  cases hp : ((Session.start "a \x7b% if b %\x7dc\x7b% for %\x7dd").call .next).2.process with
  | mk result t =>
    have hresult : ((Session.start "a \x7b% if b %\x7dc\x7b% for %\x7dd").call
      .next).2.process.1.isOk = false := by decide +kernel
    have hstack : ((Session.start "a \x7b% if b %\x7dc\x7b% for %\x7dd").call
      .next).2.process.2.stack.length = 2 := by decide +kernel
    rw [hp] at hresult hstack
    cases result with
    | ok u => cases hresult
    | error e =>
      exact ⟨_, _, e, t, hreach, rfl, hallows, hp, hstack,
        (stack_discipline hreach).2.2.2 e t hallows hp (by rw [hstack]; decide)⟩

end TemplateSyntax
