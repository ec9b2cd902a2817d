import TemplateSyntax.Draft
import Mathlib.Tactic

/-!
# Runs of computations

A computation started in a state ends with a value or with a fault, and in a last state either way.
`Ensures` says what holds at the end if something holds at the start; it is proved along the parts
of a computation, and for a loop from what one pass preserves. Loops whose passes always make the
state smaller are equal to their own unrolling.
-/
namespace TemplateSyntax

section General
variable {ε σ α β : Type}

instance decidableEqResult [DecidableEq ε] [DecidableEq σ] [DecidableEq α] :
    DecidableEq (EStateM.Result ε σ α)
  | .ok a s, .ok b t => decidable_of_iff (a = b ∧ s = t) (by simp)
  | .error a s, .error b t => decidable_of_iff (a = b ∧ s = t) (by simp)
  | .ok .., .error .. | .error .., .ok .. => .isFalse nofun

instance decidableEqForInStep [DecidableEq β] : DecidableEq (ForInStep β)
  | .done b, .done c | .yield b, .yield c => decidable_of_iff (b = c) (by simp)
  | .done _, .yield _ | .yield _, .done _ => .isFalse nofun

theorem run_bind (m : EStateM ε σ α) (f : α → EStateM ε σ β) (s : σ) :
    (m >>= f) s = match m s with
      | .ok a t => f a t
      | .error e t => .error e t := rfl

theorem run_bind_ok {m : EStateM ε σ α} {f : α → EStateM ε σ β} {s t : σ} {a : α}
    (h : m s = .ok a t) : (m >>= f) s = f a t := by
  rw [run_bind, h]

/-- A value of two computations in a row comes from values of both. -/
theorem bind_eq_ok {m : EStateM ε σ α} {f : α → EStateM ε σ β} {s u : σ} {b : β}
    (h : (m >>= f) s = .ok b u) : ∃ a t, m s = .ok a t ∧ f a t = .ok b u := by
  rw [run_bind] at h
  cases hr : m s with
  | ok a t =>
    rw [hr] at h
    exact ⟨a, t, rfl, h⟩
  | error e t =>
    rw [hr] at h
    cases h

theorem discard_bind (m : EStateM ε σ α) (f : EStateM ε σ β) :
    (do discard m; f) = m >>= fun _ => f := by
  funext s
  have h : (discard m : EStateM ε σ PUnit) s = match m s with
    | .ok _ t => .ok ⟨⟩ t
    | .error e t => .error e t := rfl
  rw [run_bind, run_bind, h]
  cases m s <;> rfl

theorem run_modifyGet (f : σ → α × σ) (s : σ) :
    (modifyGet f : EStateM ε σ α) s = .ok (f s).1 (f s).2 := rfl

/-- What holds at the end of a run: of the value and the last state, or of the fault and the last
state. -/
def Ends (Q : α → σ → Prop) (E : ε → σ → Prop) : EStateM.Result ε σ α → Prop
  | .ok a t => Q a t
  | .error e t => E e t

/-- Whatever state with `P` the computation starts in, its run ends as stated. -/
def Ensures (P : σ → Prop) (m : EStateM ε σ α) (Q : α → σ → Prop) (E : ε → σ → Prop) : Prop :=
  ∀ s, P s → Ends Q E (m s)

/-- The computation keeps a property of the state, with a value and with a fault. -/
def Keeps (P : σ → Prop) (m : EStateM ε σ α) : Prop := Ensures P m (fun _ => P) fun _ => P

namespace Ensures
variable {P P' : σ → Prop} {Q Q' : α → σ → Prop} {R : β → σ → Prop} {E E' : ε → σ → Prop}
variable {m : EStateM ε σ α} {f : α → EStateM ε σ β}

theorem pure {a : α} (h : ∀ s, P s → Q a s) : Ensures P (pure a : EStateM ε σ α) Q E := h

theorem throw {e : ε} (h : ∀ s, P s → E e s) : Ensures P (throw e : EStateM ε σ α) Q E := h

theorem bind (hm : Ensures P m Q E) (hf : ∀ a, Ensures (Q a) (f a) R E) :
    Ensures P (m >>= f) R E := by
  intro s hs
  have h := hm s hs
  rw [run_bind]
  cases hr : m s with
  | ok a t =>
    rw [hr] at h
    exact hf a t h
  | error e t =>
    rw [hr] at h
    exact h

theorem discard (hm : Ensures P m (fun _ => P') E) :
    Ensures P (discard m : EStateM ε σ PUnit) (fun _ => P') E :=
  hm.bind fun _ => Ensures.pure fun _ h => h

theorem mono (hm : Ensures P m Q E) (hP : ∀ s, P' s → P s) (hQ : ∀ a s, Q a s → Q' a s)
    (hE : ∀ e s, E e s → E' e s) : Ensures P' m Q' E' := by
  intro s hs
  have h := hm s (hP s hs)
  cases hr : m s with
  | ok a t =>
    rw [hr] at h
    exact hQ a t h
  | error e t =>
    rw [hr] at h
    exact hE e t h

theorem before (hm : Ensures P m Q E) (hP : ∀ s, P' s → P s) : Ensures P' m Q E :=
  fun s hs => hm s (hP s hs)

theorem after (hm : Ensures P m Q E) (hQ : ∀ a s, Q a s → Q' a s) : Ensures P m Q' E :=
  hm.mono (fun _ h => h) hQ fun _ _ h => h

/-- What does not depend on the state may be taken out of a precondition. -/
theorem given {p : Prop} (h : p → Ensures P m Q E) : Ensures (fun s => p ∧ P s) m Q E :=
  fun s hs => h hs.1 s hs.2

theorem ok (h : Ensures P m Q E) {s t : σ} {a : α} (hs : P s) (hr : m s = .ok a t) : Q a t := by
  have := h s hs
  rwa [hr] at this

theorem error (h : Ensures P m Q E) {s t : σ} {e : ε} (hs : P s) (hr : m s = .error e t) :
    E e t := by
  have := h s hs
  rwa [hr] at this

end Ensures

/-- What holds when a pass of a loop ends the loop, and what when it asks for another pass. -/
def OnPass (Q I : β → σ → Prop) : ForInStep β → σ → Prop
  | .done b, s => Q b s
  | .yield b, s => I b s

/-- Every pass that asks for another one has made the state smaller. -/
def Descends (size : σ → Nat) (step : β → EStateM ε σ (ForInStep β)) : Prop :=
  ∀ b s b' t, step b s = .ok (.yield b') t → size t < size s

/-- What every pass preserves holds at the end of a loop. A loop that gives up because its state
has not become smaller ends as if it asked for no other pass. -/
theorem Ensures.loop_weak {size : σ → Nat} {step : β → EStateM ε σ (ForInStep β)}
    {I : β → σ → Prop} {E : ε → σ → Prop}
    (h : ∀ b, Ensures (I b) (step b) (OnPass I I) E) (b : β) :
    Ensures (I b) (loop size step b) I E := by
  suffices go : ∀ n s b, size s = n → I b s → Ends I E (loop size step b s) from
    fun s hs => go _ s b rfl hs
  intro n
  induction n using Nat.strong_induction_on with
  | h n ih =>
    intro s b hn hs
    have hb := h b s hs
    rw [loop]
    split
    · next hr => rwa [hr] at hb
    · next b' t hr =>
      rw [hr] at hb
      split
      · next hlt => exact ih (size t) (hn ▸ hlt) t b' rfl hb
      · exact hb
    · next hr => rwa [hr] at hb

/-- What every pass keeps is kept by a loop. -/
theorem Keeps.loop {size : σ → Nat} {step : β → EStateM ε σ (ForInStep β)} {P : σ → Prop}
    (h : ∀ b, Keeps P (step b)) (b : β) : Keeps P (loop size step b) :=
  Ensures.loop_weak (I := fun _ => P) (fun b => (h b).after fun r s hs => by cases r <;> exact hs) b

/-- A loop that descends is one pass, and the loop again if that asks for it. -/
theorem loop_eq {size : σ → Nat} {step : β → EStateM ε σ (ForInStep β)} (h : Descends size step)
    (b : β) : loop size step b = step b >>= fun r =>
      match r with
      | .done b' => pure b'
      | .yield b' => loop size step b' := by
  funext s
  rw [loop, run_bind]
  cases hr : step b s with
  | error e t => rfl
  | ok r t =>
    cases r with
    | done b' => rfl
    | yield b' => simp only [h b s b' t hr, if_true]

/-- The rule for loops that descend: `I` holds before each pass and `Q` behind the last one. -/
theorem Ensures.loop {size : σ → Nat} {step : β → EStateM ε σ (ForInStep β)}
    (hd : Descends size step) {I Q : β → σ → Prop} {E : ε → σ → Prop}
    (h : ∀ b, Ensures (I b) (step b) (OnPass Q I) E) (b : β) :
    Ensures (I b) (TemplateSyntax.loop size step b) Q E := by
  suffices go : ∀ n s b, size s = n → I b s → Ends Q E (TemplateSyntax.loop size step b s) from
    fun s hs => go _ s b rfl hs
  intro n
  induction n using Nat.strong_induction_on with
  | h n ih =>
    intro s b hn hs
    have hb := h b s hs
    rw [loop_eq hd, run_bind]
    cases hr : step b s with
    | error e t => rwa [hr] at hb
    | ok r t =>
      rw [hr] at hb
      cases r with
      | done b' => exact hb
      | yield b' => exact ih (size t) (hn ▸ hd b s b' t hr) t b' rfl hb

end General

section Lifting
variable {α : Type}

theorem run_lift (m : ReadM α) (d : Draft) :
    (liftM m : DraftM α) d = match m d.reader with
      | .ok a reader => .ok a { d with reader }
      | .error fault reader => .error fault { d with reader } := rfl

theorem run_lift_ok {m : ReadM α} {d : Draft} {a : α} {r : Reader} (h : m d.reader = .ok a r) :
    (liftM m : DraftM α) d = .ok a { d with reader := r } := by
  rw [run_lift, h]

end Lifting
end TemplateSyntax
