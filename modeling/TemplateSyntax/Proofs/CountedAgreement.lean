import TemplateSyntax.Proofs.CountedReading
import TemplateSyntax.Proofs.Progress

/-!
# Counting levels changes nothing

The readers that count the open levels do what those do that are told how many levels are left. The
counter shows the number of open levels at each of its turns, and it has turned back wherever
reading ends. Under a higher limit than the others are told, they agree for as long as the source
does not open more levels than those may, and those find it nested too deeply exactly if it does.
-/
namespace TemplateSyntax

/-! ## Turns of the counter -/

namespace Turn

/-- The levels that are open behind a turn, the innermost first. The turn has to show how many they
are. A level is opened while fewer levels are open than the limit, and refused when as many are;
levels are closed from the inside. -/
def follow (limit : Nat) (levels : List Opener) : Turn → Option (List Opener)
  | opened what depth =>
    if levels.length < limit ∧ depth = levels.length + 1 then some (what :: levels) else none
  | closed what depth =>
    match levels with
    | [] => none
    | first :: others => if first = what ∧ depth = others.length then some others else none
  | refused _ depth => if levels.length = limit ∧ depth = limit then some levels else none

/-- What the counter shows. -/
def depth : Turn → Nat
  | opened _ depth | closed _ depth | refused _ depth => depth

/-- The turn is made for a level that comes to be open, or would, besides that many others. -/
def exceeds (levels : Nat) : Turn → Prop
  | opened _ depth => levels < depth
  | closed _ _ => False
  | refused _ depth => levels ≤ depth

instance (levels : Nat) (t : Turn) : Decidable (t.exceeds levels) := by
  cases t <;> (unfold exceeds; infer_instance)

end Turn

/-- The turns are in order while as many levels are open around them as stated, and in the end these
are open again. -/
def Accord (limit depth : Nat) (turns : List Turn) : Prop :=
  ∀ levels : List Opener, levels.length = depth →
    turns.foldlM (Turn.follow limit) levels = some levels

/-- Some level comes to be open, or would, besides that many others. -/
def Exceed (levels : Nat) (turns : List Turn) : Prop := ∃ t ∈ turns, t.exceeds levels

section Turns
variable {limit depth k : Nat} {what : Opener} {ts us : List Turn}

theorem accord_nil : Accord limit depth [] := fun _ _ => rfl

theorem Accord.append (ht : Accord limit depth ts) (hu : Accord limit depth us) :
    Accord limit depth (ts ++ us) := by
  intro levels h
  rw [List.foldlM_append, ht levels h]
  exact hu levels h

/-- A level with what is opened in it. -/
theorem Accord.nest (h : Accord limit (depth + 1) ts) (hdepth : depth < limit) :
    Accord limit depth (.opened what (depth + 1) :: ts ++ [.closed what depth]) := by
  intro levels hlevels
  have hopen : Turn.follow limit levels (.opened what (depth + 1)) = some (what :: levels) := by
    simp [Turn.follow, hlevels, hdepth]
  have hclose : Turn.follow limit (what :: levels) (.closed what depth) = some levels := by
    simp [Turn.follow, hlevels]
  have hinside := h (what :: levels) (by simp [hlevels])
  rw [List.cons_append, List.foldlM_cons, hopen]
  change (ts ++ [_]).foldlM (Turn.follow limit) (what :: levels) = _
  rw [List.foldlM_append, hinside]
  simp [hclose]

theorem accord_refused : Accord limit limit [.refused what limit] := by
  intro levels h
  simp [Turn.follow, h]

/-- What a turn shows that is in order. -/
theorem Turn.follow_eq_some {levels levels' : List Opener} {t : Turn}
    (h : follow limit levels t = some levels') (hle : levels.length ≤ limit) :
    levels'.length ≤ limit ∧ t.depth ≤ limit ∧
      (t.exceeds limit ↔ ∃ what, t = .refused what limit) := by
  cases t with
  | opened what depth =>
    obtain ⟨⟨hlt, rfl⟩, rfl⟩ : (levels.length < limit ∧ depth = levels.length + 1) ∧
        what :: levels = levels' := by simpa [follow] using h
    refine ⟨hlt, hlt, ?_⟩
    simp only [exceeds, reduceCtorEq, exists_false, iff_false]
    omega
  | closed what depth =>
    cases levels with
    | nil => cases h
    | cons first others =>
      obtain ⟨⟨-, rfl⟩, rfl⟩ : (first = what ∧ depth = others.length) ∧ others = levels' := by
        simpa [follow] using h
      have hothers : others.length ≤ limit := Nat.le_of_succ_le hle
      exact ⟨hothers, hothers, by simp [exceeds]⟩
  | refused what depth =>
    obtain ⟨⟨-, rfl⟩, rfl⟩ : (levels.length = limit ∧ depth = limit) ∧ levels = levels' := by
      simpa [follow] using h
    exact ⟨hle, Nat.le_refl _, by simp [exceeds]⟩

/-- Each turn in a row that is in order is in order itself. -/
theorem exists_follow {levels levels' : List Opener}
    (h : ts.foldlM (Turn.follow limit) levels = some levels') (hle : levels.length ≤ limit)
    {t : Turn} (ht : t ∈ ts) :
    ∃ around behind, around.length ≤ limit ∧ Turn.follow limit around t = some behind := by
  induction ts generalizing levels with
  | nil => cases ht
  | cons u us ih =>
    rw [List.foldlM_cons] at h
    obtain ⟨next, hu, hus⟩ := Option.bind_eq_some_iff.mp h
    rcases List.mem_cons.mp ht with rfl | ht
    · exact ⟨levels, next, hle, hu⟩
    · exact ih hus (Turn.follow_eq_some hu hle).1 ht

/-- The counter never shows more than the limit. -/
theorem Accord.depth_le (h : Accord limit 0 ts) {t : Turn} (ht : t ∈ ts) : t.depth ≤ limit := by
  obtain ⟨around, behind, hle, hfollow⟩ := exists_follow (h [] rfl) (Nat.zero_le _) ht
  exact (Turn.follow_eq_some hfollow hle).2.1

/-- Under the limit itself, only a level that is refused would be one more than the limit. -/
theorem Accord.exceed_iff (h : Accord limit 0 ts) :
    Exceed limit ts ↔ ∃ what, .refused what limit ∈ ts := by
  constructor
  · rintro ⟨t, ht, hexceeds⟩
    obtain ⟨around, behind, hle, hfollow⟩ := exists_follow (h [] rfl) (Nat.zero_le _) ht
    obtain ⟨what, rfl⟩ := (Turn.follow_eq_some hfollow hle).2.2.mp hexceeds
    exact ⟨what, ht⟩
  · rintro ⟨what, ht⟩
    exact ⟨_, ht, Nat.le_refl limit⟩

@[simp] theorem not_exceed_nil : ¬ Exceed k [] := by simp [Exceed]

@[simp] theorem exceed_append : Exceed k (ts ++ us) ↔ Exceed k ts ∨ Exceed k us := by
  simp only [Exceed, List.mem_append]
  constructor
  · rintro ⟨t, ht | ht, h⟩
    · exact .inl ⟨t, ht, h⟩
    · exact .inr ⟨t, ht, h⟩
  · rintro (⟨t, ht, h⟩ | ⟨t, ht, h⟩)
    · exact ⟨t, .inl ht, h⟩
    · exact ⟨t, .inr ht, h⟩

theorem exceed_nest : Exceed k (.opened what (depth + 1) :: ts ++ [.closed what depth]) ↔
    k ≤ depth ∨ Exceed k ts := by
  simp only [Exceed, List.cons_append, List.mem_cons, List.mem_append, List.not_mem_nil, or_false]
  constructor
  · rintro ⟨t, rfl | ht | rfl, h⟩
    · exact .inl (Nat.lt_succ_iff.mp h)
    · exact .inr ⟨t, ht, h⟩
    · exact h.elim
  · rintro (h | ⟨t, ht, h⟩)
    · exact ⟨_, .inl rfl, Nat.lt_succ_of_le h⟩
    · exact ⟨t, .inr (.inl ht), h⟩

end Turns

/-! ## Computations that agree -/

section Runs
variable {σ α β : Type} {limit k n depth : Nat}

/-- A run of which the value, if there is one, is used in another run. -/
def runThen {ε : Type} (r : EStateM.Result ε σ α) (g : α → σ → EStateM.Result ε σ β) :
    EStateM.Result ε σ β :=
  match r with
  | .ok a t => g a t
  | .error f t => .error f t

theorem run_bind_eq {ε : Type} (m : EStateM ε σ α) (g : α → EStateM ε σ β) (s : σ) :
    (m >>= g) s = runThen (m s) g := by
  rw [run_bind]
  cases m s <;> rfl

/-- What a loop does behind a pass. -/
def passThen {ε : Type} (size : σ → Nat) (step : β → EStateM ε σ (ForInStep β)) (s : σ) :
    ForInStep β → σ → EStateM.Result ε σ β
  | .done b, t => .ok b t
  | .yield b, t => if size t < size s then loop size step b t else .ok b t

theorem run_loop_eq {ε : Type} (size : σ → Nat) (step : β → EStateM ε σ (ForInStep β)) (b : β)
    (s : σ) : loop size step b s = runThen (step b s) (passThen size step s) := by
  rw [loop]
  cases step b s with
  | error f t => rfl
  | ok x t => cases x <;> rfl

/-- The run has found the source nested too deeply. -/
def RunsTooDeep : EStateM.Result Fault σ α → Prop
  | .ok _ _ => False
  | .error f _ => f.cause = .tooDeep

/-- A run of a reader, in the draft that it reads for. -/
def inDraft (d : Draft) : EStateM.Result Fault Reader α → EStateM.Result Fault Draft α
  | .ok a reader => .ok a { d with reader }
  | .error f reader => .error f { d with reader }

theorem run_lift_eq (m : ReadM α) (d : Draft) :
    (liftM m : DraftM α) d = inDraft d (m d.reader) := by
  rw [run_lift]
  cases m d.reader <;> rfl

theorem runsTooDeep_inDraft {d : Draft} {r : EStateM.Result Fault Reader α} :
    RunsTooDeep (inDraft d r) ↔ RunsTooDeep r := by
  cases r <;> rfl

/-- The outcomes of two runs, where the second one has counted levels up to the limit, with `n` more
to open, and the first one was told to open no more than `k`. The turns of the counter are in order.
The first run has found the source nested too deeply exactly if the second one has opened more than
`k` levels, or has tried to. Other than that both have done the same, and they always have if `k`
is `n`. -/
structure Outcomes (limit k n depth : Nat) (r r' : EStateM.Result Fault σ α)
    (turns : List Turn) : Prop where
  accord : Accord limit depth turns
  deep : RunsTooDeep r ↔ Exceed (depth + k) turns
  same : k = n ∨ ¬ Exceed (depth + k) turns → r' = r

namespace Outcomes
variable {r : EStateM.Result Fault σ α} {ts us : List Turn}

theorem refl (h : ¬ RunsTooDeep r) : Outcomes limit k n depth r r [] :=
  ⟨accord_nil, by simp [h], fun _ => rfl⟩

theorem fail {f : Fault} {t : σ} (h : Outcomes limit k n depth r (.error f t) ts)
    (g : α → σ → EStateM.Result Fault σ β) :
    Outcomes limit k n depth (runThen r g) (.error f t) ts := by
  have hdeep := h.deep
  have hsame := h.same
  cases r with
  | error f' t' => exact ⟨h.accord, hdeep, fun hk => by cases hsame hk; rfl⟩
  | ok a u =>
    have hx : ¬ Exceed (depth + k) ts := fun hx => hdeep.mpr hx
    cases hsame (.inr hx)

theorem go {a : α} {t : σ} {g : α → σ → EStateM.Result Fault σ β}
    {r' : EStateM.Result Fault σ β} (h : Outcomes limit k n depth r (.ok a t) ts)
    (hg : Outcomes limit k n depth (g a t) r' us) :
    Outcomes limit k n depth (runThen r g) r' (ts ++ us) := by
  have haccord := h.accord.append hg.accord
  have hsame := h.same
  by_cases hx : Exceed (depth + k) ts
  · have hdeep := h.deep.mpr hx
    cases r with
    | ok _ _ => exact hdeep.elim
    | error f u =>
      refine ⟨haccord, ⟨fun _ => exceed_append.mpr (.inl hx), fun _ => hdeep⟩, ?_⟩
      rintro (hk | hno)
      · cases hsame (.inl hk)
      · exact absurd (exceed_append.mpr (.inl hx)) hno
  · obtain rfl := hsame (.inr hx)
    refine ⟨haccord, ?_, ?_⟩
    · rw [exceed_append, or_iff_right hx]
      exact hg.deep
    · rw [exceed_append, or_iff_right hx]
      exact hg.same

end Outcomes

namespace Counted

/-- A run as the counter goes with it: this is what it shows in the end, and these are its turns. -/
def counted (depth : Nat) (turns : List Turn) :
    EStateM.Result Fault σ α → EStateM.Result Fault (Counted σ) α
  | .ok a t => .ok a ⟨t, depth, turns⟩
  | .error f t => .error f ⟨t, depth, turns⟩

/-- A computation that counts agrees with one that is told how many levels it may open: it leaves
the counter where it was, with the outcomes as stated. -/
def Agrees (limit k n : Nat) (m : EStateM Fault σ α) (m' : CountM σ α) : Prop :=
  ∀ s : Counted σ, s.depth + n = limit → ∃ r turns, m' s = counted s.depth (s.turns ++ turns) r ∧
    Outcomes limit k n s.depth (m s.state) r turns

/-- The computation never finds the source nested too deeply. -/
def Plain (m : EStateM Fault σ α) : Prop :=
  Ensures (fun _ => True) m (fun _ _ => True) fun f _ => f.cause ≠ .tooDeep

theorem Plain.not_runsTooDeep {m : EStateM Fault σ α} (h : Plain m) (s : σ) :
    ¬ RunsTooDeep (m s) := by
  have hs := h s trivial
  cases hr : m s with
  | ok a t => exact id
  | error f t => rwa [hr] at hs

namespace Agrees
variable {m : EStateM Fault σ α} {m' : CountM σ α}

/-- What opens no level is the same with a counter. -/
theorem plain (h : Plain m) : Agrees limit k n m (liftM m : CountM σ α) := by
  intro s _
  refine ⟨m s.state, [], ?_, .refl (h.not_runsTooDeep s.state)⟩
  rw [List.append_nil]
  change (MonadLift.monadLift m : CountM σ α) s = _
  simp only [MonadLift.monadLift]
  cases m s.state <;> rfl

theorem pure (a : α) : Agrees limit k n (pure a : EStateM Fault σ α) (pure a) := by
  intro s _
  refine ⟨.ok a s.state, [], ?_, .refl id⟩
  rw [List.append_nil]
  rfl

theorem throw {f : Fault} (h : f.cause ≠ .tooDeep) :
    Agrees limit k n (throw f : EStateM Fault σ α) (throw f) := by
  intro s _
  refine ⟨.error f s.state, [], ?_, .refl h⟩
  rw [List.append_nil]
  rfl

theorem bind {g : α → EStateM Fault σ β} {g' : α → CountM σ β} (hm : Agrees limit k n m m')
    (hg : ∀ a, Agrees limit k n (g a) (g' a)) : Agrees limit k n (m >>= g) (m' >>= g') := by
  intro s hs
  obtain ⟨r, ts, hr, houtcomes⟩ := hm s hs
  rw [run_bind_eq, run_bind_eq, hr]
  cases r with
  | error f t => exact ⟨.error f t, ts, rfl, houtcomes.fail g⟩
  | ok a t =>
    obtain ⟨r', us, hr', hgo⟩ := hg a ⟨t, s.depth, s.turns ++ ts⟩ hs
    rw [List.append_assoc] at hr'
    exact ⟨r', ts ++ us, hr', houtcomes.go hgo⟩

theorem discard (hm : Agrees limit k n m m') :
    Agrees limit k n (discard m : EStateM Fault σ PUnit) (discard m') :=
  hm.bind fun _ => .pure _

theorem ite {p : Prop} [Decidable p] {l : EStateM Fault σ α} {l' : CountM σ α}
    (hm : Agrees limit k n m m') (hl : Agrees limit k n l l') :
    Agrees limit k n (if p then m else l) (if p then m' else l') := by
  split
  · exact hm
  · exact hl

theorem loop (size : σ → Nat) {step : β → EStateM Fault σ (ForInStep β)}
    {step' : β → CountM σ (ForInStep β)} (h : ∀ b, Agrees limit k n (step b) (step' b)) (b : β) :
    Agrees limit k n (loop size step b) (TemplateSyntax.loop (fun s => size s.state) step' b) := by
  intro s
  induction hsize : size s.state using Nat.strong_induction_on generalizing s b with
  | h size' ih =>
    intro hs
    obtain ⟨r, ts, hr, houtcomes⟩ := h b s hs
    rw [run_loop_eq, run_loop_eq, hr]
    cases r with
    | error f t => exact ⟨.error f t, ts, rfl, houtcomes.fail _⟩
    | ok x t =>
      -- the loop with the counter goes on from its own pass, which may be the only one
      suffices hpass : ∃ r' us, passThen (fun s => size s.state) step' s x
          ⟨t, s.depth, s.turns ++ ts⟩ = counted s.depth (s.turns ++ ts ++ us) r' ∧
          Outcomes limit k n s.depth (passThen size step s.state x t) r' us by
        obtain ⟨r', us, hr', hgo⟩ := hpass
        rw [List.append_assoc] at hr'
        exact ⟨r', ts ++ us, hr', houtcomes.go hgo⟩
      have hend (b' : β) : ∃ r' us,
          .ok b' ⟨t, s.depth, s.turns ++ ts⟩ = counted s.depth (s.turns ++ ts ++ us) r' ∧
          Outcomes limit k n s.depth (.ok b' t) r' us :=
        ⟨.ok b' t, [], by rw [List.append_nil]; rfl, .refl id⟩
      cases x with
      | done b' => exact hend b'
      | yield b' =>
        by_cases hlt : size t < size s.state
        · simp only [passThen, if_pos hlt]
          exact ih (size t) (hsize ▸ hlt) b' ⟨t, s.depth, s.turns ++ ts⟩ rfl hs
        · simp only [passThen, if_neg hlt]
          exact hend b'

/-- A level is opened by both, or by none; or only by the one that counts, as it may open more. -/
theorem nested {m : Nat → EStateM Fault σ α} {span : Span} (what : Opener)
    (hzero : m 0 = MonadExcept.throw ⟨.tooDeep, span⟩) (hk : k ≤ n)
    (h : ∀ i, i + 1 = n → ∀ j ≤ i, Agrees limit j i (m (j + 1)) m') :
    Agrees limit k n (m k) (nested limit what span m') := by
  intro s hs
  by_cases hlimit : limit ≤ s.depth
  · obtain ⟨rfl, rfl, rfl⟩ : k = 0 ∧ n = 0 ∧ limit = s.depth := by omega
    refine ⟨.error ⟨.tooDeep, span⟩ s.state, [.refused what s.depth], ?_, accord_refused, ?_, ?_⟩
    · rw [Counted.nested, if_pos hlimit]
      rfl
    · rw [hzero]
      exact ⟨fun _ => ⟨_, List.mem_singleton_self _, Nat.le_refl _⟩, fun _ => rfl⟩
    · rw [hzero]
      exact fun _ => rfl
  · obtain ⟨i, rfl⟩ : ∃ i, i + 1 = n := ⟨n - 1, by omega⟩
    -- what the level inside does, for as many levels as are left for the other one
    have hinside (j : Nat) (hj : j ≤ i) : ∃ r ts,
        Counted.nested limit what span m' s = counted s.depth
          (s.turns ++ (.opened what (s.depth + 1) :: ts ++ [.closed what s.depth])) r ∧
        Outcomes limit j i (s.depth + 1) (m (j + 1) s.state) r ts := by
      obtain ⟨r, ts, hr, houtcomes⟩ := h i rfl j hj (s.enter what) (by
        simp only [enter]
        omega)
      refine ⟨r, ts, ?_, houtcomes⟩
      rw [Counted.nested, if_neg hlimit, hr]
      cases r <;> simp [counted, enter, leave]
    cases k with
    | zero =>
      obtain ⟨r, ts, hr, houtcomes⟩ := hinside i (Nat.le_refl i)
      have hexceed : Exceed (s.depth + 0)
          (.opened what (s.depth + 1) :: ts ++ [.closed what s.depth]) :=
        exceed_nest.mpr (.inl (Nat.le_refl _))
      refine ⟨r, _, hr, houtcomes.accord.nest (by omega), ?_, ?_⟩
      · rw [hzero]
        exact ⟨fun _ => hexceed, fun _ => rfl⟩
      · rintro (hk | hno)
        · omega
        · exact absurd hexceed hno
    | succ j =>
      obtain ⟨r, ts, hr, houtcomes⟩ := hinside j (by omega)
      have hexceed : Exceed (s.depth + (j + 1))
          (.opened what (s.depth + 1) :: ts ++ [.closed what s.depth]) ↔
            Exceed (s.depth + 1 + j) ts := by
        rw [exceed_nest, or_iff_right (by omega), Nat.add_right_comm, Nat.add_assoc]
      refine ⟨r, _, hr, houtcomes.accord.nest (by omega), ?_, ?_⟩
      · rw [hexceed]
        exact houtcomes.deep
      · rw [hexceed, Nat.add_right_cancel_iff]
        exact houtcomes.same

theorem lift {m : ReadM α} {m' : CountM Reader α} (h : Agrees limit k n m m') :
    Agrees limit k n (liftM m : DraftM α) (liftM m' : CountM Draft α) := by
  intro s hs
  obtain ⟨r, ts, hr, haccord, hdeep, hsame⟩ := h ⟨s.state.reader, s.depth, s.turns⟩ hs
  have hrun : (liftM m' : CountM Draft α) s =
      counted s.depth (s.turns ++ ts) (inDraft s.state r) := by
    change (MonadLift.monadLift m' : CountM Draft α) s = _
    simp only [MonadLift.monadLift, hr]
    cases r <;> rfl
  rw [run_lift_eq]
  refine ⟨inDraft s.state r, ts, hrun, haccord, runsTooDeep_inDraft.trans hdeep, fun hk => ?_⟩
  rw [hsame hk]

end Agrees
end Counted
end Runs

/-! ## Readers that open no level -/

theorem Piece.token_first_ne_tooDeep (quotes : Bool) (cs : List Char) :
    (Piece.first quotes cs).token ≠ .error .tooDeep := by
  cases cs with
  | nil => simp [Piece.first]
  | cons c cs =>
    simp only [Piece.first]
    split
    · simp [Piece.string]
    · split
      · unfold Piece.number
        split <;> (dsimp only; split <;> simp)
      · split
        · simp [Piece.identifier]
        · split <;> simp

namespace Counted
open Reader Expression Draft

section Plain
variable {α β : Type}

theorem Plain.pure {σ : Type} (a : α) : Plain (pure a : EStateM Fault σ α) :=
  Ensures.pure fun _ _ => trivial

theorem Plain.throw {σ : Type} {f : Fault} (h : f.cause ≠ .tooDeep) :
    Plain (throw f : EStateM Fault σ α) :=
  Ensures.throw fun _ _ => h

theorem Plain.bind {σ : Type} {m : EStateM Fault σ α} {g : α → EStateM Fault σ β} (hm : Plain m)
    (hg : ∀ a, Plain (g a)) : Plain (m >>= g) :=
  Ensures.bind hm hg

theorem Plain.discard {σ : Type} {m : EStateM Fault σ α} (hm : Plain m) :
    Plain (discard m : EStateM Fault σ PUnit) :=
  hm.bind fun _ => .pure _

theorem Plain.aside {m : DraftM α} (h : Aside m) : Plain m := by
  obtain ⟨g, -, rfl⟩ := h
  exact fun _ _ => trivial

theorem plain_next : Plain Reader.next := by
  intro r _
  cases hr : Reader.next r with
  | ok l t => trivial
  | error f t =>
    have htoken := (Cursor.next_eq_error (next_eq_error hr).2.1).1
    exact fun hf => Piece.token_first_ne_tooDeep _ _ (htoken.trans (congrArg _ hf))

theorem plain_peek : Plain Reader.peek := plain_next.bind fun _ => fun _ _ => trivial

theorem plain_atSymbol (s : Symbol) : Plain (atSymbol s) := plain_peek.bind fun _ => .pure _

theorem plain_atKeyword (k : Keyword) : Plain (atKeyword k) := plain_peek.bind fun _ => .pure _

theorem plain_expectSymbol (s : Symbol) : Plain (expectSymbol s) := by
  refine plain_next.bind fun l => ?_
  split
  · exact .pure _
  · exact .throw (by simp [Fault.unexpected])

theorem plain_expectKeyword (k : Keyword) : Plain (expectKeyword k) := by
  refine plain_next.bind fun l => ?_
  split
  · exact .pure _
  · exact .throw (by simp [Fault.unexpected])

theorem plain_expectName : Plain expectName := by
  refine plain_next.bind fun l => ?_
  split
  · exact .pure _
  · exact .throw (by simp [Fault.unexpected])

theorem plain_variableName : Plain variableName := plain_expectName.bind fun _ => .pure _

theorem plain_stringValue (raw : String) (span : Span) : Plain (stringValue raw span) := by
  unfold stringValue
  split
  · exact .throw (by simp)
  · split
    · exact .pure _
    · exact .throw (by simp)
    · exact .throw (by simp)

theorem plain_endTag : Plain endTag := plain_expectSymbol _

theorem plain_pattern : Plain pattern := by
  have hnext (names : List Variable × Span) : Plain (nextName names) := by
    refine (plain_atSymbol _).bind fun b => ?_
    split
    · exact plain_next.discard.bind fun _ => plain_variableName.bind fun _ => .pure _
    · exact .pure _
  refine plain_variableName.bind fun first => (plain_atSymbol _).bind fun b => ?_
  split
  · have hloop (names : List Variable × Span) : Plain (loop Reader.size nextName names) :=
      Ensures.loop_weak (I := fun _ _ => True)
        (fun names => (hnext names).after fun r _ _ => by cases r <;> trivial) names
    exact (hloop _).bind fun _ => .pure _
  · exact .pure _

theorem plain_blockHead : Plain blockHead :=
  plain_expectName.bind fun _ => plain_endTag.discard.bind fun _ => .pure _

theorem plain_blockEnd (name : String) : Plain (blockEnd name) := by
  refine Plain.bind ?_ fun _ => plain_endTag
  refine plain_peek.bind fun l => ?_
  split
  · split
    · exact plain_next.discard
    · exact .throw (by simp)
  · exact .pure _

theorem Plain.lift {m : ReadM α} (h : Plain m) : Plain (liftM m : DraftM α) := by
  intro d _
  have hd := h d.reader trivial
  rw [run_lift]
  cases hr : m d.reader with
  | ok a t => trivial
  | error f t => rwa [hr] at hd

theorem plain_opening : Plain opening := by
  refine Plain.bind (fun _ _ => trivial) fun _ => Plain.bind (fun _ _ => trivial) fun d => ?_
  split
  · exact .pure _
  · exact plain_next.lift.bind fun _ => .pure _

end Plain

/-! ## Readers of expressions -/

section Readers
variable {limit n k : Nat} {inner : Inner}

/-- What is read in another level, where `n` levels can be opened there, agrees with what is read
when no more can be. -/
structure Inner.Agrees (limit n : Nat) (inner : Inner) : Prop where
  operand : ∀ k ≤ n, Counted.Agrees limit k n (Expression.operand (descend k)) inner.operand
  operation : ∀ k ≤ n, ∀ (stops : List String) (minimum : Nat), Counted.Agrees limit k n
    (Expression.operation (descend k) stops minimum) (inner.operation stops minimum)
  body : ∀ k ≤ n, ∀ closers, Counted.Agrees limit k n (Draft.body (k + 1) closers)
    (inner.body closers)

theorem agrees_items {α : Type} {item : ReadM α} {item' : CountM Reader α}
    (h : Agrees limit k n item item') : Agrees limit k n (Reader.items item) (items item') := by
  have hnext (found : List α) :
      Agrees limit k n (Reader.nextItem item found) (nextItem item' found) := by
    refine (Agrees.plain (plain_atSymbol _)).bind fun b => .ite (.pure _) (h.bind fun x => ?_)
    refine (Agrees.plain (plain_atSymbol _)).bind fun c => .ite (.pure _) ?_
    exact (Agrees.plain (plain_expectSymbol _)).discard.bind fun _ => .pure _
  exact (Agrees.loop Reader.size hnext []).bind fun found =>
    (Agrees.plain (plain_expectSymbol _)).bind fun close => .pure _

/-- A body where reading has come to a position, with as many levels to open as told. -/
def bodyAt (closers : List Keyword) (place : Position) : Nat → DraftM (Body × Closing)
  | 0 => throw ⟨.tooDeep, .empty place⟩
  | j + 1 => Draft.body (j + 1) closers

theorem body_eq (closers : List Keyword) (k : Nat) :
    Draft.body k closers = position >>= fun place => bodyAt closers place k := by
  cases k <;> rfl

section Levels
variable (hk : k ≤ n) (hi : ∀ i, i + 1 = n → inner.Agrees limit i)
include hk

/-- Another level, with whatever is read there by the readers of that level. -/
theorem agrees_descend {α : Type} {g : Level → ReadM α} {m' : CountM Reader α} (what : Opener)
    (span : Span) (h : ∀ i, i + 1 = n → ∀ j ≤ i,
      Agrees limit j i (g ⟨Expression.operand (descend j), Expression.operation (descend j)⟩) m') :
    Agrees limit k n (descend k span >>= g) (nested limit what span m') :=
  Agrees.nested (m := fun k => descend k span >>= g) what rfl hk h

include hi

theorem agrees_arguments :
    Agrees limit k n (Expression.arguments (descend k)) (arguments limit inner) :=
  (Agrees.plain (plain_expectSymbol _)).bind fun opening =>
    agrees_descend hk .arguments opening fun i hn j hj =>
      agrees_items ((hi i hn).operation j hj _ _)

theorem agrees_primary :
    Agrees limit k n (Expression.primary (descend k)) (primary limit inner) := by
  refine (Agrees.plain plain_next).bind fun l => ?_
  unfold Expression.primaryFrom primaryFrom
  cases l.token with
  | number value => exact .pure _
  | string raw => exact .plain (plain_stringValue _ _)
  | identifier word => exact .pure _
  | symbol s =>
    cases s with
    | openParen =>
      refine agrees_descend hk .parentheses l.span fun i hn j hj => ?_
      exact ((hi i hn).operation j hj _ _).bind fun e =>
        (Agrees.plain (plain_expectSymbol _)).discard.bind fun _ => .pure _
    | _ => exact .throw (by simp [Fault.unexpected])
  | _ => exact .throw (by simp [Fault.unexpected])

theorem agrees_term : Agrees limit k n (Expression.term (descend k)) (term limit inner) := by
  refine (agrees_primary hk hi).bind fun e => .loop Reader.size (fun e => ?_) e
  refine (Agrees.plain (plain_atSymbol _)).bind fun b => .ite ?_ ?_
  · exact (Agrees.plain plain_next).discard.bind fun _ =>
      (Agrees.plain plain_variableName).bind fun _ => .pure _
  · refine (Agrees.plain (plain_atSymbol _)).bind fun b => .ite ?_ (.pure _)
    exact (agrees_arguments hk hi).bind fun _ => .pure _

theorem agrees_operand :
    Agrees limit k n (Expression.operand (descend k)) (operand limit inner) := by
  refine (Agrees.plain plain_peek).bind fun l => ?_
  cases sign? l.token with
  | none => exact agrees_term hk hi
  | some op =>
    refine (Agrees.plain plain_next).discard.bind fun _ => ?_
    rw [← bind_assoc]
    exact (agrees_descend hk .signed l.span fun i hn j hj =>
      (hi i hn).operand j hj).bind fun _ => .pure _

theorem agrees_operation (stops : List String) (minimum : Nat) : Agrees limit k n
    (Expression.operation (descend k) stops minimum) (operation limit inner stops minimum) := by
  refine (agrees_operand hk hi).bind fun e => .loop Reader.size (fun left => ?_) e
  refine (Agrees.plain plain_peek).bind fun l => ?_
  rcases joint? stops minimum l.token with _ | ⟨_ | op, binding⟩
  · exact .pure _
  · exact (Agrees.plain plain_next).discard.bind fun _ => (agrees_term hk hi).bind fun _ => .pure _
  · refine (Agrees.plain plain_next).discard.bind fun _ => ?_
    rw [← bind_assoc]
    exact (agrees_descend hk .rightSide l.span fun i hn j hj =>
      (hi i hn).operation j hj _ _).bind fun _ => .pure _

theorem agrees_read (stops : List String) :
    Agrees limit k n (Expression.read k stops) (read limit inner stops) :=
  agrees_operation hk hi stops 0

/-! ## Readers of tags and bodies -/

theorem agrees_lastExpression :
    Agrees limit k n (Draft.lastExpression k) (lastExpression limit inner) :=
  (agrees_read hk hi _).bind fun _ => (Agrees.plain plain_endTag).discard.bind fun _ => .pure _

theorem agrees_placeable (opening : Span) :
    Agrees limit k n (Draft.placeable k opening) (placeable limit inner opening) := by
  refine (agrees_read hk hi _).bind fun value =>
    (Agrees.loop Reader.size (fun filters => ?_) _).bind fun filters =>
      (Agrees.plain (plain_expectSymbol _)).bind fun close => .pure _
  refine (Agrees.plain (plain_atSymbol _)).bind fun b => .ite ?_ (.pure _)
  exact (Agrees.plain plain_next).discard.bind fun _ => (agrees_term hk hi).bind fun _ => .pure _

theorem agrees_loopHead : Agrees limit k n (Draft.loopHead k) (loopHead limit inner) := by
  have hcondition :
      Agrees limit k n (Draft.loopCondition k) (loopCondition limit inner) := by
    refine (Agrees.plain (plain_atKeyword _)).bind fun b => .ite ?_ (.pure _)
    exact (Agrees.plain plain_next).discard.bind fun _ =>
      (agrees_read hk hi _).bind fun _ => .pure _
  exact (Agrees.plain plain_pattern).bind fun _ =>
    (Agrees.plain (plain_expectKeyword _)).discard.bind fun _ => (agrees_read hk hi _).bind fun _ =>
      hcondition.bind fun _ => (Agrees.plain plain_endTag).discard.bind fun _ => .pure _

theorem agrees_setTag (opening : Span) :
    Agrees limit k n (Draft.setTag k opening) (setTag limit inner opening) :=
  (Agrees.plain plain_pattern).bind fun _ =>
    (Agrees.plain (plain_expectSymbol _)).discard.bind fun _ => (agrees_read hk hi _).bind fun _ =>
      (Agrees.plain (plain_expectSymbol _)).bind fun _ => .pure _

theorem agrees_callHead : Agrees limit k n (Draft.callHead k) (callHead limit inner) := by
  have harguments :
      Agrees limit k n (Draft.callArguments k) (callArguments limit inner) :=
    (Agrees.plain (plain_atSymbol _)).bind fun b =>
      .ite ((agrees_arguments hk hi).bind fun _ => .pure _) (.pure _)
  exact (Agrees.plain plain_expectName).bind fun _ => harguments.bind fun _ =>
    (Agrees.plain plain_endTag).discard.bind fun _ => .pure _

theorem agrees_macroHead : Agrees limit k n (Draft.macroHead k) (macroHead limit inner) := by
  have hparameter : Agrees limit k n (Draft.parameter k) (parameter limit inner) := by
    refine (Agrees.plain plain_expectName).bind fun _ => (Agrees.plain (plain_atSymbol _)).bind
      fun b => .ite ?_ (.pure _)
    exact (Agrees.plain plain_next).discard.bind fun _ =>
      (agrees_read hk hi _).bind fun _ => .pure _
  exact (Agrees.plain plain_expectName).bind fun _ =>
    (Agrees.plain (plain_expectSymbol _)).discard.bind fun _ =>
      (agrees_items hparameter).bind fun _ => (Agrees.plain plain_endTag).discard.bind fun _ =>
        .pure _

theorem agrees_body (closers : List Keyword) :
    Agrees limit k n (Draft.body k closers) (body limit inner closers) := by
  rw [body_eq]
  exact (Agrees.plain (.aside aside_position)).bind fun place =>
    Agrees.nested .body rfl hk fun i hn j hj => (hi i hn).body j hj closers

omit hk hi in
theorem agrees_endTag : Agrees limit k n (discard (liftM endTag : DraftM Span) : DraftM PUnit)
    (discard (liftM endTag : CountM Draft Span)) :=
  (Agrees.plain plain_endTag).lift.discard

theorem agrees_ifTag (opening : Span) :
    Agrees limit k n (Draft.ifTag k (Draft.body k) opening) (ifTag limit inner opening) := by
  have harm (x : List (Arm Statement) × Closing) :
      Agrees limit k n (Draft.nextArm k (Draft.body k) x) (nextArm limit inner x) :=
    .ite ((agrees_lastExpression hk hi).lift.bind fun _ => (agrees_body hk hi _).bind fun _ =>
      .pure _) (.pure _)
  refine (agrees_lastExpression hk hi).lift.bind fun condition => (agrees_body hk hi _).bind
    fun _ => (Agrees.loop Draft.size harm _).bind fun _ => .ite ?_ ?_
  · exact agrees_endTag.bind fun _ => (agrees_body hk hi _).bind fun _ => agrees_endTag.bind
      fun _ => .pure _
  · exact agrees_endTag.bind fun _ => .pure _

theorem agrees_forTag (opening : Span) :
    Agrees limit k n (Draft.forTag k (Draft.body k) opening) (forTag limit inner opening) := by
  refine (agrees_loopHead hk hi).lift.bind fun _ => (agrees_body hk hi _).bind fun _ => .ite ?_ ?_
  · exact agrees_endTag.bind fun _ => (agrees_body hk hi _).bind fun _ => agrees_endTag.bind
      fun _ => .pure _
  · exact agrees_endTag.bind fun _ => .pure _

theorem agrees_callTag (opening : Span) :
    Agrees limit k n (Draft.callTag k (Draft.body k) opening) (callTag limit inner opening) :=
  (agrees_callHead hk hi).lift.bind fun _ => (agrees_body hk hi _).bind fun _ =>
    agrees_endTag.bind fun _ => .pure _

theorem agrees_filterTag (opening : Span) :
    Agrees limit k n (Draft.filterTag k (Draft.body k) opening) (filterTag limit inner opening) :=
  (agrees_lastExpression hk hi).lift.bind fun _ => (agrees_body hk hi _).bind fun _ =>
    agrees_endTag.bind fun _ => .pure _

theorem agrees_blockTag (opening : Span) :
    Agrees limit k n (Draft.blockTag (Draft.body k) opening) (blockTag limit inner opening) :=
  (Agrees.plain plain_blockHead).lift.bind fun name => (agrees_body hk hi _).bind fun _ =>
    (Agrees.plain (plain_blockEnd name.value)).lift.bind fun _ =>
      (Agrees.plain (.aside (aside_define _))).bind fun _ => .pure _

theorem agrees_macroTag (opening : Span) :
    Agrees limit k n (Draft.macroTag k (Draft.body k) opening) (macroTag limit inner opening) :=
  (agrees_macroHead hk hi).lift.bind fun _ => (agrees_body hk hi _).bind fun _ =>
    agrees_endTag.bind fun _ => .plain (.aside (aside_define _))

theorem agrees_extendsTag : Agrees limit k n (Draft.extendsTag k) (extendsTag limit inner) :=
  (agrees_lastExpression hk hi).lift.bind fun _ => (Agrees.plain (.aside (aside_setParent _))).bind
    fun _ => .ite (.pure _) (.throw (by simp))

theorem agrees_tag (opening : Span) (name : Identifier) :
    Agrees limit k n (Draft.tag k (Draft.body k) opening name) (tag limit inner opening name) := by
  have hpush {m : DraftM Statement} {m' : CountM Draft Statement} (h : Agrees limit k n m m') :
      Agrees limit k n (m >>= push) (m' >>= fun s => liftM (push s)) :=
    h.bind fun s => .plain (.aside (aside_push s))
  unfold Draft.tag tag
  cases Keyword.ofSpelling? name.value with
  | none => exact .throw (by simp)
  | some word =>
    cases word with
    | ifWord => exact hpush (agrees_ifTag hk hi opening)
    | forWord => exact hpush (agrees_forTag hk hi opening)
    | setWord => exact hpush (agrees_setTag hk hi opening).lift
    | callWord => exact hpush (agrees_callTag hk hi opening)
    | filterWord => exact hpush (agrees_filterTag hk hi opening)
    | blockWord => exact hpush (agrees_blockTag hk hi opening)
    | macroWord => exact agrees_macroTag hk hi opening
    | extendsWord => exact agrees_extendsTag hk hi
    | _ => exact .throw (by simp)

theorem agrees_piece (closers : List Keyword) :
    Agrees limit k n (Draft.piece k (Draft.body k) closers) (piece limit inner closers) := by
  refine (Agrees.plain plain_opening).bind fun found => ?_
  cases found with
  | none => exact .pure _
  | some l =>
    dsimp only
    cases l.token with
    | symbol s =>
      cases s with
      | beginPut =>
        exact (agrees_placeable hk hi l.span).lift.bind fun s =>
          (Agrees.plain (.aside (aside_push s))).bind fun _ => .pure _
      | beginTag =>
        refine (Agrees.plain plain_expectName).lift.bind fun name =>
          (Agrees.plain (.aside (aside_note _))).bind fun _ => ?_
        cases closers.find? (·.spelling = name.value) with
        | some keyword => exact .pure _
        | none => exact (agrees_tag hk hi l.span name).bind fun _ => .pure _
      | _ => exact .throw (by simp [Fault.unexpected])
    | _ => exact .throw (by simp [Fault.unexpected])

theorem agrees_content (closers : List Keyword) :
    Agrees limit k n (Draft.content k (Draft.body k) closers) (content limit inner closers) :=
  .loop Draft.size (fun _ => agrees_piece hk hi closers) none

theorem agrees_openedBody (closers : List Keyword) :
    Agrees limit k n (Draft.body (k + 1) closers) (openedBody limit inner closers) := by
  refine (Agrees.plain (.aside aside_openBody)).bind fun _ => (agrees_content hk hi closers).bind
    fun found => ?_
  cases found with
  | none => exact (Agrees.plain (.aside aside_position)).bind fun _ => .throw (by simp)
  | some closing => exact (Agrees.plain (.aside (aside_closeBody _))).bind fun _ => .pure _

end Levels

/-- The readers of all levels agree, from the last one that can be opened. -/
theorem agrees_inner (limit n : Nat) :
    ∀ i, i + 1 = n → (Counted.inner limit n).Agrees limit i := by
  induction n with
  | zero => simp
  | succ n ih =>
    intro i h
    obtain rfl : i = n := by omega
    exact ⟨fun k hk => agrees_operand hk ih, fun k hk => agrees_operation hk ih,
      fun k hk => agrees_openedBody hk ih⟩

end Readers
end Counted
end TemplateSyntax
