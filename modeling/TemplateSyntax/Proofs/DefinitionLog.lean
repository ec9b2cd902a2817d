import TemplateSyntax.Proofs.Salvage

/-!
# The log and the tables

Each definition is noted and kept under its name. If its table held the name before, an earlier
definition is lost, which is reported right behind the note. So the log accounts for the tables:
their keys are the names that were noted, and each table has as many keys as definitions that were
noted and not lost.
-/
namespace TemplateSyntax

namespace Table
variable {α : Type}

theorem mem_names_iff {t : Table α} {name : String} :
    name ∈ t.names ↔ (t.find? name).isSome = true := by
  simp [names, find?, List.find?_isSome]

theorem length_bind {es : List (String × α)} (h : es.Pairwise fun a b => a.1 < b.1)
    (name : String) (value : α) : (bind name value es).length =
      es.length + if (es.find? fun e => e.1 == name).isSome then 0 else 1 := by
  induction es with
  | nil => rfl
  | cons e es ih =>
    obtain ⟨he, hes⟩ := List.pairwise_cons.mp h
    unfold bind
    split
    · next hlt =>
      -- All names are behind this one, so it is not among them.
      have hnone : (e :: es).find? (fun e => e.1 == name) = none := by
        rw [List.find?_eq_none]
        intro d hd heq
        obtain rfl := eq_of_beq heq
        rcases List.mem_cons.mp hd with rfl | hd
        · exact String.lt_irrefl _ hlt
        · exact String.lt_irrefl _ (String.lt_trans hlt (he d hd))
      simp [hnone]
    · split
      · next heq => simp [heq]
      · next hne =>
        have hfind : (e :: es).find? (fun d => d.1 == name) = es.find? fun d => d.1 == name :=
          List.find?_cons_of_neg (by simpa using Ne.symm hne)
        rw [hfind, List.length_cons, ih hes, List.length_cons, Nat.add_right_comm]

/-- A table grows by the names that it did not hold. -/
theorem length_names_insert (t : Table α) (name : String) (value : α) :
    (t.insert name value).names.length =
      t.names.length + if (t.find? name).isSome then 0 else 1 := by
  rw [find?, Option.isSome_map]
  simpa [names, insert] using length_bind t.ascending name value

end Table

/-! ## The log -/

namespace Event

/-- The definition that an event tells of as taking the place of another one. -/
def redefined? : Event → Option Definition
  | .redefined x => some x
  | _ => none

/-- Logs of tags and definitions. Where an earlier definition has the same kind and name, its loss
is reported right behind the definition. -/
inductive Regular : List Event → Prop
  | nil : Regular []
  | tag {log : List Event} (h : Regular log) (name : String) (span : Span) :
    Regular (log ++ [.tag name span])
  | defined {log : List Event} (h : Regular log) (x : Definition) :
    Regular (log ++ .defined x ::
      if (log.filterMap defined?).any (·.isOf x.kind x.name) then [.redefined x] else [])

theorem split_append {log rest before after : List Event} {e : Event}
    (h : log ++ rest = before ++ e :: after) :
    (∃ between, log = before ++ e :: between ∧ after = between ++ rest) ∨
      ∃ between, before = log ++ between ∧ rest = between ++ e :: after := by
  rcases List.append_eq_append_iff.mp h with h | ⟨between, hlog, hafter⟩
  · exact .inr h
  · cases between with
    | nil => exact .inr ⟨[], by simpa using hlog.symm, hafter.symm⟩
    | cons d between =>
      obtain ⟨rfl, hrest⟩ := List.cons.inj hafter
      exact .inl ⟨between, hlog, hrest⟩

namespace Regular
variable {log before after : List Event} {x : Definition}

/-- A loss is reported behind a definition exactly if an earlier one has its kind and name. -/
theorem head?_after (h : Regular log) (hlog : log = before ++ .defined x :: after) :
    after.head? = some (.redefined x) ↔
      ∃ y ∈ before.filterMap defined?, y.isOf x.kind x.name = true := by
  induction h generalizing after with
  | nil => simp at hlog
  | tag h name span ih =>
    rcases split_append hlog with ⟨between, hinside, rfl⟩ | ⟨between, -, hrest⟩
    · rw [← ih hinside]
      cases between <;> simp
    · cases between <;> simp at hrest
  | @defined log h y ih =>
    rcases split_append hlog with ⟨between, hinside, rfl⟩ | ⟨between, hbefore, hrest⟩
    · rw [← ih hinside]
      cases between <;> simp
    · cases between with
      | nil =>
        obtain ⟨hxy, rfl⟩ := List.cons.inj hrest
        obtain rfl := Event.defined.inj hxy
        rw [List.append_nil] at hbefore
        rw [hbefore, ← List.any_eq_true]
        split <;> simp_all
      | cons e between =>
        have hrest := (List.cons.inj hrest).2
        split at hrest <;> cases between <;> simp at hrest

/-- Nothing but a definition is followed by the report of a loss. -/
theorem getLast?_before (h : Regular log) (hlog : log = before ++ .redefined x :: after) :
    before.getLast? = some (.defined x) := by
  induction h generalizing after with
  | nil => simp at hlog
  | tag h name span ih =>
    rcases split_append hlog with ⟨between, hinside, -⟩ | ⟨between, -, hrest⟩
    · exact ih hinside
    · cases between <;> simp at hrest
  | @defined log h y ih =>
    rcases split_append hlog with ⟨between, hinside, -⟩ | ⟨between, hbefore, hrest⟩
    · exact ih hinside
    · cases between with
      | nil => simp at hrest
      | cons e between =>
        obtain ⟨rfl, hlost⟩ := List.cons.inj hrest
        split at hlost
        · cases between with
          | nil =>
            obtain ⟨hxy, -⟩ := List.cons.inj hlost
            rw [hbefore, Event.redefined.inj hxy]
            simp
          | cons _ _ => simp at hlost
        · cases between <;> simp at hlost

end Regular
end Event

/-! ## Drafts -/

namespace Draft

/-- The definitions that have taken the place of another one. -/
def replacing (d : Draft) : List Definition := d.log.filterMap Event.redefined?

/-- The names that definitions of a kind are kept under. -/
def names (d : Draft) : Keyword → List String
  | .macroWord => d.macros.names
  | .blockWord => d.blocks.names
  | _ => []

/-- The log accounts for the tables. -/
structure Booked (d : Draft) : Prop where
  regular : Event.Regular d.log
  keepsLast : d.KeepsLast
  counted : ∀ kind, d.logged.countP (·.kind = kind) =
    (d.names kind).length + d.replacing.countP (·.kind = kind)

variable {d : Draft}

theorem booked_ofText (text : String) : (ofText text).Booked where
  regular := .nil
  keepsLast kind name := by cases kind <;> rfl
  counted kind := by cases kind <;> rfl

theorem holds_eq (d : Draft) (x : Definition) : d.holds x = (d.kept? x.kind x.name).isSome := by
  cases x <;> simp [holds, kept?, Definition.kind, Definition.name]

theorem mem_names_iff {kind : Keyword} {key : String} :
    key ∈ d.names kind ↔ (d.kept? kind key).isSome = true := by
  cases kind <;> simp [names, kept?, Table.mem_names_iff]

theorem length_names_defining (d : Draft) (x : Definition) (kind : Keyword) :
    ((d.defining x).names kind).length =
      (d.names kind).length + if x.kind = kind ∧ d.holds x = false then 1 else 0 := by
  cases x with
  | ofMacro m =>
    cases kind <;> simp [names, defining, keep, Definition.kind, holds, Table.length_names_insert]
    cases Table.find? _ _ <;> rfl
  | ofBlock b =>
    cases kind <;> simp [names, defining, keep, Definition.kind, holds, Table.length_names_insert]
    cases Table.find? _ _ <;> rfl

theorem KeepsLast.holds_eq_any (h : d.KeepsLast) (x : Definition) :
    d.holds x = d.logged.any (·.isOf x.kind x.name) := by
  rw [holds_eq, h, Bool.eq_iff_iff, List.find?_isSome, List.any_eq_true]
  simp

/-- The names of a table are those of the definitions that were noted. -/
theorem KeepsLast.mem_names_iff (h : d.KeepsLast) {kind : Keyword} {key : String} :
    key ∈ d.names kind ↔ ∃ x ∈ d.logged, x.isOf kind key = true := by
  rw [Draft.mem_names_iff, h, List.find?_isSome]
  simp

/-- What is kept under a key is of that name. -/
theorem KeepsLast.isOf_of_kept? (h : d.KeepsLast) {kind : Keyword} {key : String} {x : Definition}
    (hx : d.kept? kind key = some x) : x.isOf kind key = true := by
  rw [h kind key] at hx
  have hfound := List.find?_some hx
  exact hfound

theorem replacing_defining (d : Draft) (x : Definition) :
    (d.defining x).replacing = d.replacing ++ if d.holds x then [x] else [] := by
  rw [replacing, log_defining]
  cases d.holds x <;> simp [replacing, Event.redefined?, List.filterMap_cons]

theorem Booked.defining (h : d.Booked) (x : Definition) : (d.defining x).Booked where
  regular := by
    rw [log_defining, h.keepsLast.holds_eq_any]
    exact .defined h.regular x
  keepsLast := h.keepsLast.defining x
  counted kind := by
    rw [logged_defining, replacing_defining, length_names_defining, List.countP_append,
      List.countP_append, h.counted]
    by_cases hkind : x.kind = kind <;> cases d.holds x <;> simp [hkind] <;> omega

theorem Booked.noted (h : d.Booked) (name : String) (span : Span) :
    Booked { d with log := d.log ++ [.tag name span] } where
  regular := .tag h.regular name span
  keepsLast := h.keepsLast.noted name span
  counted kind := by
    have hreplacing : ({ d with log := d.log ++ [.tag name span] } : Draft).replacing =
        d.replacing := by
      simp [replacing, Event.redefined?]
    rw [logged_noted, hreplacing]
    exact h.counted kind

end Draft
end TemplateSyntax
