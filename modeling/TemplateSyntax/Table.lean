/-!
# Tables of names

A table binds names to values, in ascending order of the names by code points. As each name is bound
once and the order is fixed, two tables with the same bindings are equal.
-/
namespace TemplateSyntax

/-- Bindings of names, in ascending order. -/
structure Table (α : Type) where
  entries : List (String × α)
  ascending : entries.Pairwise fun a b => a.1 < b.1

namespace Table

variable {α : Type}

instance [DecidableEq α] : DecidableEq (Table α) := fun a b =>
  decidable_of_iff (a.entries = b.entries) (by cases a; cases b; simp)

def empty : Table α := ⟨[], .nil⟩

/-- The keys, in ascending order. -/
def names (t : Table α) : List String := t.entries.map (·.1)

/-- What a name is bound to. -/
def find? (t : Table α) (name : String) : Option α :=
  (t.entries.find? fun e => e.1 == name).map (·.2)

/-- Bind a name among ascending bindings. An earlier binding of the name is replaced. -/
def bind (name : String) (value : α) : List (String × α) → List (String × α)
  | [] => [(name, value)]
  | e :: es =>
    if name < e.1 then (name, value) :: e :: es
    else if name = e.1 then (name, value) :: es
    else e :: bind name value es

theorem mem_bind {name : String} {value : α} {es : List (String × α)} {e : String × α}
    (h : e ∈ bind name value es) : e = (name, value) ∨ e ∈ es := by
  induction es with
  | nil => simpa [bind] using h
  | cons d es ih =>
    unfold bind at h
    split at h
    · simpa using h
    · split at h
      · rcases List.mem_cons.mp h with h | h
        · exact .inl h
        · exact .inr (List.mem_cons_of_mem _ h)
      · rcases List.mem_cons.mp h with h | h
        · exact .inr (h ▸ List.mem_cons_self)
        · exact (ih h).imp id (List.mem_cons_of_mem _)

theorem pairwise_bind (name : String) (value : α) {es : List (String × α)}
    (h : es.Pairwise fun a b => a.1 < b.1) :
    (bind name value es).Pairwise fun a b => a.1 < b.1 := by
  induction es with
  | nil => exact List.pairwise_singleton ..
  | cons d es ih =>
    obtain ⟨hd, hes⟩ := List.pairwise_cons.mp h
    unfold bind
    split
    · next hlt =>
      refine List.pairwise_cons.mpr ⟨fun e he => ?_, h⟩
      rcases List.mem_cons.mp he with rfl | he
      · exact hlt
      · exact String.lt_trans hlt (hd e he)
    · next hlt =>
      split
      · next heq => exact List.pairwise_cons.mpr ⟨fun e he => heq ▸ hd e he, hes⟩
      · next hne =>
        refine List.pairwise_cons.mpr ⟨fun e he => ?_, ih hes⟩
        rcases mem_bind he with rfl | he
        · exact Std.lt_of_le_of_ne (String.not_lt.mp hlt) (Ne.symm hne)
        · exact hd e he

/-- Bind a name. An earlier binding of the name is replaced. -/
def insert (t : Table α) (name : String) (value : α) : Table α :=
  ⟨bind name value t.entries, pairwise_bind name value t.ascending⟩

@[simp] theorem find?_empty (name : String) : (empty : Table α).find? name = none := rfl

theorem find?_bind (name : String) (value : α) (es : List (String × α)) (other : String) :
    ((bind name value es).find? fun e => e.1 == other) =
      if name = other then some (name, value) else es.find? fun e => e.1 == other := by
  induction es with
  | nil => by_cases h : name = other <;> simp [bind, h]
  | cons e es ih =>
    unfold bind
    split
    · by_cases h : name = other <;> simp [h]
    · split
      · next heq => by_cases h : name = other <;> simp [← heq, h]
      · next hne =>
        by_cases h : name = other
        · subst h
          simp [ih, Ne.symm hne]
        · by_cases he : e.1 = other <;> simp [ih, h, he]

/-- Binding a name changes what that name is bound to, and nothing else. -/
theorem find?_insert (t : Table α) (name : String) (value : α) (other : String) :
    (t.insert name value).find? other = if name = other then some value else t.find? other := by
  by_cases h : name = other <;> simp [find?, insert, find?_bind, h]

theorem mem_names_bind {name other : String} {value : α} {es : List (String × α)} :
    other ∈ (bind name value es).map (·.1) ↔ other = name ∨ other ∈ es.map (·.1) := by
  induction es with
  | nil => simp [bind]
  | cons e es ih =>
    unfold bind
    split
    · simp
    · split
      · next heq => simp [← heq]
      · rw [List.map_cons, List.mem_cons, ih, List.map_cons, List.mem_cons]
        exact or_left_comm

/-- Binding a name adds that name, and loses none. -/
theorem mem_names_insert {t : Table α} {name other : String} {value : α} :
    other ∈ (t.insert name value).names ↔ other = name ∨ other ∈ t.names := mem_names_bind

end Table
end TemplateSyntax
