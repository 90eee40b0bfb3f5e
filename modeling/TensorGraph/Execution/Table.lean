/-!
# Tables

Objects with a life of their own (variables, cancel flags, what an executor remembers) are kept in
tables and named by references.  A reference says what kind of object it names; an object is read
with a default, so that reading is total.  The laws say what is read after each operation.
-/

namespace TensorGraph

/-- The place of an object in the table of its kind. -/
structure Ref (α : Type) where
  index : Nat
deriving DecidableEq, Repr, Inhabited

/-- The objects of one kind. -/
structure Table (α : Type) where
  entries : Array α
deriving Repr, Inhabited

namespace Table

variable {α : Type}

/-- A table without objects. -/
def empty : Table α := ⟨#[]⟩

/-- Whether a reference names an object of the table. -/
def Has (t : Table α) (r : Ref α) : Prop := r.index < t.entries.size

instance (t : Table α) (r : Ref α) : Decidable (t.Has r) := inferInstanceAs (Decidable (_ < _))

/-- The object that a reference names. -/
def get [Inhabited α] (t : Table α) (r : Ref α) : α := t.entries[r.index]?.getD default

/-- The table with another object in the place of a reference. -/
def put (t : Table α) (r : Ref α) (a : α) : Table α := ⟨t.entries.setIfInBounds r.index a⟩

/-- The table with one more object. -/
def add (t : Table α) (a : α) : Ref α × Table α := (⟨t.entries.size⟩, ⟨t.entries.push a⟩)

/-- The table with a blank in the place of every object that none of the references names. -/
def retain (t : Table α) (blank : α) (refs : List (Ref α)) : Table α :=
  ⟨t.entries.mapIdx fun i a => if refs.any (·.index == i) then a else blank⟩

/-- The objects in order of creation. -/
def toList (t : Table α) : List α := t.entries.toList

theorem get_put_same [Inhabited α] {t : Table α} {r : Ref α} (h : t.Has r) (a : α) :
    (t.put r a).get r = a := by
  simp only [Has] at h
  simp [put, get, h]

theorem get_put_ne [Inhabited α] (t : Table α) {q r : Ref α} (h : q ≠ r) (a : α) :
    (t.put q a).get r = t.get r := by
  have : q.index ≠ r.index := fun e => h (by cases q; cases r; simp_all)
  simp [put, get, this]

@[simp] theorem get_add [Inhabited α] (t : Table α) (a : α) : (t.add a).2.get (t.add a).1 = a := by
  simp [add, get]

@[simp] theorem has_put (t : Table α) (q r : Ref α) (a : α) : (t.put q a).Has r ↔ t.Has r := by
  simp [put, Has]

end Table

end TensorGraph
