import Mathlib.Data.List.Basic

/-! Blocks of memory that are allocated, changed in place and freed.

An arena keeps its blocks in the order they were allocated; a pointer is a
position counted from one, and 0 is no pointer. A freed block stays in the list
with a mark, so that no later allocation is ever taken for it: `block?` is what was put
at a pointer, `get?` is what may still be read there. -/
namespace PgAcorn.Library

universe u

/-- Blocks, each with whether it has been freed. -/
structure Arena (α : Type u) where
  blocks : List (α × Bool)

namespace Arena
variable {α : Type u}

def empty : Arena α := ⟨[]⟩

/-- What was put at a pointer. -/
def block? (m : Arena α) (p : Nat) : Option (α × Bool) := if p = 0 then none else m.blocks[p - 1]?

/-- What may be read at a pointer. -/
def get? (m : Arena α) (p : Nat) : Option α :=
  (m.block? p).bind fun x => if x.2 then none else some x.1

/-- The pointer that the next allocation returns. -/
def next (m : Arena α) : Nat := m.blocks.length + 1

def allocate (m : Arena α) (x : α) : Arena α := ⟨m.blocks ++ [(x, false)]⟩

def modify (m : Arena α) (p : Nat) (f : α → α) : Arena α :=
  if p = 0 then m else ⟨m.blocks.modify (p - 1) fun x => (f x.1, x.2)⟩

def free (m : Arena α) (p : Nat) : Arena α :=
  if p = 0 then m else ⟨m.blocks.modify (p - 1) fun x => (x.1, true)⟩

/-- Several blocks freed. -/
def freeAll (m : Arena α) (ps : List Nat) : Arena α := ps.foldl free m

/-! ### Reads after writes -/

@[simp] theorem block?_empty (p : Nat) : (empty : Arena α).block? p = none := by
  unfold block? empty
  split <;> simp

@[simp] theorem block?_zero (m : Arena α) : m.block? 0 = none := rfl

theorem block?_none_of_next_le {m : Arena α} {p : Nat} (h : m.next ≤ p) : m.block? p = none := by
  unfold block? next at *
  split
  · rfl
  · rw [List.getElem?_eq_none_iff]
    omega

@[simp] theorem block?_next (m : Arena α) : m.block? m.next = none :=
  block?_none_of_next_le (Nat.le_refl _)

theorem block?_allocate (m : Arena α) (x : α) (p : Nat) :
    (m.allocate x).block? p = if p = m.next then some (x, false) else m.block? p := by
  unfold block? allocate next
  by_cases h0 : p = 0
  · subst h0
    simp
  · simp only [h0, if_false]
    by_cases hp : p = m.blocks.length + 1
    · subst hp
      simp
    · rw [if_neg hp]
      by_cases hlt : p - 1 < m.blocks.length
      · rw [List.getElem?_append_left hlt]
      · rw [List.getElem?_eq_none_iff.mpr (by simp; omega),
          List.getElem?_eq_none_iff.mpr (by omega)]

theorem block?_modify (m : Arena α) (p q : Nat) (f : α → α) : (m.modify p f).block? q =
    if p = q then (m.block? q).map fun x => (f x.1, x.2) else m.block? q := by
  unfold modify
  by_cases h0 : p = 0
  · subst h0
    rw [if_pos rfl]
    split
    · subst_vars
      rfl
    · rfl
  · rw [if_neg h0]
    unfold block?
    by_cases hq : q = 0
    · subst hq
      simp
    · simp only [hq, if_false]
      rw [List.getElem?_modify]
      by_cases hpq : p = q
      · subst hpq
        simp
      · simp [hpq, show p - 1 ≠ q - 1 by omega]

theorem block?_free (m : Arena α) (p q : Nat) : (m.free p).block? q =
    if p = q then (m.block? q).map fun x => (x.1, true) else m.block? q := by
  unfold free
  by_cases h0 : p = 0
  · subst h0
    rw [if_pos rfl]
    split
    · subst_vars
      rfl
    · rfl
  · rw [if_neg h0]
    unfold block?
    by_cases hq : q = 0
    · subst hq
      simp
    · simp only [hq, if_false]
      rw [List.getElem?_modify]
      by_cases hpq : p = q
      · subst hpq
        simp
      · simp [hpq, show p - 1 ≠ q - 1 by omega]

theorem block?_freeAll (m : Arena α) (ps : List Nat) (q : Nat) : (m.freeAll ps).block? q =
    if q ∈ ps then (m.block? q).map fun x => (x.1, true) else m.block? q := by
  unfold freeAll
  induction ps generalizing m with
  | nil => simp
  | cons p ps ih =>
    rw [List.foldl_cons, ih, block?_free]
    by_cases hp : p = q
    · subst hp
      simp [Function.comp_def]
    · simp [hp, Ne.symm hp]

/-! ### What may be read -/

@[simp] theorem get?_next (m : Arena α) : m.get? m.next = none := by simp [get?]

theorem get?_allocate (m : Arena α) (x : α) (p : Nat) :
    (m.allocate x).get? p = if p = m.next then some x else m.get? p := by
  unfold get?
  rw [block?_allocate]
  split <;> rfl

theorem get?_modify (m : Arena α) (p q : Nat) (f : α → α) :
    (m.modify p f).get? q = if p = q then (m.get? q).map f else m.get? q := by
  unfold get?
  rw [block?_modify]
  split
  · cases m.block? q with
    | none => rfl
    | some x => obtain ⟨x, freed⟩ := x; cases freed <;> rfl
  · rfl

theorem get?_freeAll (m : Arena α) (ps : List Nat) (q : Nat) :
    (m.freeAll ps).get? q = if q ∈ ps then none else m.get? q := by
  unfold get?
  rw [block?_freeAll]
  split
  · cases m.block? q <;> rfl
  · rfl

end Arena

end PgAcorn.Library
