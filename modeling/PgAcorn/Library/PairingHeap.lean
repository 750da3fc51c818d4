import Mathlib.Data.Multiset.AddSub
import Mathlib.Data.Multiset.MapFold

/-! Priority queues ordered by a comparator, as an interface.

A heap is allocated with a comparator and from then on adds elements and removes
its first one; `after a b` says that the comparator places `a` strictly behind
`b`. `PairingHeap` is an implementation together with what its users may rely
on: it neither loses nor invents elements, whatever the comparator; when the
comparator is a strict weak order, the element removed is behind no other; and
it looks at elements through the comparator only, so an order-preserving renaming
of the elements commutes with every operation. Which of several equal elements
comes first is left to the implementation.

`PairingHeap.list` is one such implementation, for evaluation. -/
namespace PgAcorn.Library

/-- The comparator is a strict weak order. -/
structure StrictWeak {α : Type} (after : α → α → Bool) : Prop where
  asymm : ∀ a b, after a b = true → after b a = false
  cotrans : ∀ a b c, after a c = true → after a b = true ∨ after b c = true

/-- A renaming of elements that the two comparators do not see. -/
def Preserves {α β : Type} (after : α → α → Bool) (after' : β → β → Bool) (f : α → β) : Prop :=
  ∀ a b, after' (f a) (f b) = after a b

/-- An implementation of comparator-ordered heaps and its contract. -/
structure PairingHeap where
  Heap : {α : Type} → (α → α → Bool) → Type
  allocate : {α : Type} → (after : α → α → Bool) → Heap after
  add : {α : Type} → {after : α → α → Bool} → Heap after → α → Heap after
  removeFirst : {α : Type} → {after : α → α → Bool} → Heap after → Option (α × Heap after)
  /-- The elements the heap holds. -/
  contents : {α : Type} → {after : α → α → Bool} → Heap after → Multiset α
  contents_allocate : ∀ {α : Type} (after : α → α → Bool), contents (allocate after) = 0
  contents_add : ∀ {α : Type} {after : α → α → Bool} (h : Heap after) (x : α),
    contents (add h x) = x ::ₘ contents h
  removeFirst_none : ∀ {α : Type} {after : α → α → Bool} (h : Heap after),
    removeFirst h = none ↔ contents h = 0
  removeFirst_some : ∀ {α : Type} {after : α → α → Bool} {h h' : Heap after} {x : α},
    removeFirst h = some (x, h') → contents h = x ::ₘ contents h'
  removeFirst_first : ∀ {α : Type} {after : α → α → Bool} {h h' : Heap after} {x : α},
    StrictWeak after → removeFirst h = some (x, h') → ∀ y ∈ contents h', after x y = false
  /-- A heap of renamed elements. -/
  map : {α β : Type} → {after : α → α → Bool} → {after' : β → β → Bool} → (f : α → β) →
    Preserves after after' f → Heap after → Heap after'
  map_allocate : ∀ {α β : Type} {after : α → α → Bool} {after' : β → β → Bool} (f : α → β)
    (hf : Preserves after after' f), map f hf (allocate after) = allocate after'
  map_add : ∀ {α β : Type} {after : α → α → Bool} {after' : β → β → Bool} (f : α → β)
    (hf : Preserves after after' f) (h : Heap after) (x : α),
    map f hf (add h x) = add (map f hf h) (f x)
  map_removeFirst : ∀ {α β : Type} {after : α → α → Bool} {after' : β → β → Bool} (f : α → β)
    (hf : Preserves after after' f) (h : Heap after),
    removeFirst (map f hf h) = (removeFirst h).map fun p => (f p.1, map f hf p.2)

namespace PairingHeap

section Operations
variable (H : PairingHeap) {α : Type} {after : α → α → Bool}

/-- The element `removeFirst` would remove. -/
def first (h : H.Heap after) : Option α := (H.removeFirst h).map Prod.fst

def isEmpty (h : H.Heap after) : Bool := (H.removeFirst h).isNone

variable {H}

theorem isEmpty_iff (h : H.Heap after) : H.isEmpty h = true ↔ H.contents h = 0 := by
  rw [isEmpty, Option.isNone_iff_eq_none, H.removeFirst_none]

theorem first_none (h : H.Heap after) : H.first h = none ↔ H.contents h = 0 := by
  rw [first, Option.map_eq_none_iff, H.removeFirst_none]

/-- The first element is one of the heap's. -/
theorem first_mem {h : H.Heap after} {x : α} (hx : H.first h = some x) : x ∈ H.contents h := by
  obtain ⟨⟨y, h'⟩, hr, rfl⟩ := Option.map_eq_some_iff.mp hx
  rw [H.removeFirst_some hr]
  exact Multiset.mem_cons_self _ _

/-- A heap with elements has a first one, and removing it leaves the others. -/
theorem exists_removeFirst {h : H.Heap after} (hne : H.contents h ≠ 0) :
    ∃ x h', H.removeFirst h = some (x, h') := by
  cases hr : H.removeFirst h with
  | none => exact absurd ((H.removeFirst_none h).mp hr) hne
  | some p => exact ⟨p.1, p.2, rfl⟩

/-- A heap with elements has a first one. -/
theorem exists_first {h : H.Heap after} (hne : H.contents h ≠ 0) :
    ∃ x, H.first h = some x ∧ x ∈ H.contents h := by
  cases hf : H.first h with
  | none => exact absurd ((first_none h).mp hf) hne
  | some x => exact ⟨x, rfl, first_mem hf⟩

/-- The first element is behind no other. -/
theorem first_le {h : H.Heap after} {x : α} (hw : StrictWeak after) (hx : H.first h = some x) :
    ∀ y ∈ H.contents h, after x y = false := by
  obtain ⟨⟨z, h'⟩, hr, rfl⟩ := Option.map_eq_some_iff.mp hx
  intro y hy
  rw [H.removeFirst_some hr, Multiset.mem_cons] at hy
  obtain rfl | hy := hy
  · cases hyy : after y y with
    | false => rfl
    | true => exact (hw.asymm y y hyy).symm.trans hyy |>.symm
  · exact H.removeFirst_first hw hr y hy

end Operations

/-! ### Lists as heaps -/

section List
variable {α β : Type}

/-- The first of `x` and a list, and what remains. -/
def selectFirst (after : α → α → Bool) : α → List α → α × List α
  | x, [] => (x, [])
  | x, y :: ys =>
    if after x y then
      let r := selectFirst after y ys
      (r.1, x :: r.2)
    else
      let r := selectFirst after x ys
      (r.1, y :: r.2)

theorem selectFirst_perm (after : α → α → Bool) (x : α) (xs : List α) :
    List.Perm (x :: xs) ((selectFirst after x xs).1 :: (selectFirst after x xs).2) := by
  induction xs generalizing x with
  | nil => exact List.Perm.refl _
  | cons y ys ih =>
    rw [selectFirst]
    split
    · exact (List.Perm.cons x (ih y)).trans (List.Perm.swap _ _ _)
    · exact (List.Perm.swap _ _ _).trans ((List.Perm.cons y (ih x)).trans (List.Perm.swap _ _ _))

theorem selectFirst_first {after : α → α → Bool} (hw : StrictWeak after) (x : α) (xs : List α) :
    ∀ z ∈ x :: xs, after (selectFirst after x xs).1 z = false := by
  have irrefl : ∀ a, after a a = false := fun a => by
    cases h : after a a with
    | false => rfl
    | true => exact h.symm.trans (hw.asymm a a h)
  induction xs generalizing x with
  | nil => simpa [selectFirst] using irrefl x
  | cons y ys ih =>
    rw [selectFirst]
    split
    · rename_i hxy
      intro z hz
      obtain rfl | hz := List.mem_cons.mp hz
      · -- the winner is not behind `y`, hence not behind `z`, which is behind `y`
        by_contra hb
        rw [Bool.not_eq_false] at hb
        rcases hw.cotrans _ y _ hb with h | h
        · exact absurd h (by simp [ih y y (by simp)])
        · exact absurd h (by simp [hw.asymm _ _ hxy])
      · exact ih y z hz
    · rename_i hxy
      intro z hz
      obtain rfl | hz := List.mem_cons.mp hz
      · exact ih _ _ (by simp)
      · obtain rfl | hz := List.mem_cons.mp hz
        · by_contra hb
          rw [Bool.not_eq_false] at hb
          rcases hw.cotrans _ x _ hb with h | h
          · exact absurd h (by simp [ih x x (by simp)])
          · exact absurd h hxy
        · exact ih x z (by simp [hz])

theorem selectFirst_map {after : α → α → Bool} {after' : β → β → Bool} {f : α → β}
    (hf : Preserves after after' f) (x : α) (xs : List α) :
    selectFirst after' (f x) (xs.map f) =
      (f (selectFirst after x xs).1, (selectFirst after x xs).2.map f) := by
  induction xs generalizing x with
  | nil => rfl
  | cons y ys ih =>
    rw [List.map_cons, selectFirst, selectFirst, hf]
    split
    · rw [ih]
      rfl
    · rw [ih]
      rfl

/-- Unsorted lists, searched on removal. -/
def list : PairingHeap where
  Heap {α} _ := List α
  allocate _ := []
  add h x := h ++ [x]
  removeFirst {_ after} h :=
    match h with
    | [] => none
    | x :: xs => some (selectFirst after x xs)
  contents h := h
  contents_allocate _ := rfl
  contents_add h x := Multiset.coe_eq_coe.mpr (List.perm_append_singleton x h)
  removeFirst_none h := by cases h <;> simp
  removeFirst_some {_ after h h' x} hr := by
    cases h with
    | nil => cases hr
    | cons y ys =>
      have hp := selectFirst_perm after y ys
      rw [Option.some.inj hr] at hp
      exact Multiset.coe_eq_coe.mpr hp
  removeFirst_first {_ after h h' x} hw hr z hz := by
    cases h with
    | nil => cases hr
    | cons y ys =>
      have hmem : z ∈ y :: ys := by
        rw [(selectFirst_perm after y ys).mem_iff, Option.some.inj hr]
        exact List.mem_cons_of_mem _ hz
      have := selectFirst_first hw y ys z hmem
      rwa [Option.some.inj hr] at this
  map f _ h := h.map f
  map_allocate _ _ := rfl
  map_add f _ h x := by simp
  map_removeFirst f hf h := by
    cases h with
    | nil => rfl
    | cons x xs =>
      simp only [List.map_cons, Option.map_some]
      rw [selectFirst_map hf]

end List

end PairingHeap

end PgAcorn.Library
