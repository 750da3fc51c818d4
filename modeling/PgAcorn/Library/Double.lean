import Mathlib.Data.Int.Order.Basic

/-! The comparisons of C doubles.

`CDouble` asks of a type of doubles what a program that only compares them may
rely on, not-a-number and the infinities included: a value below another one is
at most it, differs from it and is not above it. Nothing is said of values that
do not compare. `dblMax` and `negDblMax` are the largest finite value and its
negative, which C programs use as sentinels; they are not extreme, the infinities
lie beyond them.

`ExtInt` is an executable instance. -/
namespace PgAcorn.Library

class CDouble (D : Type) where
  lt : D → D → Bool
  le : D → D → Bool
  eq : D → D → Bool
  dblMax : D
  negDblMax : D
  le_of_lt : ∀ {a b : D}, lt a b = true → le a b = true
  ne_of_lt : ∀ {a b : D}, lt a b = true → eq a b = false
  asymm : ∀ {a b : D}, lt a b = true → lt b a = false
  trans : ∀ {a b c : D}, lt a b = true → lt b c = true → lt a c = true
  eq_dblMax : eq dblMax dblMax = true

namespace CDouble
variable {D : Type} [CDouble D]

/-- The `Min` macro. -/
def min (a b : D) : D := if lt a b then a else b

theorem irrefl (a : D) : lt a a = false := by
  cases h : lt a a with
  | false => rfl
  | true => exact h.symm.trans (asymm h)

/-- `Min` returns one of its arguments. -/
theorem min_eq (a b : D) : min a b = a ∨ min a b = b := by
  unfold min
  split
  · exact .inl rfl
  · exact .inr rfl

/-- The sentinel loses to any value below it. -/
theorem min_dblMax_right {a : D} (h : lt a dblMax = true) : min a dblMax = a := if_pos h

/-- A minimum is below the sentinel once one side is and the other is at most the
sentinel. -/
theorem min_lt {a b : D} (ha : lt a dblMax = true ∨ a = dblMax)
    (hb : lt b dblMax = true ∨ b = dblMax) (h : lt a dblMax = true ∨ lt b dblMax = true) :
    lt (min a b) dblMax = true := by
  rcases ha with ha | rfl
  · rcases hb with hb | rfl
    · rcases min_eq a b with hm | hm <;> rw [hm] <;> assumption
    · rwa [min_dblMax_right ha]
  · have hb' : lt b dblMax = true := h.elim (fun h' => absurd (h'.symm.trans (irrefl _)) (by simp)) id
    rwa [min, asymm hb']

theorem min_dblMax_left {a : D} (h : lt a dblMax = true) : min dblMax a = a := by
  rw [min, asymm h]
  rfl

/-- A value that does not lose to the sentinel is not below it. -/
theorem lt_of_min_ne {a : D} (h : eq (min a dblMax) dblMax = false) : lt a dblMax = true := by
  cases hlt : lt a dblMax with
  | true => rfl
  | false =>
    rw [min, hlt] at h
    exact absurd (h.symm.trans eq_dblMax) (by simp)

theorem min_dblMax : min (dblMax : D) dblMax = dblMax := by
  rw [min, irrefl]
  rfl

end CDouble

/-! ### An executable instance -/

/-- Integers with two infinities and a not-a-number. -/
inductive ExtInt
  | nan
  | negInf
  | fin (z : Int)
  | posInf
  deriving DecidableEq, Repr

namespace ExtInt

def lt : ExtInt → ExtInt → Bool
  | nan, _ => false
  | _, nan => false
  | negInf, negInf => false
  | negInf, _ => true
  | fin a, fin b => decide (a < b)
  | fin _, posInf => true
  | fin _, negInf => false
  | posInf, _ => false

def eq : ExtInt → ExtInt → Bool
  | nan, _ => false
  | a, b => decide (a = b)

def le (a b : ExtInt) : Bool := lt a b || eq a b

/-- `DBL_MAX`. -/
def dblMax : Int := Int.ofNat ((1 <<< 53 - 1) <<< 971)

instance : CDouble ExtInt where
  lt := lt
  le := le
  eq := eq
  dblMax := fin dblMax
  negDblMax := fin (-dblMax)
  le_of_lt h := by simp [le, h]
  ne_of_lt {a b} h := by cases a <;> cases b <;> simp_all [lt, eq]; omega
  asymm {a b} h := by cases a <;> cases b <;> simp_all [lt]; omega
  trans {a b c} h h' := by cases a <;> cases b <;> cases c <;> simp_all [lt]; omega
  eq_dblMax := by simp [eq]

end ExtInt

end PgAcorn.Library
