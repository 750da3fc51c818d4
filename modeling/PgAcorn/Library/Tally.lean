import Mathlib.Data.Nat.ModEq
import Mathlib.Logic.Function.Basic

/-! Counts by key in machine integers.

A tally goes over a list and adds one to the counter of each element's key. The counters
have a fixed width, so what a counter holds is the number of elements with its key, modulo
a power of two (`tally_apply`). Two passes over one list may count by different tests;
they agree on a key where what only the one counts is as much as what only the other
does (`toInt_countP_eq_iff`). -/
namespace PgAcorn.Library

section
variable {κ : Type*} [DecidableEq κ] {w : Nat}

/-- One more for a key. -/
def bump (counts : κ → BitVec w) (k : κ) : κ → BitVec w :=
  Function.update counts k (counts k + 1#w)

theorem bump_apply (counts : κ → BitVec w) (k k' : κ) :
    bump counts k k' = counts k' + BitVec.ofNat w (if k = k' then 1 else 0) := by
  unfold bump
  by_cases hk : k = k'
  · subst hk
    rw [Function.update_self, if_pos rfl]
  · rw [Function.update_of_ne (Ne.symm hk), if_neg hk]
    exact (BitVec.add_zero _).symm

/-- The keys of a list counted one after the other. -/
theorem foldl_bump (counts : κ → BitVec w) (keys : List κ) (k : κ) :
    keys.foldl bump counts k = counts k + BitVec.ofNat w (keys.countP (· = k)) := by
  induction keys generalizing counts with
  | nil => exact (BitVec.add_zero _).symm
  | cons k' keys ih =>
    rw [List.foldl_cons, ih, bump_apply, List.countP_cons, BitVec.add_assoc, ← BitVec.ofNat_add]
    congr 2
    by_cases hk : k' = k <;> simp [hk, Nat.add_comm]

end

/-! ### Reading a counter -/

/-- A counter holds a number exactly if it has counted that many, up to full rounds, and
the number is below its sign bit. -/
theorem toInt_ofNat_eq_iff {w n m : Nat} (hw : 0 < w) :
    (BitVec.ofNat w n).toInt = m ↔ n ≡ m [MOD 2 ^ w] ∧ m < 2 ^ (w - 1) := by
  have hpow : 2 ^ w = 2 * 2 ^ (w - 1) := by rw [← Nat.pow_succ', Nat.succ_eq_add_one, Nat.sub_add_cancel hw]
  have hlt := Nat.mod_lt n (Nat.two_pow_pos w)
  rw [BitVec.toInt_eq_toNat_cond, BitVec.toNat_ofNat, Nat.ModEq]
  generalize n % 2 ^ w = r at *
  constructor
  · intro h
    split at h
    · have hm : m < 2 ^ w := by omega
      rw [Nat.mod_eq_of_lt hm]
      omega
    · omega
  · rintro ⟨hmod, hm⟩
    rw [Nat.mod_eq_of_lt (by omega)] at hmod
    rw [if_pos (by omega), hmod]

/-! ### Two tests over one list -/

section
variable {α : Type*} (p q : α → Bool) (l : List α)

/-- What passes either test, counted from both sides. -/
theorem countP_add_countP_diff :
    l.countP p + l.countP (fun x => q x && !p x) = l.countP q + l.countP fun x => p x && !q x := by
  induction l with
  | nil => rfl
  | cons x l ih =>
    simp only [List.countP_cons]
    cases p x <;> cases q x <;> simp <;> omega

/-- **A counter of one test holds the number of another** where each test has as many
elements to itself. -/
theorem toInt_countP_eq_iff {w : Nat} (hw : 0 < w) :
    (BitVec.ofNat w (l.countP p)).toInt = l.countP q ↔
      l.countP (fun x => p x && !q x) ≡ l.countP (fun x => q x && !p x) [MOD 2 ^ w] ∧
        l.countP q < 2 ^ (w - 1) := by
  rw [toInt_ofNat_eq_iff hw]
  apply and_congr_left
  intro _
  have hsum := countP_add_countP_diff p q l
  constructor
  · intro h
    apply h.symm.add_left_cancel
    rw [hsum]
  · intro h
    apply h.symm.add_right_cancel
    rw [hsum]

end

end PgAcorn.Library
