import Mathlib.Algebra.BigOperators.Group.Finset.Basic
import Mathlib.Algebra.Order.BigOperators.Group.Finset
import Mathlib.Data.Fintype.Basic
import Mathlib.Tactic.Abel

/-! Shared counters that add up what several parties account for.

Each party has a share, read off its own state. A move of one party keeps the counter
equal to the sum of the shares when it changes the counter by as much as the share. -/
namespace PgAcorn.Library

universe u v w

section
variable {β : Type u} [Fintype β] {σ : Type v} {M : Type w} (share : σ → M)

/-- The counter is what the parties account for. -/
def Balanced [AddCommMonoid M] (n : M) (parties : β → σ) : Prop := n = ∑ b, share (parties b)

variable {share} {parties : β → σ}

/-- One party moves. -/
theorem sum_share_update [DecidableEq β] [AddCommMonoid M] (b : β) (x : σ) :
    ∑ b', share (Function.update parties b x b') + share (parties b) =
      ∑ b', share (parties b') + share x := by
  rw [← Finset.add_sum_erase Finset.univ _ (Finset.mem_univ b),
    ← Finset.add_sum_erase Finset.univ (fun b' => share (parties b')) (Finset.mem_univ b),
    Function.update_self]
  have hrest : ∀ b' ∈ Finset.univ.erase b, share (Function.update parties b x b') =
      share (parties b') := by
    intro b' hb'
    rw [Function.update_of_ne (Finset.ne_of_mem_erase hb')]
  rw [Finset.sum_congr rfl hrest]
  abel

/-- **A balanced move keeps the ledger.** -/
theorem Balanced.update [DecidableEq β] [AddCancelCommMonoid M] {n n' : M} {b : β} {x : σ}
    (h : Balanced share n parties) (hmove : n' + share (parties b) = n + share x) :
    Balanced share n' (Function.update parties b x) := by
  apply add_right_cancel (b := share (parties b))
  rw [hmove, sum_share_update, ← h]

/-- What one party accounts for is in the counter. -/
theorem Balanced.share_le [AddCommMonoid M] [PartialOrder M] [CanonicallyOrderedAdd M]
    [IsOrderedAddMonoid M] {n : M} (h : Balanced share n parties) (b : β) :
    share (parties b) ≤ n := by
  rw [h]
  exact Finset.single_le_sum (f := fun b' => share (parties b')) (fun _ _ => zero_le) (Finset.mem_univ b)

end

end PgAcorn.Library
