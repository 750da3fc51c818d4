import Mathlib.Logic.Function.Basic
import Mathlib.Data.List.Basic

/-! A lock that is shared or held alone.

`Agrees` says that the lock is as the parties hold it. It survives every acquisition
and release, and gives mutual exclusion: beside a party that holds the lock alone no
other party has it. -/
namespace PgAcorn.Library

universe u

/-- How a party has a lock. -/
inductive Hold where
  | free
  | shared
  | alone
  deriving DecidableEq

structure RwLock (β : Type u) where
  holder : Option β
  sharers : List β

namespace RwLock
variable {β : Type u} [DecidableEq β]

def free : RwLock β := ⟨none, []⟩

/-- Acquiring the lock shared. -/
def share (l : RwLock β) (b : β) : Option (RwLock β) :=
  if l.holder.isNone then some { l with sharers := b :: l.sharers } else none

/-- Acquiring the lock alone. -/
def claim (l : RwLock β) (b : β) : Option (RwLock β) :=
  if l.holder.isNone && l.sharers.isEmpty then some { l with holder := some b } else none

def release (l : RwLock β) (b : β) : RwLock β :=
  ⟨if l.holder = some b then none else l.holder, l.sharers.filter (· ≠ b)⟩

/-- The lock is as the parties hold it. -/
structure Agrees (l : RwLock β) (hold : β → Hold) : Prop where
  alone : ∀ b, hold b = .alone ↔ l.holder = some b
  shared : ∀ b, hold b = .shared ↔ b ∈ l.sharers
  apart : l.holder.isSome → l.sharers = []

variable {l l' : RwLock β} {hold : β → Hold} {b b' : β}

omit [DecidableEq β] in
theorem Agrees.free (h : ∀ b, hold b = .free) : Agrees RwLock.free hold := by
  refine ⟨fun b => ?_, fun b => ?_, fun _ => rfl⟩ <;> simp [h b, RwLock.free]

omit [DecidableEq β] in
/-- **Mutual exclusion.** -/
theorem Agrees.excludes (h : Agrees l hold) (halone : hold b = .alone) (hne : b' ≠ b) :
    hold b' = .free := by
  have hholder := (h.alone b).mp halone
  cases hb' : hold b' with
  | free => rfl
  | shared =>
    have hmem := (h.shared b').mp hb'
    rw [h.apart (by rw [hholder]; rfl)] at hmem
    cases hmem
  | alone =>
    have hholder' := (h.alone b').mp hb'
    rw [hholder] at hholder'
    exact absurd (Option.some.inj hholder').symm hne

theorem Agrees.share (h : Agrees l hold) (hl : l.share b = some l') :
    Agrees l' (Function.update hold b .shared) := by
  unfold RwLock.share at hl
  split at hl
  · rename_i hnone
    obtain rfl := Option.some.inj hl
    have hholder : l.holder = none := by simpa using hnone
    refine ⟨fun c => ?_, fun c => ?_, fun hsome => ?_⟩
    · have halone := h.alone c
      rw [Function.update_apply]
      split
      · rename_i heq
        simp [hholder]
      · exact halone
    · have hshared := h.shared c
      rw [Function.update_apply]
      split
      · rename_i heq
        simp [heq]
      · rename_i hne
        rw [hshared, List.mem_cons, or_iff_right hne]
    · simp [hholder] at hsome
  · cases hl

theorem Agrees.claim (h : Agrees l hold) (hl : l.claim b = some l') :
    Agrees l' (Function.update hold b .alone) := by
  unfold RwLock.claim at hl
  split at hl
  · rename_i hnone
    obtain rfl := Option.some.inj hl
    obtain ⟨hholder, hsharers⟩ : l.holder = none ∧ l.sharers = [] := by simpa using hnone
    refine ⟨fun c => ?_, fun c => ?_, fun _ => hsharers⟩
    · have halone := h.alone c
      rw [Function.update_apply]
      split
      · rename_i heq
        simp [heq]
      · rename_i hne
        rw [halone, hholder]
        simp [Ne.symm hne]
    · have hshared := h.shared c
      rw [Function.update_apply]
      split
      · simp [hsharers]
      · exact hshared
  · cases hl

theorem Agrees.release (h : Agrees l hold) : Agrees (l.release b) (Function.update hold b .free) := by
  refine ⟨fun c => ?_, fun c => ?_, fun hsome => ?_⟩
  · have halone := h.alone c
    simp only [RwLock.release]
    rw [Function.update_apply]
    split
    · rename_i heq
      rw [heq]
      split <;> simp_all
    · rename_i hne
      rw [halone]
      split
      · rename_i hb
        rw [hb]
        simp [Ne.symm hne]
      · rfl
  · have hshared := h.shared c
    simp only [RwLock.release, List.mem_filter, decide_eq_true_eq]
    rw [Function.update_apply]
    split
    · rename_i heq
      simp [heq]
    · rename_i hne
      rw [hshared]
      exact ⟨fun hmem => ⟨hmem, hne⟩, And.left⟩
  · simp only [RwLock.release] at hsome ⊢
    split at hsome
    · cases hsome
    · rw [h.apart hsome]
      rfl

/-- A move that holds the lock as before. -/
theorem Agrees.keep (h : Agrees l hold) {x : Hold} (hx : x = hold b) :
    Agrees l (Function.update hold b x) := by
  rw [hx, Function.update_eq_self]
  exact h

end RwLock

end PgAcorn.Library
