import PgAcorn.Library.Descent

/-! Programs that end.

`Prog.Ends` is the judgement that a family of programs, one for each amount of fuel,
comes to one and the same end from a state that meets the precondition as soon as the
fuel is enough, and that what it answers and leaves meets the postcondition. There is a
rule for each way of building programs, so that no proof says how much fuel its parts
need. -/
namespace PgAcorn.Library
namespace Prog
variable {σ α β : Type}

/-- From a state with `S` the programs with enough fuel end, all alike, with `Q`. -/
def Ends (S : σ → Prop) (p : Nat → Prog σ α) (Q : α → σ → Prop) : Prop :=
  ∀ s, S s → ∃ a s', (∃ n, ∀ fuel ≥ n, (p fuel).exec s = some (a, s')) ∧ Q a s'

namespace Ends
variable {S S' : σ → Prop} {p : Nat → Prog σ α} {Q : α → σ → Prop}

/-- A program that does not use the fuel. -/
theorem of_exec {p : Prog σ α} (h : ∀ s, S s → ∃ a s', p.exec s = some (a, s') ∧ Q a s') :
    Ends S (fun _ => p) Q := by
  intro s hs
  obtain ⟨a, s', hexec, hq⟩ := h s hs
  exact ⟨a, s', ⟨0, fun _ _ => hexec⟩, hq⟩

theorem pure {a : α} (h : ∀ s, S s → Q a s) : Ends S (fun _ => .pure a) Q :=
  of_exec fun s hs => ⟨a, s, rfl, h s hs⟩

theorem read {f : σ → Option α} (h : ∀ s, S s → ∃ a, f s = some a ∧ Q a s) :
    Ends S (fun _ => .read f) Q := by
  apply of_exec
  intro s hs
  obtain ⟨a, ha, hq⟩ := h s hs
  exact ⟨a, s, exec_read ha, hq⟩

/-- What goes on from any answer of the first part. -/
theorem bind {g : Nat → α → Prog σ β} {R : β → σ → Prop} (hp : Ends S p Q)
    (hg : ∀ a, Ends (Q a) (fun fuel => g fuel a) R) :
    Ends S (fun fuel => (p fuel).bind (g fuel)) R := by
  intro s hs
  obtain ⟨a, s₁, ⟨n, hn⟩, hq⟩ := hp s hs
  obtain ⟨b, s₂, ⟨k, hk⟩, hr⟩ := hg a s₁ hq
  refine ⟨b, s₂, ⟨max n k, fun fuel hfuel => ?_⟩, hr⟩
  rw [exec_bind, hn fuel (le_of_max_le_left hfuel)]
  exact hk fuel (le_of_max_le_right hfuel)

theorem imp {R : α → σ → Prop} (h : Ends S p Q) (hr : ∀ a s, Q a s → R a s) : Ends S p R := by
  intro s hs
  obtain ⟨a, s', hends, hq⟩ := h s hs
  exact ⟨a, s', hends, hr a s' hq⟩

theorem weaken (h : Ends S p Q) (hs : ∀ s, S' s → S s) : Ends S' p Q := fun s h' => h s (hs s h')

/-- What is known of the state and does not depend on it. -/
theorem assume {F : Prop} (h : F → Ends S p Q) : Ends (fun s => S s ∧ F) p Q :=
  fun s hs => h hs.2 s hs.1

/-- A loop, by what holds while a list is still to come. -/
theorem forM {J : List β → σ → Prop} {g : Nat → β → Prog σ PUnit}
    (h : ∀ b l, Ends (J (b :: l)) (fun fuel => g fuel b) fun _ => J l) (l : List β) :
    Ends (J l) (fun fuel => l.forM (g fuel)) fun _ => J [] := by
  induction l with
  | nil => exact .pure fun _ hs => hs
  | cons b l ih => exact (h b l).bind fun _ => ih

end Ends

end Prog
end PgAcorn.Library
