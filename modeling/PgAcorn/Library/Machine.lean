import Mathlib.Logic.Relation

/-! Runs of a machine that acts on a state.

A machine is a partial step function; `none` says that the action is not enabled.
`Runs` chains actions that each meet a condition on the state they are taken in,
and `Runs.invariant` is the one induction: what holds at the start and survives
every such action holds at the end. `exec` performs given actions, for concrete
runs. -/
namespace PgAcorn.Library

universe u v

section
variable {σ : Type u} {α : Type v} (step : σ → α → Option σ) (ok : σ → α → Prop)

/-- Some actions, each of which meets the condition where it is taken. -/
def Runs : σ → σ → Prop :=
  Relation.ReflTransGen fun s s' => ∃ a, ok s a ∧ step s a = some s'

/-- Given actions, one after the other. -/
def exec : σ → List α → Option σ
  | s, [] => some s
  | s, a :: as => (step s a).bind fun s => exec s as

variable {step ok}

/-- **The invariant rule.** -/
theorem Runs.invariant {I : σ → Prop} {s s' : σ} (h : Runs step ok s s') (hs : I s)
    (hstep : ∀ {s a s'}, I s → ok s a → step s a = some s' → I s') : I s' := by
  induction h with
  | refl => exact hs
  | tail _ hlast ih =>
    obtain ⟨a, hok, ha⟩ := hlast
    exact hstep ih hok ha

/-- A weaker condition. -/
theorem Runs.mono {ok' : σ → α → Prop} (hok : ∀ s a, ok s a → ok' s a) {s s' : σ}
    (h : Runs step ok s s') : Runs step ok' s s' := by
  induction h with
  | refl => exact .refl
  | tail _ hlast ih =>
    obtain ⟨a, ha, hstep⟩ := hlast
    exact ih.tail ⟨a, hok _ a ha, hstep⟩

/-- Performed actions that meet the condition are a run. -/
theorem runs_of_exec [∀ s a, Decidable (ok s a)] {as : List α} {s s' : σ}
    (h : exec (fun s a => if ok s a then step s a else none) s as = some s') :
    Runs step ok s s' := by
  induction as generalizing s with
  | nil =>
    rw [Option.some.inj h]
    exact .refl
  | cons a as ih =>
    obtain ⟨s₁, ha, hrest⟩ := Option.bind_eq_some_iff.mp h
    dsimp only at ha
    split at ha
    · exact .head ⟨a, ‹_›, ha⟩ (ih hrest)
    · cases ha

/-- A run as far as a state of some kind, and one step more. -/
theorem runs_step_of_exec [∀ s a, Decidable (ok s a)] {good : σ → Bool} {as : List α} {a : α} {s : σ}
    (h : (exec (fun s a => if ok s a then step s a else none) s as).any (fun s' =>
      decide (ok s' a) && good s' && (step s' a).isSome) = true) :
    ∃ s' s'', Runs step ok s s' ∧ good s' = true ∧ ok s' a ∧ step s' a = some s'' := by
  obtain ⟨s', hrun, h⟩ := (Option.any_eq_true _ _).mp h
  simp only [Bool.and_eq_true, decide_eq_true_eq] at h
  obtain ⟨⟨hok, hgood⟩, hstep⟩ := h
  obtain ⟨s'', hstep⟩ := Option.isSome_iff_exists.mp hstep
  exact ⟨s', s'', runs_of_exec hrun, hgood, hok, hstep⟩

end

/-! ### Small sets of parties

The instance that a numeral of a small `Fin` takes in a concrete run, by name. -/

theorem neZero_two : @NeZero Nat Zero.ofOfNat0 2 := inferInstance

theorem neZero_three : @NeZero Nat Zero.ofOfNat0 3 := inferInstance

theorem neZero_four : @NeZero Nat Zero.ofOfNat0 4 := inferInstance

theorem neZero_seven : @NeZero Nat Zero.ofOfNat0 7 := inferInstance

end PgAcorn.Library
