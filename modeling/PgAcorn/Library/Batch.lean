import PgAcorn.Library.Sequential

/-! Work in batches.

A batch starts with a part that lists its items, goes through them one after the other
and ends with a last part. `Batch.step` is one of these, so that a run can be looked at,
and conditions put on it, between any two of them. A batch that is performed as a whole
is a run of such steps (`Batch.runs_whole`). -/
namespace PgAcorn.Library

/-- What a batch does for a job: how it starts, with what it goes on with and the items,
what it does with an item, and how it ends. -/
structure Batch (σ ι κ ε : Type) where
  start : ι → Prog σ (κ × List ε)
  item : κ → ε → Prog σ Unit
  finish : κ → Prog σ Unit

/-- One step of the work. -/
inductive BatchAction (ι : Type)
  | start (job : ι)
  | item
  | finish

namespace Batch
variable {σ ι κ ε : Type} (b : Batch σ ι κ ε)

/-- The state of the work: that of the data, and the batch under way with its items to
come. -/
def step (s : σ × Option (κ × List ε)) : BatchAction ι → Option (σ × Option (κ × List ε))
  | .start job =>
    match s.2 with
    | none => ((b.start job).exec s.1).map fun r => (r.2, some r.1)
    | some _ => none
  | .item =>
    match s.2 with
    | some (k, e :: es) => ((b.item k e).exec s.1).map fun r => (r.2, some (k, es))
    | _ => none
  | .finish =>
    match s.2 with
    | some (k, []) => ((b.finish k).exec s.1).map fun r => (r.2, none)
    | _ => none

/-- A batch from start to end. -/
def whole (job : ι) : Prog σ Unit :=
  (b.start job).bind fun r => (r.2.forM (b.item r.1)).bind fun _ => b.finish r.1

variable {b} {s s' : σ} {k : κ}

/-- Items one after the other. -/
theorem runs_items {es : List ε} (h : (es.forM (b.item k)).exec s = some ((), s')) :
    Runs b.step (fun _ _ => True) (s, some (k, es)) (s', some (k, [])) := by
  induction es generalizing s with
  | nil =>
    obtain ⟨-, rfl⟩ := Prod.mk.inj (Option.some.inj h)
    exact .refl
  | cons e es ih =>
    rw [show (e :: es).forM (b.item k) = (b.item k e).bind fun _ => es.forM (b.item k) from rfl,
      Prog.exec_bind] at h
    obtain ⟨⟨⟨⟩, s₁⟩, hitem, hrest⟩ := Option.bind_eq_some_iff.mp h
    refine .head ⟨.item, trivial, ?_⟩ (ih hrest)
    show ((b.item k e).exec s).map _ = _
    rw [hitem]
    rfl

/-- **A whole batch is a run** of its steps. -/
theorem runs_whole {job : ι} (h : (b.whole job).exec s = some ((), s')) :
    Runs b.step (fun _ _ => True) (s, none) (s', none) := by
  rw [whole, Prog.exec_bind] at h
  obtain ⟨⟨⟨k, es⟩, s₁⟩, hstart, h⟩ := Option.bind_eq_some_iff.mp h
  rw [Prog.exec_bind] at h
  obtain ⟨⟨⟨⟩, s₂⟩, hitems, hfinish⟩ := Option.bind_eq_some_iff.mp h
  have hfirst : b.step (s, none) (.start job) = some (s₁, some (k, es)) := by
    show ((b.start job).exec s).map _ = _
    rw [hstart]
    rfl
  have hlast : b.step (s₂, some (k, [])) .finish = some (s', none) := by
    show ((b.finish k).exec s₂).map _ = _
    rw [show (b.finish k).exec s₂ = some ((), s') from hfinish]
    rfl
  exact ((Relation.ReflTransGen.single ⟨.start job, trivial, hfirst⟩).trans (runs_items hitems)).tail
    ⟨.finish, trivial, hlast⟩

end Batch

end PgAcorn.Library
