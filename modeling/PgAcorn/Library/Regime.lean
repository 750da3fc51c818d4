import PgAcorn.Library.Sequential

/-! Programs that keep a regime, whatever else goes on.

A regime is an invariant together with what may become of a state meanwhile, in any number of
operations of anyone. `Heeds` is the judgement that every operation a program gets to make keeps
both, with a rule for each way of building programs; an operation that is blocked, or that the
program must not make, says nothing, so that a program may heed a regime that does not tell why
its reads succeed. In a pool of such programs the invariant holds at every instant
(`Regime.run`). -/
namespace PgAcorn.Library

/-- What holds throughout, and what may become of a state. -/
structure Regime (σ : Type) where
  inv : σ → Prop
  later : σ → σ → Prop
  refl : ∀ s, later s s
  trans : ∀ {s s' s''}, later s s' → later s' s'' → later s s''

namespace Regime
variable {σ α β γ ρ : Type} (R : Regime σ)

/-- The assertion stays true. -/
def Stays (P : σ → Prop) : Prop := ∀ {s s'}, R.later s s' → P s → P s'

/-- The program keeps the regime from a state on. -/
def HeedsFrom (post : α → σ → Prop) : Prog σ α → σ → Prop
  | .pure a, s => post a s
  | .raise _, _ | .diverge, _ => True
  | .step op next, s => ∀ s' b s'', R.later s s' → R.inv s' → op s' = .done b s'' →
      R.inv s'' ∧ R.later s' s'' ∧ HeedsFrom post (next b) s''

/-- The program keeps the regime from every state the precondition allows. -/
def Heeds (pre : σ → Prop) (p : Prog σ α) (post : α → σ → Prop) : Prop :=
  ∀ s, pre s → R.HeedsFrom post p s

variable {R}

theorem HeedsFrom.bind {post : α → σ → Prop} {post' : β → σ → Prop} {f : α → Prog σ β}
    {p : Prog σ α} {s : σ} (h : R.HeedsFrom post p s) (hf : ∀ a, R.Heeds (post a) (f a) post') :
    R.HeedsFrom post' (p.bind f) s := by
  induction p generalizing s with
  | pure a => exact hf a s h
  | raise | diverge => trivial
  | step op next ih =>
    intro s' b s'' hlater hinv hop
    obtain ⟨hinv', hlater', hnext⟩ := h s' b s'' hlater hinv hop
    exact ⟨hinv', hlater', ih b hnext⟩

/-- What others do meanwhile does not matter. -/
theorem HeedsFrom.later {post : α → σ → Prop} (hpost : ∀ a, R.Stays (post a)) {p : Prog σ α}
    {s s' : σ} (h : R.HeedsFrom post p s) (hlater : R.later s s') : R.HeedsFrom post p s' := by
  cases p with
  | pure a => exact hpost a hlater h
  | raise | diverge => trivial
  | step op next => exact fun s₁ b s₂ hs₁ => h s₁ b s₂ (R.trans hlater hs₁)

namespace Heeds

theorem pure {pre : σ → Prop} {post : α → σ → Prop} {a : α} (h : ∀ s, pre s → post a s) :
    R.Heeds pre (.pure a) post := h

theorem raise {pre : σ → Prop} {post : α → σ → Prop} {message : String} :
    R.Heeds pre (.raise message) post := fun _ _ => trivial

theorem diverge {pre : σ → Prop} {post : α → σ → Prop} :
    R.Heeds pre (.diverge : Prog σ α) post := fun _ _ => trivial

theorem bind {pre : σ → Prop} {mid : α → σ → Prop} {post : β → σ → Prop} {p : Prog σ α}
    {f : α → Prog σ β} (hp : R.Heeds pre p mid) (hf : ∀ a, R.Heeds (mid a) (f a) post) :
    R.Heeds pre (p.bind f) post := fun s hs => (hp s hs).bind hf

theorem weaken {pre pre' : σ → Prop} {post : α → σ → Prop} {p : Prog σ α} (h : R.Heeds pre p post)
    (hpre : ∀ s, pre' s → pre s) : R.Heeds pre' p post := fun s hs => h s (hpre s hs)

theorem consequence {pre : σ → Prop} {post post' : α → σ → Prop} {p : Prog σ α}
    (h : R.Heeds pre p post) (hpost : ∀ a s, post a s → post' a s) : R.Heeds pre p post' := by
  intro s hs
  rw [← Prog.bind_pure p]
  exact (h s hs).bind fun a => .pure (hpost a)

/-- A pure fact of the precondition. -/
theorem assume {q : Prop} {pre : σ → Prop} {post : α → σ → Prop} {p : Prog σ α}
    (h : q → R.Heeds pre p post) : R.Heeds (fun s => q ∧ pre s) p post :=
  fun s hs => h hs.1 s hs.2

theorem lift {pre : σ → Prop} {post : β → σ → Prop} {op : σ → Outcome σ β} (hpre : R.Stays pre)
    (h : ∀ s b s', R.inv s → pre s → op s = .done b s' →
      R.inv s' ∧ R.later s s' ∧ post b s') : R.Heeds pre (.lift op) post :=
  fun _ hs s' b s'' hlater hinv hop => h s' b s'' hinv (hpre hlater hs) hop

theorem read {pre : σ → Prop} {post : β → σ → Prop} {f : σ → Option β} (hpre : R.Stays pre)
    (h : ∀ s b, R.inv s → pre s → f s = some b → post b s) : R.Heeds pre (.read f) post := by
  refine lift hpre fun s b s' hinv hs hop => ?_
  cases hf : f s with
  | none =>
    rw [hf] at hop
    cases hop
  | some c =>
    rw [hf] at hop
    cases hop
    exact ⟨hinv, R.refl s, h s _ hinv hs hf⟩

/-- A program whose operations keep what the regime looks at. -/
theorem of_keeps {f : σ → ρ} (hf : ∀ {s s'}, f s' = f s → R.inv s → R.inv s' ∧ R.later s s')
    {pre : σ → Prop} (hpre : R.Stays pre) {p : Prog σ α} (hp : p.Keeps f) :
    R.Heeds pre p fun _ => pre := by
  induction p with
  | pure a => exact fun s hs => hs
  | raise | diverge => exact fun _ _ => trivial
  | step op next ih =>
    intro s hs s' b s'' hlater hinv hop
    obtain ⟨hinv', hlater'⟩ := hf (hp.1 s' b s'' hop) hinv
    exact ⟨hinv', hlater', ih b (hp.2 b) s'' (hpre (R.trans hlater hlater') hs)⟩

/-- A loop over a list without an accumulator. -/
theorem forM {f : γ → Prog σ PUnit} {pre : σ → Prop} (h : ∀ x, R.Heeds pre (f x) fun _ => pre)
    (xs : List γ) : R.Heeds pre (xs.forM f) fun _ => pre := by
  induction xs with
  | nil => exact pure fun _ hs => hs
  | cons x xs ih => exact bind (h x) fun _ => ih

/-- A loop with an accumulator that nothing depends on. -/
theorem foldlM {f : β → γ → Prog σ β} {pre : σ → Prop} {xs : List γ}
    (h : ∀ b, ∀ x ∈ xs, R.Heeds pre (f b x) fun _ => pre) (b : β) :
    R.Heeds pre (xs.foldlM f b) fun _ => pre := by
  induction xs generalizing b with
  | nil => exact pure fun _ hs => hs
  | cons x xs ih =>
    exact bind (h b x List.mem_cons_self) (ih fun c y hy => h c y (List.mem_cons_of_mem x hy))

/-- A loop whose invariant goes by what is left to do. -/
theorem foldlM_todo {f : β → γ → Prog σ β} {J : List γ → β → σ → Prop}
    (h : ∀ b x todo, R.Heeds (J (x :: todo) b) (f b x) fun c => J todo c) (xs : List γ) (b : β) :
    R.Heeds (J xs b) (xs.foldlM f b) (J []) := by
  induction xs generalizing b with
  | nil => exact pure fun _ hs => hs
  | cons x xs ih => exact bind (h b x xs) fun c => ih c

/-- Answers collected over a list, each of which stays good. -/
theorem mapM {f : γ → Prog σ β} {pre : σ → Prop} {good : β → σ → Prop}
    (hgood : ∀ b, R.Stays (good b)) (h : ∀ P, R.Stays P → ∀ x,
      R.Heeds (fun s => pre s ∧ P s) (f x) fun b s => good b s ∧ pre s ∧ P s) (xs : List γ) :
    R.Heeds pre (xs.mapM f) fun bs s => pre s ∧ ∀ b ∈ bs, good b s := by
  rw [← List.mapM'_eq_mapM]
  -- with what was collected before
  have hlist : ∀ P, R.Stays P → R.Heeds (fun s => pre s ∧ P s) (xs.mapM' f) fun bs s =>
      (pre s ∧ P s) ∧ ∀ b ∈ bs, good b s := by
    induction xs with
    | nil => exact fun P _ => pure fun s hs => ⟨hs, fun b hb => by cases hb⟩
    | cons x xs ih =>
      intro P hP
      rw [List.mapM'_cons]
      refine bind (h P hP x) fun b => ?_
      refine bind (weaken (ih (fun s => P s ∧ good b s) fun hlater hs =>
        ⟨hP hlater hs.1, hgood b hlater hs.2⟩) fun s hs => ⟨hs.2.1, hs.2.2, hs.1⟩) fun bs => ?_
      refine pure fun s hs => ⟨⟨hs.1.1, hs.1.2.1⟩, fun c hc => ?_⟩
      obtain rfl | hc := List.mem_cons.mp hc
      · exact hs.1.2.2
      · exact hs.2 c hc
  exact consequence (weaken (hlist (fun _ => True) fun _ _ => trivial) fun s hs => ⟨hs, trivial⟩)
    fun bs s hs => ⟨hs.1.1, hs.2⟩

end Heeds

/-! ### Every interleaving -/

section
variable {I ε P : Type} [DecidableEq I] {body : I → ε → P → Prog σ α}
  {ok : Pool I ε σ α → Action I ε P → Prop} {p p' : Pool I ε σ α}

/-- The invariant holds and every thread heeds the regime. -/
structure Kept (R : Regime σ) (p : Pool I ε σ α) : Prop where
  inv : R.inv p.shared
  threads : ∀ i prog, p.threads i = some prog → R.HeedsFrom (fun _ _ => True) prog p.shared

omit [DecidableEq I] in
theorem Kept.init (settings : ε) {s : σ} (h : R.inv s) :
    Kept R (.init settings s : Pool I ε σ α) := ⟨h, fun _ _ hthread => by cases hthread⟩

theorem Kept.step (hbody : ∀ {p i arg}, ok p (.start i arg) →
      R.Heeds R.inv (body i p.settings arg) fun _ _ => True)
    {a : Action I ε P} (h : Kept R p) (hok : ok p a) (hstep : p.step body a = some p') :
    Kept R p' := by
  have hstays : ∀ _ : α, R.Stays fun _ => True := fun _ _ _ _ h => h
  cases a with
  | alter settings =>
    obtain rfl := Option.some.inj hstep
    exact ⟨h.inv, h.threads⟩
  | start i arg =>
    rw [Pool.step] at hstep
    cases hthread : p.threads i with
    | some prog =>
      rw [hthread] at hstep
      cases hstep
    | none =>
      rw [hthread] at hstep
      obtain rfl := Option.some.inj hstep
      refine ⟨h.inv, fun j prog hprog => ?_⟩
      dsimp only at hprog
      by_cases hj : j = i
      · subst hj
        rw [Function.update_self] at hprog
        rw [← Option.some.inj hprog]
        exact hbody hok p.shared h.inv
      · rw [Function.update_of_ne hj] at hprog
        exact h.threads j prog hprog
  | act i =>
    rw [Pool.step] at hstep
    cases hthread : p.threads i with
    | none =>
      rw [hthread] at hstep
      cases hstep
    | some prog =>
      rw [hthread] at hstep
      cases prog with
      | pure | raise | diverge => cases hstep
      | step op next =>
        dsimp only at hstep
        cases hop : op p.shared with
        | blocked | fault =>
          rw [hop] at hstep
          cases hstep
        | done b s =>
          rw [hop] at hstep
          obtain rfl := Option.some.inj hstep
          obtain ⟨hinv, hlater, hnext⟩ :=
            h.threads i _ hthread p.shared b s (R.refl _) h.inv hop
          refine ⟨hinv, fun j prog hprog => ?_⟩
          dsimp only at hprog
          by_cases hj : j = i
          · subst hj
            rw [Function.update_self] at hprog
            rw [← Option.some.inj hprog]
            exact hnext
          · rw [Function.update_of_ne hj] at hprog
            exact (h.threads j prog hprog).later hstays hlater

/-- **The invariant holds at every instant.** -/
theorem run (hbody : ∀ {p i arg}, ok p (.start i arg) →
      R.Heeds R.inv (body i p.settings arg) fun _ _ => True) (h : Kept R p)
    (hrun : Runs (fun p a => p.step body a) ok p p') : Kept R p' :=
  hrun.invariant h fun h hok hstep => h.step hbody hok hstep

/-- **A thread heeds its postcondition**, whatever the others do. -/
theorem thread (hbody : ∀ {p i arg}, ok p (.start i arg) →
      R.Heeds R.inv (body i p.settings arg) fun _ _ => True) (h : Kept R p)
    (hrun : Runs (fun p a => p.step body a) ok p p') {i : I} {post : α → σ → Prop}
    (hpost : ∀ a, R.Stays (post a)) {prog : Prog σ α} (hthread : p.threads i = some prog)
    (hprog : R.HeedsFrom post prog p.shared) :
    ∃ prog', p'.threads i = some prog' ∧ R.HeedsFrom post prog' p'.shared := by
  induction hrun with
  | refl => exact ⟨prog, hthread, hprog⟩
  | @tail p₁ p₂ hrun hlast ih =>
    obtain ⟨a, hok, hstep⟩ := hlast
    replace hstep : p₁.step body a = some p₂ := hstep
    obtain ⟨prog₁, hthread₁, hprog₁⟩ := ih
    have hkept : Kept R p₁ := run hbody h hrun
    cases a with
    | alter settings =>
      obtain rfl := Option.some.inj hstep
      exact ⟨prog₁, hthread₁, hprog₁⟩
    | start j arg =>
      have hne : i ≠ j := by
        rintro rfl
        rw [Pool.step, hthread₁] at hstep
        cases hstep
      rw [Pool.step] at hstep
      split at hstep
      swap
      · cases hstep
      obtain rfl := Option.some.inj hstep
      exact ⟨prog₁, (Function.update_of_ne hne _ _).trans hthread₁, hprog₁⟩
    | act j =>
      rw [Pool.step] at hstep
      split at hstep
      swap
      · cases hstep
      rename_i op next hj
      split at hstep
      swap
      · cases hstep
      rename_i b s hop
      obtain rfl := Option.some.inj hstep
      by_cases hne : i = j
      · subst hne
        obtain rfl := Option.some.inj (hthread₁.symm.trans hj)
        obtain ⟨-, -, hnext⟩ := hprog₁ p₁.shared b s (R.refl _) hkept.inv hop
        exact ⟨next b, Function.update_self .., hnext⟩
      · obtain ⟨-, hlater, -⟩ := hkept.threads j _ hj p₁.shared b s (R.refl _) hkept.inv hop
        exact ⟨prog₁, (Function.update_of_ne hne _ _).trans hthread₁, hprog₁.later hpost hlater⟩

end

end Regime

end PgAcorn.Library
