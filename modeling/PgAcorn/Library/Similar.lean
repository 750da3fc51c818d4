import PgAcorn.Library.Sequential

/-! Programs that run alike, and programs nobody sees.

`Similar` is the judgement that two programs make corresponding operations: from related states
an operation of the first has one of the second with it, related answers and related states
after it, and does to its own state what `G` allows. `Silent` programs leave the states related
by themselves. There is a rule for each way of building programs.

A pool in which some threads are similar to those of another pool and the others are silent
follows that pool, whatever the interleaving (`Follows.run`). -/
namespace PgAcorn.Library

section
variable {σ τ α β α' β' γ γ' : Type}

/-! ### Similar programs -/

/-- Related options are both there or neither is. -/
theorem rel_cases {A : α → α' → Prop} {a : Option α} {a' : Option α'} (h : Option.Rel A a a') :
    (a = none ∧ a' = none) ∨ ∃ x x', a = some x ∧ a' = some x' ∧ A x x' := by
  cases h with
  | none => exact .inl ⟨rfl, rfl⟩
  | some hx => exact .inr ⟨_, _, rfl, rfl, hx⟩

/-- The programs make corresponding operations. -/
def Similar (R : σ → τ → Prop) (G : σ → σ → Prop) (A : α → α' → Prop) :
    Prog σ α → Prog τ α' → Prop
  | .pure a, q => ∃ a', q = .pure a' ∧ A a a'
  | .raise message, q => q = .raise message
  | .diverge, q => q = .diverge
  | .step op next, q => ∃ (γ' : Type) (op' : τ → Outcome τ γ') (next' : γ' → Prog τ α'),
      q = .step op' next' ∧ ∀ s t, R s t → match op s with
        | .blocked => op' t = .blocked
        | .fault => op' t = .fault
        | .done b s' => G s s' ∧
            ∃ b' t', op' t = .done b' t' ∧ R s' t' ∧ Similar R G A (next b) (next' b')

namespace Similar
variable {R : σ → τ → Prop} {G : σ → σ → Prop} {A : α → α' → Prop} {B : β → β' → Prop}

theorem pure {a : α} {a' : α'} (h : A a a') : Similar R G A (.pure a) (.pure a') := ⟨a', rfl, h⟩

theorem raise (message : String) :
    Similar R G A (.raise message : Prog σ α) (.raise message : Prog τ α') := rfl

theorem diverge : Similar R G A (.diverge : Prog σ α) (.diverge : Prog τ α') := rfl

theorem bind {p : Prog σ α} {q : Prog τ α'} {f : α → Prog σ β} {f' : α' → Prog τ β'}
    (h : Similar R G A p q) (hf : ∀ a a', A a a' → Similar R G B (f a) (f' a')) :
    Similar R G B (p.bind f) (q.bind f') := by
  induction p generalizing q with
  | pure a =>
    obtain ⟨a', rfl, ha⟩ := h
    exact hf a a' ha
  | raise message =>
    obtain rfl : q = .raise message := h
    rfl
  | diverge =>
    obtain rfl : q = .diverge := h
    rfl
  | step op next ih =>
    obtain ⟨γ', op', next', rfl, hop⟩ := h
    refine ⟨γ', op', fun b => (next' b).bind f', rfl, fun s t hR => ?_⟩
    have hop := hop s t hR
    revert hop
    cases op s with
    | blocked => exact id
    | fault => exact id
    | done b s' =>
      rintro ⟨hG, b', t', hop', hR', hnext⟩
      exact ⟨hG, b', t', hop', hR', ih b hnext⟩

theorem lift {op : σ → Outcome σ α} {op' : τ → Outcome τ α'} (h : ∀ s t, R s t → match op s with
    | .blocked => op' t = .blocked
    | .fault => op' t = .fault
    | .done a s' => G s s' ∧ ∃ a' t', op' t = .done a' t' ∧ R s' t' ∧ A a a') :
    Similar R G A (.lift op) (.lift op') := by
  refine ⟨α', op', .pure, rfl, fun s t hR => ?_⟩
  have hop := h s t hR
  revert hop
  cases op s with
  | blocked => exact id
  | fault => exact id
  | done a s' =>
    rintro ⟨hG, a', t', hop', hR', ha⟩
    exact ⟨hG, a', t', hop', hR', .pure ha⟩

/-- The first program may be allowed more. -/
theorem mono {G' : σ → σ → Prop} {p : Prog σ α} {q : Prog τ α'} (h : Similar R G A p q)
    (hG : ∀ s s', G s s' → G' s s') : Similar R G' A p q := by
  induction p generalizing q with
  | pure | raise | diverge => exact h
  | step op next ih =>
    obtain ⟨γ', op', next', rfl, hop⟩ := h
    refine ⟨γ', op', next', rfl, fun s t hR => ?_⟩
    have hop := hop s t hR
    revert hop
    cases op s with
    | blocked | fault => exact id
    | done b s' =>
      rintro ⟨hs, b', t', hop', hR', hnext⟩
      exact ⟨hG _ _ hs, b', t', hop', hR', ih b hnext⟩

/-- Reads that answer alike. -/
theorem read {f : σ → Option α} {f' : τ → Option α'} (hG : ∀ s, G s s)
    (h : ∀ s t, R s t → Option.Rel A (f s) (f' t)) : Similar R G A (.read f) (.read f') := by
  apply lift
  intro s t hR
  obtain ⟨hf, hf'⟩ | ⟨a, a', hf, hf', ha⟩ := rel_cases (h s t hR)
  · simp only [hf, hf']
  · simp only [hf, hf']
    exact ⟨hG s, a', t, rfl, hR, ha⟩

theorem ite {c : Prop} [Decidable c] {p p' : Prog σ α} {q q' : Prog τ α'}
    (h : c → Similar R G A p q) (h' : ¬ c → Similar R G A p' q') :
    Similar R G A (if c then p else p') (if c then q else q') := by
  split
  · exact h ‹_›
  · exact h' ‹_›

/-- Answers collected over a list. -/
theorem mapM {f : γ → Prog σ α} {f' : γ → Prog τ α'} {xs : List γ}
    (h : ∀ x ∈ xs, Similar R G A (f x) (f' x)) :
    Similar R G (List.Forall₂ A) (xs.mapM f) (xs.mapM f') := by
  rw [← List.mapM'_eq_mapM, ← List.mapM'_eq_mapM]
  induction xs with
  | nil => exact pure .nil
  | cons x xs ih =>
    rw [List.mapM'_cons, List.mapM'_cons]
    refine bind (h x List.mem_cons_self) fun a a' ha => ?_
    exact bind (ih fun y hy => h y (List.mem_cons_of_mem x hy)) fun as as' has =>
      pure (.cons ha has)

/-- A loop over a list. -/
theorem forM {f : γ → Prog σ PUnit} {f' : γ → Prog τ PUnit} {xs : List γ}
    (h : ∀ x ∈ xs, Similar R G Eq (f x) (f' x)) : Similar R G Eq (xs.forM f) (xs.forM f') := by
  induction xs with
  | nil => exact pure rfl
  | cons x xs ih =>
    exact bind (h x List.mem_cons_self) fun _ _ _ => ih fun y hy => h y (List.mem_cons_of_mem x hy)

/-- A loop with an accumulator. -/
theorem foldlM {f : α → γ → Prog σ α} {f' : α → γ → Prog τ α} {xs : List γ} (a : α)
    (h : ∀ a, ∀ x ∈ xs, Similar R G Eq (f a x) (f' a x)) :
    Similar R G Eq (xs.foldlM f a) (xs.foldlM f' a) := by
  induction xs generalizing a with
  | nil => exact pure rfl
  | cons x xs ih =>
    refine bind (h a x List.mem_cons_self) fun b b' hb => ?_
    subst hb
    exact ih b fun c y hy => h c y (List.mem_cons_of_mem x hy)

/-- Both have ended or neither has. -/
theorem ended {p : Prog σ α} {q : Prog τ α'} (h : Similar R G A p q) : p.Ended ↔ q.Ended := by
  cases p with
  | pure a =>
    obtain ⟨a', rfl, -⟩ := h
    exact Iff.rfl
  | raise message =>
    obtain rfl : q = .raise message := h
    exact Iff.rfl
  | diverge =>
    obtain rfl : q = .diverge := h
    exact Iff.rfl
  | step op next =>
    obtain ⟨γ', op', next', rfl, -⟩ := h
    exact Iff.rfl

end Similar

/-! ### Silent programs -/

/-- Every operation of the program leaves related states related, and does what `G` allows. -/
def Silent (R : σ → τ → Prop) (G : σ → σ → Prop) : Prog σ α → Prop
  | .pure _ | .raise _ | .diverge => True
  | .step op next => ∀ s b s', op s = .done b s' →
      G s s' ∧ (∀ t, R s t → R s' t) ∧ Silent R G (next b)

namespace Silent
variable {R : σ → τ → Prop} {G : σ → σ → Prop}

theorem bind {p : Prog σ α} {f : α → Prog σ β} (h : Silent R G p) (hf : ∀ a, Silent R G (f a)) :
    Silent R G (p.bind f) := by
  induction p with
  | pure a => exact hf a
  | raise | diverge => trivial
  | step op next ih =>
    intro s b s' hop
    obtain ⟨hG, hR, hnext⟩ := h s b s' hop
    exact ⟨hG, hR, ih b hnext⟩

theorem lift {op : σ → Outcome σ α}
    (h : ∀ s a s', op s = .done a s' → G s s' ∧ ∀ t, R s t → R s' t) : Silent R G (.lift op) := by
  intro s a s' hop
  obtain ⟨hG, hR⟩ := h s a s' hop
  exact ⟨hG, hR, trivial⟩

theorem read {f : σ → Option α} (hG : ∀ s, G s s) : Silent R G (.read f) := by
  apply lift
  intro s a s' hop
  cases hf : f s with
  | none =>
    rw [hf] at hop
    cases hop
  | some b =>
    rw [hf] at hop
    cases hop
    exact ⟨hG s, fun _ hR => hR⟩

/-- A loop with an accumulator. -/
theorem foldlM {f : α → γ → Prog σ α} {xs : List γ} (h : ∀ a, ∀ x ∈ xs, Silent R G (f a x))
    (a : α) : Silent R G (xs.foldlM f a) := by
  induction xs generalizing a with
  | nil => trivial
  | cons x xs ih =>
    exact bind (h a x List.mem_cons_self) (ih fun b y hy => h b y (List.mem_cons_of_mem x hy))

/-- A program that leaves the state as it is. -/
theorem of_keeps (hG : ∀ s, G s s) {p : Prog σ α} (h : p.Keeps id) : Silent R G p := by
  induction p with
  | pure | raise | diverge => trivial
  | step op next ih =>
    intro s b s' hop
    obtain rfl : s' = s := h.1 s b s' hop
    exact ⟨hG s', fun _ hR => hR, ih b (h.2 b)⟩

end Silent

end

/-! ### Walks -/

section
variable {σ τ ν D : Type} [CDouble D] {R : σ → τ → Prop} {G : σ → σ → Prop}

namespace Similar

/-- The greedy descent reads alike if its distances and neighbors do. -/
theorem greedyLayer {distance : ν → Prog σ D} {distance' : ν → Prog τ D}
    {neighbors : ν → Prog σ (List ν)} {neighbors' : ν → Prog τ (List ν)}
    (hd : ∀ v, Similar R G Eq (distance v) (distance' v))
    (hn : ∀ v, Similar R G Eq (neighbors v) (neighbors' v)) (fuel : Nat) (cur : ν) :
    Similar R G Eq (greedyLayer distance neighbors fuel cur)
      (greedyLayer distance' neighbors' fuel cur) := by
  induction fuel generalizing cur with
  | zero => exact diverge
  | succ fuel ih =>
    have hround : Similar R G Eq (greedyRound distance neighbors cur)
        (greedyRound distance' neighbors' cur) := by
      refine bind (hd cur) fun d _ hdd => ?_
      subst hdd
      refine bind (hn cur) fun us _ hus => ?_
      subst hus
      refine foldlM _ fun c u _ => bind (hd u) fun nd _ hnd => ?_
      subst hnd
      exact pure rfl
    refine bind hround fun c _ hc => ?_
    subst hc
    exact ite (fun _ => ih c.1) fun _ => pure rfl

theorem greedyDescend {distance : ν → Prog σ D} {distance' : ν → Prog τ D}
    {neighbors : Nat → ν → Prog σ (List ν)} {neighbors' : Nat → ν → Prog τ (List ν)}
    (hd : ∀ v, Similar R G Eq (distance v) (distance' v))
    (hn : ∀ lc v, Similar R G Eq (neighbors lc v) (neighbors' lc v)) (fuel target lc : Nat)
    (cur : ν) : Similar R G Eq (greedyDescend distance neighbors fuel target lc cur)
      (greedyDescend distance' neighbors' fuel target lc cur) := by
  induction lc generalizing cur with
  | zero => exact pure rfl
  | succ lc ih =>
    refine ite (fun _ => ?_) fun _ => pure rfl
    refine bind (greedyLayer hd (hn (lc + 1)) fuel cur) fun c _ hc => ?_
    subst hc
    exact ih c

/-- What is read at a node is alike. -/
structure Walks (R : σ → τ → Prop) (G : σ → σ → Prop) (w : Walk σ ν D) (w' : Walk τ ν D) :
    Prop where
  seed : ∀ v, Similar R G Eq (w.seed v) (w'.seed v)
  admits : ∀ v, Similar R G Eq (w.admits v) (w'.admits v)
  probe : ∀ v, Similar R G Eq (w.probe v) (w'.probe v)
  expand : ∀ v, Similar R G Eq (w.expand v) (w'.expand v)

variable [DecidableEq ν] {H : PairingHeap} {w : Walk σ ν D} {w' : Walk τ ν D}

theorem visitNeighbor (h : Walks R G w w') (l : Limits) (s : Beam H ν D) (u : ν) :
    Similar R G Eq (visitNeighbor w l s u) (visitNeighbor w' l s u) := by
  refine ite (fun _ => pure rfl) fun _ => ?_
  refine bind (h.admits u) fun admitted _ ha => ?_
  subst ha
  refine ite (fun _ => pure rfl) fun _ => ?_
  refine bind (h.probe u) fun found _ hf => ?_
  subst hf
  cases found with
  | none => exact pure rfl
  | some x => exact pure rfl

theorem beamLoop (h : Walks R G w w') (l : Limits) (fuel : Nat) (s : Beam H ν D) :
    Similar R G Eq (beamLoop w l fuel s) (beamLoop w' l fuel s) := by
  induction fuel generalizing s with
  | zero => exact diverge
  | succ fuel ih =>
    rw [Library.beamLoop, Library.beamLoop]
    cases H.removeFirst s.C with
    | none => exact pure rfl
    | some x =>
      refine ite (fun _ => pure rfl) fun _ => ite (fun _ => pure rfl) fun _ => ?_
      refine bind (h.expand x.1.1) fun found _ hf => ?_
      subst hf
      cases found with
      | none => exact ih _
      | some us =>
        refine bind (foldlM _ fun s u _ => visitNeighbor h l s u) fun s' _ hs => ?_
        subst hs
        exact ih s'

/-- The beam search reads alike if what it does at a node does. -/
theorem beamSearch (h : Walks R G w w') (l : Limits) (fuel : Nat) (ep : ν) :
    Similar R G Eq (beamSearch H w l fuel ep) (beamSearch H w' l fuel ep) := by
  refine bind (h.seed ep) fun d _ hd => ?_
  subst hd
  refine bind (beamLoop h l fuel _) fun s _ hs => ?_
  subst hs
  exact pure rfl

end Similar

end

/-! ### Pools -/

/-- The value of a thread that has ended with one. -/
def Pool.answer {I ε σ α : Type} (p : Pool I ε σ α) (i : I) : Option α :=
  match p.threads i with
  | some (.pure a) => some a
  | _ => none

theorem Pool.threads_of_answer {I ε σ α : Type} {p : Pool I ε σ α} {i : I} {a : α}
    (h : p.answer i = some a) : p.threads i = some (.pure a) := by
  unfold Pool.answer at h
  split at h
  · rename_i b hthread
    rw [hthread, Option.some.inj h]
  · cases h

/-- What a start does. -/
theorem Pool.of_start {I ε σ α P : Type} [DecidableEq I] {body : I → ε → P → Prog σ α}
    {p p' : Pool I ε σ α} {i : I} {arg : P} (hstep : p.step body (.start i arg) = some p') :
    p'.shared = p.shared ∧ p'.threads i = some (body i p.settings arg) := by
  rw [Pool.step] at hstep
  split at hstep
  · obtain rfl := Option.some.inj hstep
    exact ⟨rfl, Function.update_self ..⟩
  · cases hstep

/-- An operation of another thread. -/
theorem Pool.threads_act {I ε σ α P : Type} [DecidableEq I] {body : I → ε → P → Prog σ α}
    {p p' : Pool I ε σ α} {i j : I} (hstep : p.step body (.act j) = some p') (hne : i ≠ j) :
    p'.threads i = p.threads i := by
  rw [Pool.step] at hstep
  split at hstep
  · split at hstep
    · obtain rfl := Option.some.inj hstep
      exact Function.update_of_ne hne _ _
    · cases hstep
  · cases hstep

section
variable {I ε σ τ α α' P P' : Type} {R : σ → τ → Prop} {G : σ → σ → Prop} {A : α → α' → Prop}

/-- Some threads of the first pool are similar to those of the second one, which has no others;
the rest are silent. -/
structure Follows (R : σ → τ → Prop) (G : σ → σ → Prop) (A : α → α' → Prop) (p : Pool I ε σ α)
    (q : Pool I ε τ α') : Prop where
  settings : q.settings = p.settings
  shared : R p.shared q.shared
  threads : ∀ i, match p.threads i with
    | none => q.threads i = none
    | some prog => (∃ prog', q.threads i = some prog' ∧ Similar R G A prog prog') ∨
        q.threads i = none ∧ Silent R G prog

theorem Follows.init (settings : ε) {s : σ} {t : τ} (h : R s t) :
    Follows R G A (.init settings s : Pool I ε σ α) (.init settings t) := ⟨rfl, h, fun _ => rfl⟩

variable {p p' : Pool I ε σ α} {q : Pool I ε τ α'}

/-- Where no thread of the first pool is still running, none of the second one is. -/
theorem Follows.quiet (h : Follows R G A p q) (hquiet : p.Quiet) : q.Quiet := by
  intro i prog' hprog'
  have hi := h.threads i
  cases hthread : p.threads i with
  | none =>
    rw [hthread] at hi
    cases hprog'.symm.trans hi
  | some prog =>
    rw [hthread] at hi
    obtain ⟨prog₁, hq, hsim⟩ | ⟨hq, -⟩ := hi
    · obtain rfl := Option.some.inj (hq.symm.trans hprog')
      exact hsim.ended.mp (hquiet i prog hthread)
    · cases hprog'.symm.trans hq

variable [DecidableEq I] {body : I → ε → P → Prog σ α} {body' : I → ε → P' → Prog τ α'}

variable (body') in
/-- One operation is followed by one operation, or by none. -/
theorem Follows.act (h : Follows R G A p q) {i : I} (hstep : p.step body (.act i) = some p') :
    G p.shared p'.shared ∧
      ∃ q', (q' = q ∨ q.step body' (.act i) = some q') ∧ Follows R G A p' q' := by
  have hi := h.threads i
  rw [Pool.step] at hstep
  cases hthread : p.threads i with
  | none =>
    rw [hthread] at hstep
    cases hstep
  | some prog =>
    rw [hthread] at hstep hi
    cases prog with
    | pure | raise | diverge => cases hstep
    | step op next =>
      dsimp only at hstep
      cases hop : op p.shared with
      | blocked | fault =>
        rw [hop] at hstep
        cases hstep
      | done b s =>
        rw [hop] at hstep
        obtain rfl := Option.some.inj hstep
        obtain ⟨prog', hq, γ', op', next', rfl, hsim⟩ | ⟨hq, hsil⟩ := hi
        · have hsim := hsim _ _ h.shared
          rw [hop] at hsim
          obtain ⟨hG, b', t', hop', hR, hnext⟩ := hsim
          refine ⟨hG, { q with
              shared := t', threads := Function.update q.threads i (some (next' b')) },
            .inr ?_, h.settings, hR, fun j => ?_⟩
          · rw [Pool.step, hq]
            dsimp only
            rw [hop']
          · dsimp only
            by_cases hj : j = i
            · subst hj
              rw [Function.update_self, Function.update_self]
              exact .inl ⟨_, rfl, hnext⟩
            · rw [Function.update_of_ne hj, Function.update_of_ne hj]
              exact h.threads j
        · obtain ⟨hG, hR, hnext⟩ := hsil _ _ _ hop
          refine ⟨hG, q, .inl rfl, h.settings, hR _ h.shared, fun j => ?_⟩
          dsimp only
          by_cases hj : j = i
          · subst hj
            rw [Function.update_self]
            exact .inr ⟨hq, hnext⟩
          · rw [Function.update_of_ne hj]
            exact h.threads j

variable (body') in
/-- A program that starts is followed by one, or is silent. -/
theorem Follows.start (h : Follows R G A p q) {i : I} {arg : P}
    (hstep : p.step body (.start i arg) = some p') :
    p'.shared = p.shared ∧
      (∀ arg', Similar R G A (body i p.settings arg) (body' i p.settings arg') →
        ∃ q', q.step body' (.start i arg') = some q' ∧ Follows R G A p' q') ∧
      (Silent R G (body i p.settings arg) → Follows R G A p' q) := by
  have hi := h.threads i
  rw [Pool.step] at hstep
  cases hthread : p.threads i with
  | some prog =>
    rw [hthread] at hstep
    cases hstep
  | none =>
    rw [hthread] at hstep hi
    obtain rfl := Option.some.inj hstep
    refine ⟨rfl, fun arg' hsim => ⟨{ q with
        threads := Function.update q.threads i (some (body' i q.settings arg')) },
        ?_, h.settings, h.shared, fun j => ?_⟩,
      fun hsil => ⟨h.settings, h.shared, fun j => ?_⟩⟩
    · rw [Pool.step, show q.threads i = none from hi]
    · dsimp only
      by_cases hj : j = i
      · subst hj
        rw [Function.update_self, Function.update_self, h.settings]
        exact .inl ⟨_, rfl, hsim⟩
      · rw [Function.update_of_ne hj, Function.update_of_ne hj]
        exact h.threads j
    · dsimp only
      by_cases hj : j = i
      · subst hj
        rw [Function.update_self]
        exact .inr ⟨hi, hsil⟩
      · rw [Function.update_of_ne hj]
        exact h.threads j

/-- What can be started in one pool and in the one that follows it. -/
structure Twins (R : σ → τ → Prop) (G : σ → σ → Prop) (A : α → α' → Prop)
    (body : I → ε → P → Prog σ α) (body' : I → ε → P' → Prog τ α')
    (ok : Pool I ε σ α → Action I ε P → Prop) (ok' : Pool I ε τ α' → Action I ε P' → Prop) :
    Prop where
  start : ∀ {p q i arg}, Follows R G A p q → ok p (.start i arg) →
    (∃ arg', ok' q (.start i arg') ∧
      Similar R G A (body i p.settings arg) (body' i p.settings arg')) ∨
      Silent R G (body i p.settings arg)
  act : ∀ q i, ok' q (.act i)
  alter : ∀ q settings, ok' q (.alter settings)

variable {ok : Pool I ε σ α → Action I ε P → Prop} {ok' : Pool I ε τ α' → Action I ε P' → Prop}

/-- One action is followed by one action, or by none. -/
theorem Follows.step (hG : ∀ s, G s s) (h : Follows R G A p q)
    (htwins : Twins R G A body body' ok ok') {a : Action I ε P} (hok : ok p a) (hstep : p.step body a = some p') :
    G p.shared p'.shared ∧
      ∃ q', (q' = q ∨ ∃ a', ok' q a' ∧ q.step body' a' = some q') ∧ Follows R G A p' q' := by
  cases a with
  | alter settings =>
    obtain rfl := Option.some.inj hstep
    exact ⟨hG _, { q with settings := settings },
      .inr ⟨.alter settings, htwins.alter q settings, rfl⟩, rfl, h.shared, h.threads⟩
  | start i arg =>
    obtain ⟨hshared, hsim, hsil⟩ := h.start body' hstep
    refine ⟨hshared ▸ hG _, ?_⟩
    obtain ⟨arg', hok', hlike⟩ | hlike := htwins.start h hok
    · obtain ⟨q', hq', hfollows⟩ := hsim arg' hlike
      exact ⟨q', .inr ⟨_, hok', hq'⟩, hfollows⟩
    · exact ⟨q, .inl rfl, hsil hlike⟩
  | act i =>
    obtain ⟨hG', q', hq', hfollows⟩ := h.act body' hstep
    exact ⟨hG', q', hq'.imp id fun hq' => ⟨_, htwins.act q i, hq'⟩, hfollows⟩

/-- **Every run is followed by one.** -/
theorem Follows.run (hG : ∀ s, G s s) (h : Follows R G A p q)
    (htwins : Twins R G A body body' ok ok') (hrun : Runs (fun p a => p.step body a) ok p p') :
    Relation.ReflTransGen G p.shared p'.shared ∧
      ∃ q', Runs (fun q a => q.step body' a) ok' q q' ∧ Follows R G A p' q' := by
  induction hrun with
  | refl => exact ⟨.refl, q, .refl, h⟩
  | tail _ hlast ih =>
    obtain ⟨a, hok, hstep⟩ := hlast
    obtain ⟨hreach, q₁, hrun', hfollows⟩ := ih
    obtain ⟨hG', q', hq', hfollows'⟩ := hfollows.step hG htwins hok hstep
    refine ⟨hreach.tail hG', q', ?_, hfollows'⟩
    obtain rfl | hq' := hq'
    · exact hrun'
    · exact hrun'.tail hq'

/-- Everyone does what `G` allows, and nothing is asked of the state. -/
def everyone (I : Type) (G : σ → σ → Prop) : Discipline I σ :=
  ⟨fun _ => True, fun _ => G, fun _ _ => True, fun _ _ => True⟩

/-- **A safe thread stays safe** in a pool where everyone does what `G` allows. -/
theorem Follows.safe (hG : ∀ s, G s s) (h : Follows R G A p q)
    (htwins : Twins R G A body body' ok ok') (hrun : Runs (fun p a => p.step body a) ok p p')
    {i : I} {post : α → σ → Prop} {prog : Prog σ α} (hthread : p.threads i = some prog)
    (hsafe : Safe (everyone I G) i post prog p.shared) :
    ∃ prog', p'.threads i = some prog' ∧ Safe (everyone I G) i post prog' p'.shared := by
  induction hrun with
  | refl => exact ⟨prog, hthread, hsafe⟩
  | @tail p₁ p₂ hrun hlast ih =>
    obtain ⟨a, hok, hstep⟩ := hlast
    replace hstep : p₁.step body a = some p₂ := hstep
    obtain ⟨prog₁, hthread₁, hsafe₁⟩ := ih
    obtain ⟨-, q₁, -, hfollows⟩ := h.run hG htwins hrun
    obtain ⟨hstepG, -⟩ := hfollows.step hG htwins hok hstep
    cases a with
    | alter settings =>
      obtain rfl := Option.some.inj hstep
      exact ⟨prog₁, hthread₁, hsafe₁⟩
    | start j arg =>
      rw [Pool.step] at hstep
      cases hj : p₁.threads j with
      | some prog' =>
        rw [hj] at hstep
        cases hstep
      | none =>
        rw [hj] at hstep
        obtain rfl := Option.some.inj hstep
        have hne : i ≠ j := by
          rintro rfl
          cases hthread₁.symm.trans hj
        exact ⟨prog₁, by simp [Function.update_of_ne hne, hthread₁], hsafe₁⟩
    | act j =>
      have hothers : i ≠ j → ∃ prog', p₂.threads i = some prog' ∧
          Safe (everyone I G) i post prog' p₂.shared := by
        intro hne
        have hsame : p₂.threads i = p₁.threads i := Pool.threads_act hstep hne
        refine ⟨prog₁, hsame.trans hthread₁, hsafe₁.rely ?_⟩
        exact .single ⟨trivial, trivial, j, Ne.symm hne, hstepG⟩
      by_cases hne : i = j
      · subst hne
        rw [Pool.step, hthread₁] at hstep
        cases prog₁ with
        | pure | raise | diverge => cases hstep
        | step op next =>
          have hop := hsafe₁ p₁.shared .refl trivial
          dsimp only at hstep
          revert hstep hop
          cases op p₁.shared with
          | blocked | fault => exact fun hstep => by cases hstep
          | done b s =>
            rintro ⟨⟩ ⟨-, -, hnext⟩
            exact ⟨next b, by simp, hnext⟩
      · exact hothers hne

end

end PgAcorn.Library
