import PgAcorn.Library.BeamSearch

/-! Programs that run alone.

`Prog.exec` performs a program's operations one after the other. `Prog.Keeps` says
that none of them changes what `f` tells of the state, whatever they answer; it is
closed under the ways of building programs, walks over a graph included, so that a
program's one operation that does change it can be singled out (`exec_bind`).
`Prog.Yields` follows what operations answer instead, from states that stay in a
set: what a program returns is then as its answers make it. A program that keeps a
discipline keeps it alone as well (`Safe.exec`). -/
namespace PgAcorn.Library

namespace Prog
variable {σ α β γ ρ : Type}

/-- The program's value and the state it leaves, if it ends with a value. -/
def exec : Prog σ α → σ → Option (α × σ)
  | pure a, s => some (a, s)
  | raise _, _ => none
  | diverge, _ => none
  | step op next, s =>
    match op s with
    | .done b s => (next b).exec s
    | _ => none

/-- No operation changes `f`. -/
def Keeps (f : σ → ρ) : Prog σ α → Prop
  | pure _ | raise _ | diverge => True
  | step op next => (∀ s b s', op s = .done b s' → f s' = f s) ∧ ∀ b, (next b).Keeps f

theorem exec_bind (p : Prog σ α) (g : α → Prog σ β) (s : σ) :
    (p.bind g).exec s = (p.exec s).bind fun r => (g r.1).exec r.2 := by
  induction p generalizing s with
  | pure a => rfl
  | raise message | diverge => rfl
  | step op next ih =>
    simp only [bind, exec]
    cases op s with
    | blocked | fault => rfl
    | done b s => exact ih b s

/-- An operation that answers. -/
theorem exec_lift {op : σ → Outcome σ β} {s s' : σ} {b : β} (h : op s = .done b s') :
    (Prog.lift op).exec s = some (b, s') := by
  simp [Prog.lift, Prog.exec, h]

/-- A read that finds something. -/
theorem exec_read {g : σ → Option β} {s : σ} {b : β} (h : g s = some b) :
    (Prog.read g).exec s = some (b, s) := by
  simp [Prog.read, Prog.lift, Prog.exec, h]

/-- Answers collected over a list, by programs that leave the state as it is. -/
theorem exec_mapM {g : β → Prog σ γ} {r : β → γ} {s : σ} {l : List β}
    (h : ∀ b ∈ l, (g b).exec s = some (r b, s)) : (l.mapM g).exec s = some (l.map r, s) := by
  induction l with
  | nil => rfl
  | cons b l ih =>
    rw [List.mapM_cons]
    simp only [bind_eq, exec_bind, h b (by simp), Option.bind_some,
      ih fun b' hb' => h b' (List.mem_cons_of_mem b hb')]
    rfl

theorem length_of_exec_mapM {g : β → Prog σ γ} {l : List β} {cs : List γ} {s s' : σ}
    (h : (l.mapM g).exec s = some (cs, s')) : cs.length = l.length := by
  induction l generalizing cs s s' with
  | nil =>
    obtain ⟨rfl, -⟩ := Prod.mk.inj (Option.some.inj h)
    rfl
  | cons b l ih =>
    rw [List.mapM_cons, bind_eq, exec_bind] at h
    obtain ⟨⟨c, s₁⟩, -, h⟩ := Option.bind_eq_some_iff.mp h
    rw [bind_eq, exec_bind] at h
    obtain ⟨⟨cs', s₂⟩, hrest, h⟩ := Option.bind_eq_some_iff.mp h
    obtain ⟨rfl, -⟩ := Prod.mk.inj (Option.some.inj h)
    rw [List.length_cons, List.length_cons, ih hrest]

variable {f : σ → ρ}

theorem Keeps.exec {p : Prog σ α} (h : p.Keeps f) {s : σ} {r : α × σ} (hr : p.exec s = some r) :
    f r.2 = f s := by
  induction p generalizing s with
  | pure a =>
    obtain rfl := Option.some.inj hr
    rfl
  | raise message | diverge => cases hr
  | step op next ih =>
    simp only [Prog.exec] at hr
    cases hop : op s with
    | blocked | fault =>
      rw [hop] at hr
      cases hr
    | done b s' =>
      rw [hop] at hr
      exact (ih b (h.2 b) hr).trans (h.1 s b s' hop)

namespace Keeps

theorem pure (a : α) : (Prog.pure a : Prog σ α).Keeps f := trivial

theorem bind {p : Prog σ α} {g : α → Prog σ β} (hp : p.Keeps f) (hg : ∀ a, (g a).Keeps f) :
    (p.bind g).Keeps f := by
  induction p with
  | pure a => exact hg a
  | raise message | diverge => trivial
  | step op next ih => exact ⟨hp.1, fun b => ih b (hp.2 b)⟩

theorem lift {op : σ → Outcome σ β} (h : ∀ s b s', op s = .done b s' → f s' = f s) :
    (Prog.lift op).Keeps f := ⟨h, fun _ => trivial⟩

theorem read (g : σ → Option β) : (Prog.read g).Keeps f := by
  apply lift
  intro s b s' h
  split at h
  · cases h
    rfl
  · cases h

theorem mapM {g : β → Prog σ γ} (h : ∀ b, (g b).Keeps f) (l : List β) : (l.mapM g).Keeps f := by
  induction l with
  | nil => rw [List.mapM_nil]; trivial
  | cons b l ih =>
    rw [List.mapM_cons]
    exact (h b).bind fun c => ih.bind fun cs => pure _

theorem foldlM {g : γ → β → Prog σ γ} (h : ∀ c b, (g c b).Keeps f) (l : List β) (c : γ) :
    (l.foldlM g c).Keeps f := by
  induction l generalizing c with
  | nil => rw [List.foldlM_nil]; trivial
  | cons b l ih =>
    rw [List.foldlM_cons]
    exact (h c b).bind fun c => ih c

theorem forM {g : β → Prog σ PUnit} (h : ∀ b, (g b).Keeps f) (l : List β) : (l.forM g).Keeps f := by
  induction l with
  | nil => trivial
  | cons b l ih => exact (h b).bind fun _ => ih

end Keeps

/-! ### Programs that only read -/

/-- The program reads what `a` is, and leaves the state as it is. -/
def Finds (p : Prog σ α) (s : σ) (a : Option α) : Prop := p.exec s = a.map fun a => (a, s)

namespace Finds
variable {s : σ}

theorem pure (a : α) : (Prog.pure a).Finds s (some a) := rfl

theorem read {g : σ → Option β} {b : Option β} (h : g s = b) : (Prog.read g).Finds s b := by
  unfold Finds
  cases b with
  | none => simp [Prog.read, Prog.lift, Prog.exec, h]
  | some b => exact exec_read h

/-- What comes next, given what was found. -/
theorem bind_cases {p : Prog σ α} {g : α → Prog σ β} {a : Option α} {b : Option β}
    (hp : p.Finds s a) (hnone : a = none → b = none)
    (hsome : ∀ x, a = some x → (g x).Finds s b) : (p.bind g).Finds s b := by
  unfold Finds
  rw [exec_bind, hp]
  cases a with
  | none =>
    rw [hnone rfl]
    rfl
  | some a => exact hsome a rfl

theorem bind {p : Prog σ α} {g : α → Prog σ β} {a : Option α} {b : α → Option β}
    (hp : p.Finds s a) (hg : ∀ a, (g a).Finds s (b a)) : (p.bind g).Finds s (a.bind b) := by
  refine hp.bind_cases (fun hnone => ?_) fun x hx => ?_
  · rw [hnone]
    rfl
  · rw [hx]
    exact hg x

/-- What is found is put to use. -/
theorem map {p : Prog σ α} {a : Option α} (hp : p.Finds s a) (g : α → β) :
    (p.bind fun a => Prog.pure (g a)).Finds s (a.map g) := by
  have h := hp.bind fun a => pure (g a)
  cases a with
  | none => exact h
  | some a => exact h

theorem foldlM {g : γ → β → Prog σ γ} {c : γ → β → Option γ} (h : ∀ a b, (g a b).Finds s (c a b))
    (l : List β) (a : γ) : (l.foldlM g a).Finds s (l.foldlM c a) := by
  induction l generalizing a with
  | nil => rfl
  | cons b l ih =>
    rw [List.foldlM_cons, List.foldlM_cons]
    exact (h a b).bind fun a => ih a

end Finds

/-- What depends on `f` is kept as well. -/
theorem Keeps.comp {τ : Type} {p : Prog σ α} (h : p.Keeps f) (g : ρ → τ) : p.Keeps fun s => g (f s) := by
  induction p with
  | pure a | raise message | diverge => trivial
  | step op next ih => exact ⟨fun s b s' hop => congrArg g (h.1 s b s' hop), fun b => ih b (h.2 b)⟩

/-- From states with `S` every operation keeps `S`, and what the program returns meets `Q`. -/
def Yields (S : σ → Prop) (Q : α → Prop) : Prog σ α → Prop
  | pure a => Q a
  | raise _ | diverge => True
  | step op next => ∀ s b s', S s → op s = .done b s' → S s' ∧ (next b).Yields S Q

variable {S : σ → Prop}

theorem Yields.exec {Q : α → Prop} {p : Prog σ α} (h : p.Yields S Q) {s : σ} (hs : S s)
    {r : α × σ} (hr : p.exec s = some r) : S r.2 ∧ Q r.1 := by
  induction p generalizing s with
  | pure a =>
    obtain rfl := Option.some.inj hr
    exact ⟨hs, h⟩
  | raise message | diverge => cases hr
  | step op next ih =>
    simp only [Prog.exec] at hr
    cases hop : op s with
    | blocked | fault =>
      rw [hop] at hr
      cases hr
    | done b s' =>
      rw [hop] at hr
      obtain ⟨hs', hnext⟩ := h s b s' hs hop
      exact ih b hnext hs' hr

namespace Yields

theorem bind {Q : α → Prop} {R : β → Prop} {p : Prog σ α} {g : α → Prog σ β} (hp : p.Yields S Q)
    (hg : ∀ a, Q a → (g a).Yields S R) : (p.bind g).Yields S R := by
  induction p with
  | pure a => exact hg a hp
  | raise message | diverge => trivial
  | step op next ih =>
    intro s b s' hs hop
    obtain ⟨hs', hnext⟩ := hp s b s' hs hop
    exact ⟨hs', ih b hnext⟩

theorem lift {Q : β → Prop} {op : σ → Outcome σ β}
    (h : ∀ s b s', S s → op s = .done b s' → S s' ∧ Q b) : (Prog.lift op).Yields S Q := h

theorem read {Q : β → Prop} {g : σ → Option β} (h : ∀ s b, S s → g s = some b → Q b) :
    (Prog.read g).Yields S Q := by
  apply lift
  intro s b s' hs hop
  cases hg : g s with
  | none =>
    rw [hg] at hop
    cases hop
  | some c =>
    rw [hg] at hop
    cases hop
    exact ⟨hs, h s b hs hg⟩

theorem imp {Q R : α → Prop} {p : Prog σ α} (h : p.Yields S Q) (hR : ∀ a, Q a → R a) :
    p.Yields S R := by
  induction p with
  | pure a => exact hR a h
  | raise message | diverge => trivial
  | step op next ih =>
    intro s b s' hs hop
    obtain ⟨hs', hnext⟩ := h s b s' hs hop
    exact ⟨hs', ih b hnext⟩

/-- A loop over a list, with what it carries along. -/
theorem foldlM {J : γ → Prop} {g : γ → β → Prog σ γ} (h : ∀ c b, J c → (g c b).Yields S J)
    (l : List β) {c : γ} (hc : J c) : (l.foldlM g c).Yields S J := by
  induction l generalizing c with
  | nil => exact hc
  | cons b l ih =>
    rw [List.foldlM_cons]
    exact (h c b hc).bind fun c hc => ih hc

end Yields

/-- A program that keeps `f` stays among states that are told apart by `f`. -/
theorem Keeps.yields {p : Prog σ α} (h : p.Keeps f) (P : ρ → Prop) :
    p.Yields (fun s => P (f s)) fun _ => True := by
  induction p with
  | pure a | raise message | diverge => trivial
  | step op next ih =>
    intro s b s' hs hop
    have hs' : P (f s') := by
      rw [h.1 s b s' hop]
      exact hs
    exact ⟨hs', ih b (h.2 b)⟩

end Prog

/-! ### A discipline kept alone -/

section
variable {σ α β I : Type} {𝒟 : Discipline I σ} {i : I}

/-- **A program that keeps a discipline** does so when it runs alone. -/
theorem Safe.exec {post : α → σ → Prop} {p : Prog σ α} {s : σ} (h : Safe 𝒟 i post p s)
    (hs : 𝒟.inv s) {r : α × σ} (hr : p.exec s = some r) : 𝒟.inv r.2 ∧ post r.1 r.2 := by
  induction p generalizing s with
  | pure a =>
    obtain rfl := Option.some.inj hr
    exact ⟨hs, h s .refl⟩
  | raise message | diverge => cases hr
  | step op next ih =>
    have hop := h s .refl hs
    simp only [Prog.exec] at hr
    revert hop hr
    cases op s with
    | blocked | fault => exact fun _ hr => by cases hr
    | done b s' => exact fun hop hr => ih b hop.2.2 hop.1 hr

/-- What it does after its first part is kept as well. -/
theorem Safe.exec_bind {post : β → σ → Prop} {p : Prog σ α} {g : α → Prog σ β} {s : σ}
    (h : Safe 𝒟 i post (p.bind g) s) (hs : 𝒟.inv s) {r : α × σ} (hr : p.exec s = some r) :
    𝒟.inv r.2 ∧ Safe 𝒟 i post (g r.1) r.2 := by
  induction p generalizing s with
  | pure a =>
    obtain rfl := Option.some.inj hr
    exact ⟨hs, h⟩
  | raise message | diverge => cases hr
  | step op next ih =>
    have hop := h s .refl hs
    simp only [Prog.exec] at hr
    revert hop hr
    cases op s with
    | blocked | fault => exact fun _ hr => by cases hr
    | done b s' => exact fun hop hr => ih b hop.2.2 hop.1 hr

end

/-! ### Walks -/

section
variable {σ ν D ρ : Type} [CDouble D] {f : σ → ρ}

theorem greedyLayer_keeps {distance : ν → Prog σ D} {neighbors : ν → Prog σ (List ν)}
    (hd : ∀ u, (distance u).Keeps f) (hn : ∀ u, (neighbors u).Keeps f) (fuel : Nat) (cur : ν) :
    (greedyLayer distance neighbors fuel cur).Keeps f := by
  induction fuel generalizing cur with
  | zero => trivial
  | succ fuel ih =>
    rw [greedyLayer]
    refine .bind ?_ fun r => ?_
    · refine .bind (hd cur) fun d => .bind (hn cur) fun us => .foldlM (fun c u => ?_) us _
      exact (hd u).bind fun nd => .pure _
    · obtain ⟨cur, d, improved⟩ := r
      cases improved with
      | false => exact .pure _
      | true => exact ih _

theorem greedyDescend_keeps {distance : ν → Prog σ D} {neighbors : Nat → ν → Prog σ (List ν)}
    (hd : ∀ u, (distance u).Keeps f) (hn : ∀ lc u, (neighbors lc u).Keeps f) (fuel target lc : Nat)
    (cur : ν) : (greedyDescend distance neighbors fuel target lc cur).Keeps f := by
  induction lc generalizing cur with
  | zero => trivial
  | succ lc ih =>
    rw [greedyDescend]
    split
    · exact (greedyLayer_keeps hd (hn (lc + 1)) fuel cur).bind fun cur => ih cur
    · exact .pure _

/-- **The descent** ends on a node whose neighbors above the target layer were read. -/
theorem greedyLayer_yields {S : σ → Prop} {P : ν → Prop} {distance : ν → Prog σ D}
    {neighbors : ν → Prog σ (List ν)} (hd : ∀ u, (distance u).Yields S fun _ => True)
    (hn : ∀ u, (neighbors u).Yields S fun _ => P u) (fuel : Nat) (cur : ν) :
    (greedyLayer distance neighbors fuel cur).Yields S P := by
  induction fuel generalizing cur with
  | zero => trivial
  | succ fuel ih =>
    rw [greedyLayer]
    have hround : (greedyRound distance neighbors cur).Yields S fun r =>
        P cur ∧ (r.2.2 = false → r.1 = cur) := by
      refine .bind (hd cur) fun d _ => .bind (hn cur) fun us hcur => ?_
      refine (Prog.Yields.foldlM (J := fun r : ν × D × Bool => r.2.2 = false → r.1 = cur) ?_ us
        fun _ => rfl).imp fun r hr => ⟨hcur, hr⟩
      intro c u hc
      refine .bind (hd u) fun nd _ => ?_
      show (if CDouble.lt nd c.2.1 then (u, nd, true) else c).2.2 = false → _
      split
      · exact fun hfalse => by cases hfalse
      · exact hc
    refine .bind hround fun r hr => ?_
    obtain ⟨cur', d, improved⟩ := r
    cases improved with
    | false =>
      show P cur'
      rw [show cur' = cur from hr.2 rfl]
      exact hr.1
    | true => exact ih cur'

theorem greedyDescend_yields {S : σ → Prop} {P : Nat → ν → Prop} {distance : ν → Prog σ D}
    {neighbors : Nat → ν → Prog σ (List ν)} (hd : ∀ u, (distance u).Yields S fun _ => True)
    (hn : ∀ lc u, (neighbors lc u).Yields S fun _ => P lc u) (fuel target lc : Nat) (cur : ν)
    (hcur : P lc cur) (hle : target ≤ lc) (hP : ∀ lc u, P (lc + 1) u → P lc u) :
    (greedyDescend distance neighbors fuel target lc cur).Yields S (P target) := by
  induction lc generalizing cur with
  | zero =>
    obtain rfl : target = 0 := Nat.le_zero.mp hle
    exact hcur
  | succ lc ih =>
    rw [greedyDescend]
    split
    · refine .bind (greedyLayer_yields hd (hn (lc + 1)) fuel cur) fun cur' hcur' => ?_
      exact ih cur' (hP lc cur' hcur') (by omega)
    · rename_i hnot
      obtain rfl : target = lc + 1 := by omega
      exact hcur

/-- None of a walk's reads changes `f`. -/
structure Walk.Keeps (f : σ → ρ) (w : Walk σ ν D) : Prop where
  seed : ∀ u, (w.seed u).Keeps f
  admits : ∀ u, (w.admits u).Keeps f
  probe : ∀ u, (w.probe u).Keeps f
  expand : ∀ u, (w.expand u).Keeps f

variable [DecidableEq ν] {H : PairingHeap} {w : Walk σ ν D}

theorem visitNeighbor_keeps (hw : w.Keeps f) (l : Limits) (s : Beam H ν D) (u : ν) :
    (visitNeighbor w l s u).Keeps f := by
  unfold visitNeighbor
  split
  · exact .pure _
  · refine (hw.admits u).bind fun admitted => ?_
    split
    · exact .pure _
    · refine (hw.probe u).bind fun found => ?_
      split <;> exact .pure _

theorem beamLoop_keeps (hw : w.Keeps f) (l : Limits) (fuel : Nat) (s : Beam H ν D) :
    (beamLoop w l fuel s).Keeps f := by
  induction fuel generalizing s with
  | zero => trivial
  | succ fuel ih =>
    rw [beamLoop]
    split
    · exact .pure _
    · dsimp only
      split
      · exact .pure _
      · split
        · exact .pure _
        · refine (hw.expand _).bind fun found => ?_
          split
          · exact ih _
          · exact .bind (.foldlM (visitNeighbor_keeps hw l) _ _) fun s => ih s

theorem beamSearch_keeps (hw : w.Keeps f) (l : Limits) (fuel : Nat) (ep : ν) :
    (beamSearch H w l fuel ep).Keeps f :=
  (hw.seed ep).bind fun _ => (beamLoop_keeps hw l fuel _).bind fun _ => .pure _


/-- A walk's reads answer only members as results. -/
structure Walk.Finds (S : σ → Prop) (M : ν → Prop) (w : Walk σ ν D) : Prop where
  seed : ∀ u, (w.seed u).Yields S fun r => r.2 = true → M u
  admits : ∀ u, (w.admits u).Yields S fun _ => True
  probe : ∀ u, (w.probe u).Yields S fun r => ∀ d, r = some (d, true) → M u
  expand : ∀ u, (w.expand u).Yields S fun _ => True

section
variable {S : σ → Prop} {M : ν → Prop}

theorem visitNeighbor_yields (hw : w.Finds S M) (l : Limits) {s : Beam H ν D} (hs : s.Holds M)
    (u : ν) : (visitNeighbor w l s u).Yields S (Beam.Holds M) := by
  unfold visitNeighbor
  split
  · exact hs
  · refine (hw.admits u).bind fun admitted _ => ?_
    split
    · exact hs
    · refine (hw.probe u).bind fun found hfound => ?_
      rcases found with _ | ⟨d, member⟩
      · exact hs
      · refine Beam.Holds.offer ?_ l d fun hm => hfound d (by rw [hm])
        exact hs

theorem beamLoop_yields (hw : w.Finds S M) (l : Limits) (fuel : Nat) {s : Beam H ν D}
    (hs : s.Holds M) : (beamLoop w l fuel s).Yields S (Beam.Holds M) := by
  induction fuel generalizing s with
  | zero => trivial
  | succ fuel ih =>
    rw [beamLoop]
    split
    · exact hs
    · dsimp only
      split
      · exact hs
      · split
        · exact hs
        · refine (hw.expand _).bind fun found _ => ?_
          split
          · exact ih hs
          · refine .bind (Q := Beam.Holds M) (.foldlM (fun c u hc => visitNeighbor_yields hw l hc u) _ ?_)
              fun s hs => ih hs
            exact hs

/-- **A beam search answers members only.** -/
theorem beamSearch_yields (hw : w.Finds S M) (l : Limits) (fuel : Nat) (ep : ν) :
    (beamSearch H w l fuel ep).Yields S fun cands => ∀ c ∈ cands, M c.1 := by
  refine (hw.seed ep).bind fun r hr => ?_
  refine (beamLoop_yields hw l fuel ?_).bind fun s hs c hc => hs c (mem_contents_of_drain hc)
  exact Beam.holds_start r.1 hr

end

end

end PgAcorn.Library
