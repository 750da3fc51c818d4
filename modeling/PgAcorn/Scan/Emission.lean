import PgAcorn.Scan.Invariant
import Mathlib.Data.Set.Card
import Mathlib.Order.WellFounded
import Mathlib.Tactic.Abel

/-! What a stream emits until it ends.

From the invariant every run of `acorn_t2_stream_next` terminates within its
budget, and every emitted row belongs to a discovered element that is to be
returned, each at most once. It is complete when no discovered distance or lower
bound reaches `DBL_MAX`: the loop compares the heads of its heaps with that
sentinel, and a queued element at or beyond it reads as an empty heap. -/
namespace PgAcorn.Scan
open Library

variable {V Q D : Type} [CDouble D] {H : PairingHeap}

/-! ### One iteration -/

/-- Neither expansion nor emission has anything left to do. -/
structure Ended (S : Stream V Q D) (s : State H D) : Prop where
  gate : expansionGate S s = false
  rerank : S.approx = true → H.contents s.Rx = 0 ∧ rerankGate S s = false
  results : S.approx = false → H.contents s.R = 0

/-- Remaining work: budget first, then results on their way out. -/
def measure (S : Stream V Q D) (s : State H D) : Nat × Nat :=
  (S.efSearch - s.nExpansions, 2 * (H.contents s.R).card + (H.contents s.Rx).card)

/-- Less work remains. -/
def Less (S : Stream V Q D) (s' s : State H D) : Prop :=
  Prod.Lex (· < ·) (· < ·) (measure S s') (measure S s)

theorem less_wf (S : Stream V Q D) : WellFounded (Less (H := H) S) :=
  InvImage.wf _ (Prod.lex Nat.lt_wfRel Nat.lt_wfRel).wf

/-- How the emitted candidate leaves its heap. -/
inductive Pops (S : Stream V Q D) (s : State H D) (c : Elem D) : State H D → Prop
  | rescored {Rx : H.Heap (pqCmpMin (D := D))} (hap : S.approx = true)
      (hg : rerankGate S s = false) (hr : H.removeFirst s.Rx = some (c, Rx)) (n : Nat) :
      Pops S s c { s with Rx := Rx, rxCount := n }
  | direct {R : H.Heap (pqCmpLbMin (D := D))} (hap : S.approx = false)
      (hr : H.removeFirst s.R = some (c, R)) : Pops S s c { s with R := R }

/-- What an iteration from an invariant state may do, with the elements emitted
before and after it. -/
inductive Step (S : Stream V Q D) (base : Tid) (es : List Tid) (s : State H D) :
    Outcome → List Tid → State H D → Prop
  | expand {s' : State H D} (hg : expansionGate S s = true) (h : Inv S base es s')
      (hl : Less S s' s) : Step S base es s .continue es s'
  | rescore {s' : State H D} (hg : expansionGate S s = false) (hr : t2RerankOne S s = some s')
      (h : Inv S base es s') (hl : Less S s' s) : Step S base es s .continue es s'
  | emit {c : Elem D} {s' : State H D} (hg : expansionGate S s = false) (hp : Pops S s c s')
      (h : Inv S base (es ++ [c.indextid]) s') (hl : Less S s' s) :
      Step S base es s (.emit (heapTid S c.indextid)) (es ++ [c.indextid]) s'
  | finish (h : Ended S s) : Step S base es s .finish es { s with exhausted := true }

/-- An iteration that does not end the stream keeps the invariant. -/
theorem Step.inv {S : Stream V Q D} {base : Tid} {es es' : List Tid} {s s' : State H D}
    {o : Outcome} (h : Step S base es s o es' s') (ho : o ≠ .finish) : Inv S base es' s' := by
  cases h with
  | expand _ h _ => exact h
  | rescore _ _ h _ => exact h
  | emit _ _ h _ => exact h
  | finish _ => exact absurd rfl ho

/-- Iterations of the loop, across calls, up to the end of the stream. -/
def Run (S : Stream V Q D) (base : Tid) : List Tid × State H D → List Tid × State H D → Prop :=
  Relation.ReflTransGen fun p q => ∃ o, o ≠ .finish ∧ Step S base p.1 p.2 o q.1 q.2

theorem Inv.emitRx {S : Stream V Q D} {base : Tid} {es : List Tid} {s s' : State H D}
    (h : Inv S base es s) {c : Elem D} {Rx : H.Heap (pqCmpMin (D := D))}
    (hr : H.removeFirst s.Rx = some (c, Rx)) {n : Nat}
    (hs' : s' = { s with Rx := Rx, rxCount := n }) :
    Inv S base (es ++ [c.indextid]) s' ∧ c.heaptid = heapTid S c.indextid ∧ Less S s' s := by
  have hcontents := H.removeFirst_some hr
  obtain ⟨e, hres⟩ := h.rescored c (by rw [hcontents]; exact Multiset.mem_cons_self _ _)
  subst hs'
  refine ⟨⟨h.nodup, h.visited, h.reachable, h.frontier, h.candidates, h.results,
    fun c' hc' => h.rescored c' (by rw [hcontents]; exact Multiset.mem_cons_of_mem hc'), ?_,
    fun ha => ?_, h.budget, h.count, h.running⟩, ?_, ?_⟩
  · rw [← h.emitted, hcontents, ← Multiset.coe_add, Multiset.coe_singleton]
    simp only [tids, Multiset.map_cons]
    rw [← Multiset.singleton_add]
    abel
  · have := h.exact ha
    rw [hcontents] at this
    exact absurd this (Multiset.cons_ne_zero)
  · rw [hres.heaptid, heapTid_of_element hres.element]
  · refine Prod.Lex.right _ ?_
    dsimp only
    rw [hcontents, Multiset.card_cons]
    omega

theorem Inv.emitR {S : Stream V Q D} {base : Tid} {es : List Tid} {s : State H D}
    (h : Inv S base es s) (hap : S.approx = false) {c : Elem D}
    {R : H.Heap (pqCmpLbMin (D := D))} (hr : H.removeFirst s.R = some (c, R)) :
    Inv S base (es ++ [c.indextid]) { s with R := R } ∧ c.heaptid = heapTid S c.indextid ∧
      Less S { s with R := R } s := by
  have hcontents := H.removeFirst_some hr
  obtain ⟨-, e, hres⟩ := h.results c (by rw [hcontents]; exact Multiset.mem_cons_self _ _)
  have hret := hres.returned (hres.exact hap).1
  refine ⟨⟨h.nodup, h.visited, h.reachable, h.frontier, h.candidates,
    fun c' hc' => h.results c' (by rw [hcontents]; exact Multiset.mem_cons_of_mem hc'),
    h.rescored, ?_, h.exact, h.budget, h.count, h.running⟩, ?_, ?_⟩
  · rw [← h.emitted, hcontents, ← Multiset.coe_add, Multiset.coe_singleton]
    simp only [tids, Multiset.map_cons]
    rw [Multiset.filter_cons_of_pos (p := (returned S · = true)) _ hret, ← Multiset.singleton_add]
    abel
  · rw [(hres.exact hap).2, heapTid_of_element hres.element]
  · refine Prod.Lex.right _ ?_
    dsimp only
    rw [hcontents, Multiset.card_cons]
    omega

/-- An iteration never fails, keeps the invariant and makes progress. -/
theorem iterate_spec {S : Stream V Q D} {bound : Nat} (hfuel : ChainFuel H S bound) {base : Tid}
    {es : List Tid} {s : State H D} (h : Inv S base es s) :
    ∃ o es' s', (∀ fuel > bound, iterate S fuel s = some (o, s')) ∧ Step S base es s o es' s' := by
  unfold iterate
  cases hgate : expansionGate S s with
  | true =>
    simp only [if_true]
    obtain ⟨s', hs', hinv, hn⟩ := expandOne_spec hfuel h hgate
    refine ⟨.continue, es, s', fun fuel hf => by rw [hs' fuel hf, Option.map_some],
      .expand hgate hinv (Prod.Lex.left _ _ ?_)⟩
    have := hinv.budget
    omega
  | false =>
    simp only [Bool.false_eq_true, if_false]
    cases hap : S.approx with
    | true =>
      simp only [if_true]
      cases hrerank : rerankGate S s with
      | true =>
        have hne : H.contents s.R ≠ 0 := by
          intro hempty
          simp [rerankGate, (PairingHeap.isEmpty_iff s.R).mpr hempty] at hrerank
        obtain ⟨s', hs', hinv, hn, hcard⟩ := t2RerankOne_spec h hap hne
        refine ⟨.continue, es, s', fun _ _ => by rw [if_pos rfl, hs', Option.map_some],
          .rescore hgate hs' hinv ?_⟩
        unfold Less measure
        rw [hn]
        exact Prod.Lex.right _ hcard
      | false =>
        simp only [Bool.false_eq_true, if_false]
        cases hr : H.removeFirst s.Rx with
        | none =>
          exact ⟨.finish, es, _, fun _ _ => rfl, .finish ⟨hgate,
            fun _ => ⟨(H.removeFirst_none _).mp hr, hrerank⟩,
            fun ha => absurd (hap.symm.trans ha) (by simp)⟩⟩
        | some p =>
          obtain ⟨c, Rx⟩ := p
          obtain ⟨hinv, hheap, hl⟩ := h.emitRx hr (n := s.rxCount - 1) rfl
          refine ⟨.emit c.heaptid, es ++ [c.indextid], _, fun _ _ => rfl, ?_⟩
          rw [hheap]
          exact .emit hgate (.rescored hap hrerank hr _) hinv hl
    | false =>
      simp only [Bool.false_eq_true, if_false]
      cases hr : H.removeFirst s.R with
      | none =>
        exact ⟨.finish, es, _, fun _ _ => rfl, .finish ⟨hgate,
          fun ha => absurd (hap.symm.trans ha) (by simp), fun _ => (H.removeFirst_none _).mp hr⟩⟩
      | some p =>
        obtain ⟨c, R⟩ := p
        obtain ⟨hinv, hheap, hl⟩ := h.emitR hap hr
        refine ⟨.emit c.heaptid, es ++ [c.indextid], _, fun _ _ => rfl, ?_⟩
        rw [hheap]
        exact .emit hgate (.direct hap hr) hinv hl

/-! ### Calls and runs -/

/-- What a call returns: an element is emitted, or the stream has ended. -/
inductive Returned (S : Stream V Q D) (base : Tid) (es : List Tid) (s : State H D) :
    Option Tid → State H D → Prop
  | emit {s' : State H D} {u : Tid} (h : Inv S base (es ++ [u]) s') (hl : Less S s' s)
      (hrun : Run S base (es, s) (es ++ [u], s')) :
      Returned S base es s (some (heapTid S u)) s'
  | finish {s' : State H D} (h : Inv S base es s') (he : Ended S s')
      (hrun : Run S base (es, s) (es, s')) :
      Returned S base es s none { s' with exhausted := true }

theorem less_trans {S : Stream V Q D} {s s' s'' : State H D} (h : Less S s'' s')
    (h' : Less S s' s) : Less S s'' s := Prod.Lex.trans h h'

/-- A call that continues an iteration returns what the rest of it returns. -/
theorem Returned.head {S : Stream V Q D} {base : Tid} {es : List Tid} {s s' s'' : State H D}
    {o : Option Tid} (hstep : Step S base es s .continue es s') (hl : Less S s' s)
    (h : Returned S base es s' o s'') : Returned S base es s o s'' := by
  have hhead : ∀ {q : List Tid × State H D}, Run S base (es, s') q → Run S base (es, s) q :=
    fun hrun => .head ⟨.continue, by simp, hstep⟩ hrun
  cases h with
  | emit hinv hl' hrun => exact .emit hinv (less_trans hl' hl) (hhead hrun)
  | finish hinv he hrun => exact .finish hinv he (hhead hrun)

/-- With enough fuel the loop ends, by induction on the remaining work. -/
theorem nextLoop_spec {S : Stream V Q D} {bound : Nat} (hfuel : ChainFuel H S bound) {base : Tid}
    {es : List Tid} (s : State H D) (h : Inv S base es s) :
    ∃ n₀ o s', (∀ fuel > bound, ∀ n ≥ n₀, nextLoop S fuel n s = some (o, s')) ∧
      Returned S base es s o s' := by
  induction s using (less_wf S).induction with
  | _ s ih =>
    obtain ⟨o, es', s', hit, hstep⟩ := iterate_spec hfuel h
    have hcontinue : o = .continue → es' = es → Inv S base es s' → Less S s' s →
        ∃ n₀ o s'', (∀ fuel > bound, ∀ n ≥ n₀, nextLoop S fuel n s = some (o, s'')) ∧
          Returned S base es s o s'' := by
      rintro rfl rfl hinv hl
      obtain ⟨n₀, o, s'', hloop, hret⟩ := ih s' hl hinv
      refine ⟨n₀ + 1, o, s'', fun fuel hf n hn => ?_, hret.head hstep hl⟩
      obtain ⟨k, rfl⟩ := Nat.exists_eq_add_of_le hn
      rw [show n₀ + 1 + k = n₀ + k + 1 by omega, nextLoop, hit fuel hf]
      exact hloop fuel hf _ (by omega)
    cases hstep with
    | expand hg hinv hl => exact hcontinue rfl rfl hinv hl
    | rescore hg hr hinv hl => exact hcontinue rfl rfl hinv hl
    | emit hg hp hinv hl =>
      refine ⟨1, _, s', fun fuel hf n hn => ?_,
        .emit hinv hl (.single ⟨_, by simp, .emit hg hp hinv hl⟩)⟩
      obtain ⟨k, rfl⟩ := Nat.exists_eq_add_of_le hn
      rw [show 1 + k = k + 1 by omega, nextLoop, hit fuel hf]
    | finish he =>
      refine ⟨1, none, _, fun fuel hf n hn => ?_, .finish h he .refl⟩
      obtain ⟨k, rfl⟩ := Nat.exists_eq_add_of_le hn
      rw [show 1 + k = k + 1 by omega, nextLoop, hit fuel hf]

/-- A call on a running stream succeeds. -/
theorem t2StreamNext_spec {S : Stream V Q D} {bound : Nat} (hfuel : ChainFuel H S bound)
    {base : Tid} {es : List Tid} {s : State H D} (h : Inv S base es s) :
    ∃ n₀ o s', (∀ fuel ≥ n₀, t2StreamNext S fuel s = some (o, s')) ∧
      Returned S base es s o s' := by
  obtain ⟨m₀, o, s', hloop, hret⟩ := nextLoop_spec hfuel s h
  refine ⟨m₀ + bound + 1, o, s', fun fuel hf => ?_, hret⟩
  rw [t2StreamNext, h.running, if_neg (by simp)]
  exact hloop fuel (by omega) fuel (by omega)

/-- With enough fuel repeated calls end, having emitted some further elements. -/
theorem drain_spec {S : Stream V Q D} {bound : Nat} (hfuel : ChainFuel H S bound) {base : Tid}
    {es : List Tid} (s : State H D) (h : Inv S base es s) :
    ∃ n₀ es' s', (∀ fuel ≥ n₀, ∀ n ≥ n₀,
        drain S fuel n s = some (es'.map (heapTid S), { s' with exhausted := true })) ∧
      Inv S base (es ++ es') s' ∧ Ended S s' := by
  induction s using (less_wf S).induction generalizing es with
  | _ s ih =>
    obtain ⟨m₀, o, s', hnext, hret⟩ := t2StreamNext_spec hfuel h
    cases hret with
    | @emit s' u hinv hl =>
      obtain ⟨n₀, es', s'', hdrain, hinv', he⟩ := ih s' hl hinv
      refine ⟨n₀ + m₀ + 1, u :: es', s'', fun fuel hf n hn => ?_, ?_, he⟩
      · obtain ⟨k, rfl⟩ := Nat.exists_eq_add_of_le hn
        rw [show n₀ + m₀ + 1 + k = n₀ + m₀ + k + 1 by omega, drain, hnext fuel (by omega)]
        simp only [hdrain fuel (by omega) _ (show n₀ + m₀ + k ≥ n₀ by omega),
          Option.map_some, List.map_cons]
      · rw [List.append_assoc] at hinv'
        exact hinv'
    | @finish s' hinv he =>
      refine ⟨m₀ + 1, [], s', fun fuel hf n hn => ?_, by rwa [List.append_nil], he⟩
      obtain ⟨k, rfl⟩ := Nat.exists_eq_add_of_le hn
      rw [show m₀ + 1 + k = m₀ + k + 1 by omega, drain, hnext fuel (by omega)]
      rfl

theorem calls_exhausted (S : Stream V Q D) (fuel : Nat) {s : State H D} (h : s.exhausted = true)
    (k : Nat) : calls S fuel k s = some ([], s) := by
  induction k with
  | zero => rfl
  | succ k ih =>
    rw [calls, t2StreamNext, if_pos h]
    exact ih

/-- What a number of calls has done: they went through some iterations and, if the
stream has ended, marked it so. -/
theorem calls_spec {S : Stream V Q D} {bound : Nat} (hfuel : ChainFuel H S bound) {base : Tid}
    (k : Nat) {es : List Tid} {s : State H D} (h : Inv S base es s) :
    ∃ n₀ es' s' b, (∀ fuel ≥ n₀,
        calls S fuel k s = some (es'.map (heapTid S), { s' with exhausted := b })) ∧
      Inv S base (es ++ es') s' ∧ Run S base (es, s) (es ++ es', s') := by
  induction k generalizing es s with
  | zero =>
    refine ⟨0, [], s, false, fun _ _ => ?_, by rwa [List.append_nil],
      by rw [List.append_nil]; exact .refl⟩
    rw [← h.running]
    rfl
  | succ k ih =>
    obtain ⟨m₀, o, s', hnext, hret⟩ := t2StreamNext_spec hfuel h
    cases hret with
    | @emit s' u hinv hl hrun =>
      obtain ⟨n₀, es', s'', b, hcalls, hinv', hrun'⟩ := ih hinv
      rw [List.append_assoc] at hinv' hrun'
      refine ⟨n₀ + m₀, u :: es', s'', b, fun fuel hf => ?_, hinv', hrun.trans hrun'⟩
      rw [calls, hnext fuel (by omega)]
      simp only [hcalls fuel (by omega), Option.map_some, List.map_cons]
    | @finish s' hinv he hrun =>
      refine ⟨m₀, [], s', true, fun fuel hf => ?_, by rwa [List.append_nil],
        by rwa [List.append_nil]⟩
      rw [calls, hnext fuel (by omega)]
      exact calls_exhausted S fuel rfl k

end PgAcorn.Scan
