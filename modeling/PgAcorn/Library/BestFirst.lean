import PgAcorn.Library.BeamSearch
import Mathlib.Data.Finset.Card
import Mathlib.Logic.Relation

/-! Best-first search of a graph that does not change.

The search is the beam of `BeamSearch` with its reads made at once: a neighbor that
was not visited is looked at, marked, and offered to the candidates and to the
results. Over totally ordered distances a bounded search is *closed*: what it
visited and does not answer is no nearer than any answer, and every answer was
expanded (`BestFirst.closed`). It ends after one expansion for every node at most
(`loop_ends`), and one that never drops a candidate visits all that is reachable
unless its results are full (`BestFirst.reached`). -/
namespace PgAcorn.Library

/-- What a search sees of a graph. -/
structure Terrain (ν D : Type) where
  distance : ν → D
  /-- Whether a neighbor is looked at. -/
  admits : ν → Bool
  /-- Whether a neighbor that is marked visited takes part. -/
  takes : ν → Bool
  /-- Whether a node that takes part may be a result. -/
  member : ν → Bool
  neighbors : ν → List ν

section
variable {ν D : Type} [CDouble D] {H : PairingHeap}

/-- One neighbor of an expanded node. -/
def Terrain.visit [DecidableEq ν] (g : Terrain ν D) (l : Limits) (s : Beam H ν D) (u : ν) : Beam H ν D :=
  if u ∈ s.visited then s
  else if !g.admits u then s
  else
    let s := { s with visited := u :: s.visited }
    if !g.takes u then s else s.offer l u (g.distance u) (g.member u)

/-- Expands candidates, nearest first, and notes which. -/
def Terrain.loop [DecidableEq ν] (g : Terrain ν D) (l : Limits) :
    Nat → Beam H ν D → List ν → Option (Beam H ν D × List ν)
  | 0, _, _ => none
  | fuel + 1, s, expanded =>
    match H.removeFirst s.C with
    | none => some (s, expanded)
    | some (c, C) =>
      let s := { s with C := C }
      if CDouble.lt s.furthest c.2 && decide (l.ef ≤ s.count) then some (s, expanded)
      else g.loop l fuel ((g.neighbors c.1).foldl (g.visit l) s) (c.1 :: expanded)

/-! ### Orders -/

/-- Integers stand for distances without not-a-number. -/
instance : CDouble Int where
  lt a b := decide (a < b)
  le a b := decide (a ≤ b)
  eq a b := decide (a = b)
  dblMax := ExtInt.dblMax
  negDblMax := -ExtInt.dblMax
  le_of_lt h := by simpa using (of_decide_eq_true h).le
  ne_of_lt h := by simpa using (of_decide_eq_true h).ne
  asymm h := by simpa using (of_decide_eq_true h).le
  trans h h' := by simpa using (of_decide_eq_true h).trans (of_decide_eq_true h')
  eq_dblMax := by simp

/-- Distances are totally ordered, up to equal ones. -/
def TotalOrder (D : Type) [CDouble D] : Prop := StrictWeak fun a b : D => CDouble.lt a b

theorem totalOrder_int : TotalOrder Int where
  asymm a b h := by simpa [CDouble.lt] using (of_decide_eq_true h).le
  cotrans a b c h := by
    have hac : a < c := of_decide_eq_true h
    rcases lt_or_ge a b with hb | hb
    · exact .inl (decide_eq_true hb)
    · exact .inr (decide_eq_true (hb.trans_lt hac))

theorem TotalOrder.cmpMax (hD : TotalOrder D) : StrictWeak (cmpMax (ν := ν) (D := D)) :=
  ⟨fun a b => hD.asymm a.2 b.2, fun a b c => hD.cotrans a.2 b.2 c.2⟩

theorem TotalOrder.cmpMin (hD : TotalOrder D) : StrictWeak (cmpMin (ν := ν) (D := D)) :=
  ⟨fun a b => hD.asymm b.2 a.2, fun a b c h => (hD.cotrans c.2 b.2 a.2 h).symm⟩

/-- At most is transitive. -/
theorem TotalOrder.not_lt (hD : TotalOrder D) {a b c : D} (hab : CDouble.lt a b = false)
    (hbc : CDouble.lt b c = false) : CDouble.lt a c = false := by
  by_contra h
  rcases hD.cotrans a b c (by simpa using h) with h | h
  · rw [h] at hab
    cases hab
  · rw [h] at hbc
    cases hbc

/-- No result is further than the furthest. -/
theorem Beam.le_furthest (hD : TotalOrder D) {s : Beam H ν D} {w : ν × D}
    (hw : w ∈ H.contents s.W) : CDouble.lt s.furthest w.2 = false := by
  obtain ⟨x, hx, -⟩ := PairingHeap.exists_first fun h0 => Multiset.notMem_zero w (h0 ▸ hw)
  rw [Beam.furthest, hx]
  exact PairingHeap.first_le hD.cmpMax hx w hw

theorem Beam.furthest_mem {s : Beam H ν D} (h : H.contents s.W ≠ 0) :
    ∃ w ∈ H.contents s.W, w.2 = s.furthest := by
  obtain ⟨x, hx, hmem⟩ := PairingHeap.exists_first h
  exact ⟨x, hmem, by rw [Beam.furthest, hx]; rfl⟩

/-- Draining gives the results in order. -/
theorem sorted_drain (hD : TotalOrder D) (n : Nat) (W : H.Heap (cmpMax (ν := ν) (D := D)))
    (hn : n = (H.contents W).card) :
    (drain n W).Pairwise fun a b => CDouble.lt b.2 a.2 = false := by
  induction n generalizing W with
  | zero => exact .nil
  | succ n ih =>
    cases hrem : H.removeFirst W with
    | none =>
      rw [(H.removeFirst_none W).mp hrem] at hn
      cases hn
    | some p =>
      have hcontents := H.removeFirst_some hrem
      rw [hcontents, Multiset.card_cons] at hn
      have hcard : n = (H.contents p.2).card := by omega
      rw [drain, hrem, List.pairwise_append]
      refine ⟨ih p.2 hcard, List.pairwise_singleton _ _, fun a ha b hb => ?_⟩
      rw [List.mem_singleton.mp hb]
      apply H.removeFirst_first hD.cmpMax hrem
      rwa [← coe_drain n p.2 hcard, Multiset.mem_coe]

/-! ### What a search holds -/

/-- The nodes among the candidates. -/
def Beam.frontier (s : Beam H ν D) : Multiset ν := (H.contents s.C).map Prod.fst

/-- A node is no result: the results are full, and none is further than it. -/
def Beam.Outdone (g : Terrain ν D) (l : Limits) (s : Beam H ν D) (v : ν) : Prop :=
  s.count = l.ef ∧ ∀ w ∈ H.contents s.W, CDouble.lt (g.distance v) w.2 = false

/-- What a search from `ep` has visited and has still to expand; it stays in `P`. -/
structure Reaching (g : Terrain ν D) (l : Limits) (P : ν → Prop) (ep : ν) (s : Beam H ν D)
    (expanded : List ν) : Prop where
  candidates : ∀ c ∈ H.contents s.C, c.1 ∈ s.visited ∧ c.2 = g.distance c.1
  /-- If no candidate is dropped, a visited node is expanded or will be. -/
  waiting : l.restricted = true → ∀ v ∈ s.visited, g.takes v = true →
    v ∈ s.frontier ∨ v ∈ expanded
  distinct : s.visited.Nodup
  inside : ∀ v ∈ s.visited, P v
  admitted : ∀ v ∈ s.visited, v = ep ∨ g.admits v = true
  start : ep ∈ s.visited

/-- A search and its results; `seeded` says that the start was put among them. -/
structure BestFirst (g : Terrain ν D) (l : Limits) (P : ν → Prop) (ep : ν) (seeded : Bool)
    (s : Beam H ν D) (expanded : List ν) : Prop extends Reaching g l P ep s expanded where
  results : ∀ c ∈ H.contents s.W, c.1 ∈ s.visited ∧ c.2 = g.distance c.1 ∧
    g.takes c.1 = true ∧ g.member c.1 = true
  nodup : s.nodes.Nodup
  count : s.count = (H.contents s.W).card
  room : s.count ≤ l.ef
  /-- A visited member is a result, or outdone by all of them. -/
  kept : ∀ v ∈ s.visited, g.takes v = true → g.member v = true → (v = ep → seeded = true) →
    v ∈ s.nodes ∨ s.Outdone g l v
  /-- A result is expanded or will be. -/
  pending : ∀ v ∈ s.nodes, v ∈ s.frontier ∨ v ∈ expanded
  /-- A start that is no result at first stays none. -/
  unseeded : seeded = false → ep ∉ s.nodes

variable {g : Terrain ν D} {l : Limits} {P : ν → Prop} {ep : ν} {seeded : Bool}
  {s : Beam H ν D} {expanded : List ν}

theorem BestFirst.begin (hef : 1 ≤ l.ef) (hP : P ep) (htakes : g.takes ep = true)
    (hmember : seeded = true → g.member ep = true) :
    BestFirst g l P ep seeded (Beam.start ep (g.distance ep) seeded : Beam H ν D) [] := by
  have hreach : Reaching g l P ep (Beam.start ep (g.distance ep) seeded : Beam H ν D) [] := by
    refine ⟨?_, ?_, ?_, ?_, ?_, ?_⟩ <;>
      simp [Beam.start, Beam.frontier, H.contents_add, H.contents_allocate, hP]
  cases seeded with
  | true =>
    have hm := hmember rfl
    refine ⟨hreach, ?_, ?_, ?_, ?_, ?_, ?_, fun hs => by cases hs⟩ <;>
      simp [Beam.start, Beam.nodes, Beam.frontier, H.contents_add, H.contents_allocate, hm,
        htakes, hef]
  | false =>
    refine ⟨hreach, ?_, ?_, ?_, ?_, ?_, ?_, ?_⟩ <;>
      simp [Beam.start, Beam.nodes, H.contents_allocate]

section Steps
variable {u : ν} (hnew : u ∉ s.visited) (hu : P u) (hallowed : g.admits u = true)
include hnew hu hallowed

/-- A node marked visited that is not queued. -/
theorem Reaching.mark (h : Reaching g l P ep s expanded)
    (hdrop : l.restricted = true → g.takes u = false) :
    Reaching g l P ep { s with visited := u :: s.visited } expanded where
  candidates c hc := ⟨List.mem_cons_of_mem u (h.candidates c hc).1, (h.candidates c hc).2⟩
  waiting hr v hv ht := by
    obtain rfl | hv := List.mem_cons.mp hv
    · rw [hdrop hr] at ht
      cases ht
    · exact h.waiting hr v hv ht
  distinct := List.nodup_cons.mpr ⟨hnew, h.distinct⟩
  inside v hv := by
    obtain rfl | hv := List.mem_cons.mp hv
    · exact hu
    · exact h.inside v hv
  admitted v hv := by
    obtain rfl | hv := List.mem_cons.mp hv
    · exact .inr hallowed
    · exact h.admitted v hv
  start := List.mem_cons_of_mem u h.start

/-- A node marked visited and queued for expansion; the results are free. -/
theorem Reaching.queue (h : Reaching g l P ep s expanded)
    (W : H.Heap (cmpMax (ν := ν) (D := D))) (n : Nat) :
    Reaching g l P ep
      { s with visited := u :: s.visited, C := H.add s.C (u, g.distance u), W := W, count := n }
      expanded where
  candidates c hc := by
    rw [H.contents_add, Multiset.mem_cons] at hc
    obtain rfl | hc := hc
    · exact ⟨by simp, rfl⟩
    · exact ⟨List.mem_cons_of_mem u (h.candidates c hc).1, (h.candidates c hc).2⟩
  waiting hr v hv ht := by
    simp only [Beam.frontier, H.contents_add, Multiset.map_cons, Multiset.mem_cons]
    obtain rfl | hv := List.mem_cons.mp hv
    · exact .inl (.inl rfl)
    · exact (h.waiting hr v hv ht).imp_left .inr
  distinct := List.nodup_cons.mpr ⟨hnew, h.distinct⟩
  inside v hv := by
    obtain rfl | hv := List.mem_cons.mp hv
    · exact hu
    · exact h.inside v hv
  admitted v hv := by
    obtain rfl | hv := List.mem_cons.mp hv
    · exact .inr hallowed
    · exact h.admitted v hv
  start := List.mem_cons_of_mem u h.start

omit hallowed hu hnew in
/-- Results that stay as they are, while `u` is visited and is none. -/
theorem BestFirst.unchanged (h : BestFirst g l P ep seeded s expanded)
    {C : H.Heap (cmpMin (ν := ν) (D := D))}
    (hr : Reaching g l P ep { s with visited := u :: s.visited, C := C } expanded)
    (hC : ∀ c ∈ H.contents s.C, c ∈ H.contents C)
    (hout : g.takes u = true → g.member u = true → s.Outdone g l u) :
    BestFirst g l P ep seeded { s with visited := u :: s.visited, C := C } expanded where
  toReaching := hr
  results c hc := ⟨List.mem_cons_of_mem u (h.results c hc).1, (h.results c hc).2⟩
  nodup := h.nodup
  count := h.count
  room := h.room
  kept v hv ht hm hs := by
    obtain rfl | hv := List.mem_cons.mp hv
    · exact .inr (hout ht hm)
    · exact h.kept v hv ht hm hs
  pending v hv := (h.pending v hv).imp_left fun hf => by
    obtain ⟨c, hc, rfl⟩ := Multiset.mem_map.mp hf
    exact Multiset.mem_map_of_mem _ (hC c hc)
  unseeded := h.unseeded

/-- A node queued for expansion that joins the results, while some `A` of them
leave. -/
theorem BestFirst.join (h : BestFirst g l P ep seeded s expanded) (htakes : g.takes u = true)
    (hmember : g.member u = true) {W' : H.Heap (cmpMax (ν := ν) (D := D))} {A : Multiset (ν × D)}
    (hW : (u, g.distance u) ::ₘ H.contents s.W = A + H.contents W') {n : Nat}
    (hcount : n = (H.contents W').card) (hroom : n ≤ l.ef)
    (hgone : ∀ x ∈ A, n = l.ef ∧ ∀ w ∈ H.contents W', CDouble.lt x.2 w.2 = false)
    (hout : ∀ v, s.Outdone g l v → n = l.ef ∧ CDouble.lt (g.distance v) (g.distance u) = false) :
    BestFirst g l P ep seeded
      { s with visited := u :: s.visited, C := H.add s.C (u, g.distance u), W := W', count := n }
      expanded := by
  have hin : ∀ w ∈ H.contents W', w = (u, g.distance u) ∨ w ∈ H.contents s.W := fun w hw => by
    rw [← Multiset.mem_cons, hW]
    exact Multiset.mem_add.mpr (.inr hw)
  have hnodes : u ::ₘ s.nodes = A.map Prod.fst + (H.contents W').map Prod.fst := by
    rw [← Multiset.map_add, ← hW, Multiset.map_cons]
    rfl
  have hnew' : u ∉ s.nodes := fun hmem => by
    obtain ⟨w, hw, rfl⟩ := Multiset.mem_map.mp hmem
    exact hnew (h.results w hw).1
  -- every result stays, or is A and then outdone
  have hstay : ∀ c ∈ (u, g.distance u) ::ₘ H.contents s.W, c.2 = g.distance c.1 →
      c.1 ∈ (H.contents W').map Prod.fst ∨
        (n = l.ef ∧ ∀ w ∈ H.contents W', CDouble.lt (g.distance c.1) w.2 = false) := by
    intro c hc hdist
    rw [hW, Multiset.mem_add] at hc
    obtain hc | hc := hc
    · right
      rw [← hdist]
      exact hgone c hc
    · exact .inl (Multiset.mem_map_of_mem _ hc)
  refine ⟨h.toReaching.queue hnew hu hallowed W' n, ?_, ?_, hcount, hroom, ?_, ?_, ?_⟩
  · intro c hc
    obtain rfl | hc := hin c hc
    · exact ⟨by simp, rfl, htakes, hmember⟩
    · exact ⟨List.mem_cons_of_mem u (h.results c hc).1, (h.results c hc).2⟩
  · have := Multiset.nodup_cons.mpr ⟨hnew', h.nodup⟩
    rw [hnodes] at this
    exact (Multiset.nodup_add.mp this).2.1
  · intro v hv ht hm hs
    obtain rfl | hv := List.mem_cons.mp hv
    · exact hstay (v, g.distance v) (Multiset.mem_cons_self _ _) rfl
    · rcases h.kept v hv ht hm hs with hmem | hov
      · obtain ⟨w, hw, rfl⟩ := Multiset.mem_map.mp hmem
        exact hstay w (Multiset.mem_cons_of_mem hw) (h.results w hw).2.1
      · refine .inr ⟨(hout v hov).1, fun w hw => ?_⟩
        obtain rfl | hw := hin w hw
        · exact (hout v hov).2
        · exact hov.2 w hw
  · intro v hv
    simp only [Beam.frontier, H.contents_add, Multiset.map_cons, Multiset.mem_cons]
    obtain ⟨w, hw, rfl⟩ := Multiset.mem_map.mp hv
    obtain rfl | hw := hin w hw
    · exact .inl (.inl rfl)
    · exact (h.pending w.1 (Multiset.mem_map_of_mem _ hw)).imp_left .inr
  · intro hs hep
    obtain ⟨w, hw, hwep⟩ := Multiset.mem_map.mp hep
    obtain rfl | hw := hin w hw
    · apply hnew
      rw [show u = ep from hwep]
      exact h.start
    · exact h.unseeded hs (hwep ▸ Multiset.mem_map_of_mem _ hw)

/-- A newly visited node is offered. -/
theorem BestFirst.offer (hD : TotalOrder D) (hef : 1 ≤ l.ef)
    (h : BestFirst g l P ep seeded s expanded) (htakes : g.takes u = true) :
    BestFirst g l P ep seeded
      (({ s with visited := u :: s.visited } : Beam H ν D).offer l u (g.distance u) (g.member u))
      expanded := by
  have hadd : ∀ c ∈ H.contents s.C, c ∈ H.contents (H.add s.C (u, g.distance u)) := fun c hc => by
    rw [H.contents_add]
    exact Multiset.mem_cons_of_mem hc
  have hcard : (H.contents (H.add s.W (u, g.distance u))).card = s.count + 1 := by
    rw [H.contents_add, Multiset.card_cons, h.count]
  -- a node that is not near is outdone
  have hfar : (CDouble.lt (g.distance u) s.furthest || decide (s.count < l.ef)) = false →
      s.Outdone g l u := by
    intro hnear
    obtain ⟨hlt, hfull⟩ := Bool.or_eq_false_iff.mp hnear
    have hroom := h.room
    exact ⟨by simp at hfull; omega, fun w hw => hD.not_lt hlt (Beam.le_furthest hD hw)⟩
  unfold Beam.offer
  cases hnear : CDouble.lt (g.distance u) s.furthest || decide (s.count < l.ef) with
  | false =>
    have hnear' : (CDouble.lt (g.distance u)
        ({ s with visited := u :: s.visited } : Beam H ν D).furthest ||
          decide (s.count < l.ef)) = false := hnear
    simp only [hnear', Bool.false_or, Bool.and_false, Bool.false_eq_true, if_false]
    split
    · exact h.unchanged (h.toReaching.queue hnew hu hallowed s.W s.count) hadd fun _ _ => hfar hnear
    · rename_i hr
      exact h.unchanged (C := s.C) (h.toReaching.mark hnew hu hallowed fun hr' => absurd hr' hr)
        (fun _ hc => hc) fun _ _ => hfar hnear
  | true =>
    have hnear' : (CDouble.lt (g.distance u)
        ({ s with visited := u :: s.visited } : Beam H ν D).furthest ||
          decide (s.count < l.ef)) = true := hnear
    simp only [hnear', Bool.true_or, Bool.and_true, if_true]
    split
    · rename_i hmember
      split
      · -- the furthest result leaves again
        rename_i hfull
        have hef' : s.count = l.ef := by
          have := h.room
          omega
        have hlt : CDouble.lt (g.distance u) s.furthest = true := by
          rcases Bool.or_eq_true_iff.mp hnear with hlt | hlt
          · exact hlt
          · have := of_decide_eq_true hlt
            omega
        obtain ⟨x, W', hrem⟩ := PairingHeap.exists_removeFirst
          (h := H.add s.W (u, g.distance u)) (fun h0 => by
            rw [h0] at hcard
            cases hcard)
        have hcontents := H.removeFirst_some hrem
        rw [hrem]
        refine h.join (A := {x}) hnew hu hallowed htakes hmember ?_ ?_ ?_ ?_ ?_
        · rw [← H.contents_add, hcontents]
          rfl
        · rw [hcontents, Multiset.card_cons] at hcard
          show s.count + 1 - 1 = (H.contents W').card
          omega
        · show s.count + 1 - 1 ≤ l.ef
          omega
        · intro y hy
          rw [Multiset.mem_singleton.mp hy]
          exact ⟨hef', H.removeFirst_first hD.cmpMax hrem⟩
        · intro v hv
          refine ⟨hef', ?_⟩
          have hne : H.contents s.W ≠ 0 := fun h0 => by
            have := h.count
            rw [h0, Multiset.card_zero] at this
            omega
          obtain ⟨w, hw, hwf⟩ := Beam.furthest_mem hne
          refine hD.not_lt (hv.2 w hw) ?_
          rw [hwf]
          exact hD.asymm _ _ hlt
      · rename_i hfull
        refine h.join (A := 0) hnew hu hallowed htakes hmember ?_ hcard.symm ?_ ?_ ?_
        · rw [Multiset.zero_add, H.contents_add]
        · show s.count + 1 ≤ l.ef
          omega
        · exact fun x hx => absurd hx (Multiset.notMem_zero x)
        · intro v hv
          have := hv.1
          omega
    · rename_i hmember
      exact h.unchanged (h.toReaching.queue hnew hu hallowed s.W s.count) hadd
        fun _ hm => absurd hm hmember

end Steps

/-! ### Steps and runs -/

variable [DecidableEq ν]

/-- How much a search has still to do in a finite graph. -/
def Beam.work (U : Finset ν) (s : Beam H ν D) : Nat :=
  (H.contents s.C).card + (U.card - s.visited.length)

theorem Terrain.visit_subset (g : Terrain ν D) (l : Limits) (s : Beam H ν D) (u : ν) :
    s.visited ⊆ (g.visit l s u).visited ∧ (g.admits u = true → u ∈ (g.visit l s u).visited) := by
  unfold Terrain.visit
  split
  · exact ⟨fun _ h => h, fun _ => ‹_›⟩
  · split
    · rename_i hallowed
      exact ⟨fun _ h => h, fun h => by simp [h] at hallowed⟩
    · dsimp only
      split
      · exact ⟨List.subset_cons_self _ _, fun _ => List.mem_cons_self⟩
      · rw [Beam.visited_offer]
        exact ⟨List.subset_cons_self _ _, fun _ => List.mem_cons_self⟩

/-- Visiting a neighbor. -/
theorem BestFirst.visit (hD : TotalOrder D) (hef : 1 ≤ l.ef)
    (h : BestFirst g l P ep seeded s expanded) {u : ν} (hu : g.admits u = true → P u) :
    BestFirst g l P ep seeded (g.visit l s u) expanded := by
  unfold Terrain.visit
  split
  · exact h
  · rename_i hnew
    split
    · exact h
    · rename_i hallowed
      have hallowed : g.admits u = true := by simpa using hallowed
      dsimp only
      split
      · rename_i htakes
        have htakes : g.takes u = false := by simpa using htakes
        exact h.unchanged (C := s.C)
          (h.toReaching.mark hnew (hu hallowed) hallowed fun _ => htakes) (fun _ hc => hc)
          fun ht => absurd (htakes.symm.trans ht) (by simp)
      · rename_i htakes
        exact h.offer hnew (hu hallowed) hallowed hD hef (by simpa using htakes)

theorem Terrain.visits_subset (g : Terrain ν D) (l : Limits) (us : List ν) (s : Beam H ν D) :
    s.visited ⊆ (us.foldl (g.visit l) s).visited ∧
      ∀ u ∈ us, g.admits u = true → u ∈ (us.foldl (g.visit l) s).visited := by
  induction us generalizing s with
  | nil => exact ⟨fun _ h => h, fun u hu => absurd hu List.not_mem_nil⟩
  | cons u us ih =>
    obtain ⟨hsub, hmem⟩ := ih (g.visit l s u)
    obtain ⟨hsub', hmem'⟩ := g.visit_subset l s u
    refine ⟨List.Subset.trans hsub' hsub, fun v hv hallowed => ?_⟩
    obtain rfl | hv := List.mem_cons.mp hv
    · exact hsub (hmem' hallowed)
    · exact hmem v hv hallowed

theorem BestFirst.visits (hD : TotalOrder D) (hef : 1 ≤ l.ef) (us : List ν)
    (hus : ∀ u ∈ us, g.admits u = true → P u) (h : BestFirst g l P ep seeded s expanded) :
    BestFirst g l P ep seeded (us.foldl (g.visit l) s) expanded := by
  induction us generalizing s with
  | nil => exact h
  | cons u us ih =>
    exact ih (fun v hv => hus v (List.mem_cons_of_mem u hv)) (h.visit hD hef (hus u (by simp)))

omit [DecidableEq ν] in
/-- A neighbor is queued at most once. -/
theorem Beam.offer_work (l : Limits) (s : Beam H ν D) (u : ν) (d : D) (member : Bool) :
    (H.contents (s.offer l u d member).C).card ≤ (H.contents s.C).card + 1 := by
  have hadd : (H.contents (H.add s.C (u, d))).card = (H.contents s.C).card + 1 := by
    rw [H.contents_add, Multiset.card_cons]
  unfold Beam.offer
  dsimp only
  split
  · split
    · split <;> exact hadd.le
    · exact hadd.le
  · omega

theorem Terrain.visit_work {U : Finset ν} (hs : s.visited.Nodup) (hsU : ∀ v ∈ s.visited, v ∈ U)
    {u : ν} (hu : g.admits u = true → u ∈ U) : (g.visit l s u).work U ≤ s.work U := by
  unfold Terrain.visit
  split
  · exact le_rfl
  · rename_i hnew
    split
    · exact le_rfl
    · rename_i hallowed
      have huU := hu (by simpa using hallowed)
      have hlt : (u :: s.visited).length ≤ U.card := by
        rw [← List.toFinset_card_of_nodup (List.nodup_cons.mpr ⟨hnew, hs⟩)]
        apply Finset.card_le_card
        intro v hv
        obtain rfl | hv := List.mem_cons.mp (List.mem_toFinset.mp hv)
        · exact huU
        · exact hsU v hv
      rw [List.length_cons] at hlt
      dsimp only
      split
      · show (H.contents s.C).card + (U.card - (u :: s.visited).length) ≤ _
        rw [List.length_cons, Beam.work]
        omega
      · have := Beam.offer_work l ({ s with visited := u :: s.visited } : Beam H ν D) u
          (g.distance u) (g.member u)
        dsimp only at this
        rw [Beam.work, Beam.visited_offer, List.length_cons, Beam.work]
        omega

omit [DecidableEq ν] in
/-- Taking a candidate out: it is being expanded. -/
theorem BestFirst.pop (h : BestFirst g l P ep seeded s expanded) {c : ν × D}
    {C : H.Heap (cmpMin (ν := ν) (D := D))} (hrem : H.removeFirst s.C = some (c, C)) :
    BestFirst g l P ep seeded { s with C := C } (c.1 :: expanded) := by
  have hcontents := H.removeFirst_some hrem
  have hfrontier : s.frontier = c.1 ::ₘ (H.contents C).map Prod.fst := by
    rw [Beam.frontier, hcontents, Multiset.map_cons]
  have hmove : ∀ v, v ∈ s.frontier ∨ v ∈ expanded →
      v ∈ (H.contents C).map Prod.fst ∨ v ∈ c.1 :: expanded := by
    intro v hv
    rw [hfrontier, Multiset.mem_cons] at hv
    rcases hv with (rfl | hv) | hv
    · exact .inr List.mem_cons_self
    · exact .inl hv
    · exact .inr (List.mem_cons_of_mem _ hv)
  refine ⟨⟨fun x hx => h.candidates x ?_, fun hr v hv ht => hmove v (h.waiting hr v hv ht),
    h.distinct, h.inside, h.admitted, h.start⟩, h.results, h.nodup, h.count, h.room, h.kept,
    fun v hv => hmove v (h.pending v hv), h.unseeded⟩
  rw [hcontents]
  exact Multiset.mem_cons_of_mem hx

omit [DecidableEq ν] in
/-- When the nearest candidate is further than every one of enough results, the
results have all been expanded. -/
theorem BestFirst.stop (hD : TotalOrder D) (h : BestFirst g l P ep seeded s expanded) {c : ν × D}
    {C : H.Heap (cmpMin (ν := ν) (D := D))} (hrem : H.removeFirst s.C = some (c, C))
    (hfar : CDouble.lt s.furthest c.2 = true) : ∀ v ∈ s.nodes, v ∈ expanded := by
  intro v hv
  refine (h.pending v hv).resolve_left fun hf => ?_
  obtain ⟨w, hw, rfl⟩ := Multiset.mem_map.mp hv
  obtain ⟨x, hx, hxw⟩ := Multiset.mem_map.mp hf
  have hdist : x.2 = w.2 := by rw [(h.candidates x hx).2, (h.results w hw).2.1, hxw]
  have hle : CDouble.lt x.2 c.2 = false := by
    rw [H.removeFirst_some hrem, Multiset.mem_cons] at hx
    obtain rfl | hx := hx
    · exact CDouble.irrefl _
    · exact H.removeFirst_first hD.cmpMin hrem x hx
  have := hD.not_lt (Beam.le_furthest hD hw) (hdist ▸ hle)
  rw [hfar] at this
  cases this

/-- Every admitted neighbor of an expanded node was visited. -/
def ExpandedVisited (g : Terrain ν D) (visited expanded : List ν) : Prop :=
  ∀ v ∈ expanded, ∀ u ∈ g.neighbors v, g.admits u = true → u ∈ visited

/-- What a search ends with, whatever candidates are left. -/
structure Finished (g : Terrain ν D) (l : Limits) (P : ν → Prop) (ep : ν) (seeded : Bool)
    (s : Beam H ν D) (expanded : List ν) : Prop where
  holds : ∃ C, BestFirst g l P ep seeded { s with C := C } expanded
  results : ∀ v ∈ s.nodes, v ∈ expanded
  neighbors : ExpandedVisited g s.visited expanded
  /-- It ran out of candidates, or its results are full. -/
  ended : (l.restricted = true → ∀ v ∈ s.visited, g.takes v = true → v ∈ expanded) ∨ s.count = l.ef

/-- **The loop** from a search that holds ends with one that is finished. -/
theorem Terrain.loop_finished (hD : TotalOrder D) (hef : 1 ≤ l.ef)
    (hP : ∀ v, P v → ∀ u ∈ g.neighbors v, g.admits u = true → P u) (fuel : Nat)
    (h : BestFirst g l P ep seeded s expanded) (hvisited : ExpandedVisited g s.visited expanded)
    {r : Beam H ν D × List ν} (hloop : g.loop l fuel s expanded = some r) :
    Finished g l P ep seeded r.1 r.2 := by
  induction fuel generalizing s expanded with
  | zero => cases hloop
  | succ fuel ih =>
    rw [Terrain.loop] at hloop
    split at hloop
    · rename_i hnone
      cases hloop
      have hempty := (H.removeFirst_none s.C).mp hnone
      have hdone : ∀ v, v ∈ s.frontier ∨ v ∈ expanded → v ∈ expanded := fun v hv =>
        hv.resolve_left fun hf => by
          rw [Beam.frontier, hempty] at hf
          exact Multiset.notMem_zero v hf
      exact ⟨⟨s.C, h⟩, fun v hv => hdone v (h.pending v hv), hvisited,
        .inl fun hr v hv ht => hdone v (h.waiting hr v hv ht)⟩
    · rename_i c C hrem
      dsimp only at hloop
      split at hloop
      · rename_i hbreak
        cases hloop
        obtain ⟨hfar, hfull⟩ := Bool.and_eq_true_iff.mp hbreak
        have hcount : s.count = l.ef := le_antisymm h.room (of_decide_eq_true hfull)
        have hresults : ∀ v ∈ s.nodes, v ∈ expanded := h.stop hD hrem hfar
        exact ⟨⟨s.C, h⟩, hresults, hvisited, .inr hcount⟩
      · have hpop := h.pop hrem
        have hc : P c.1 := h.inside c.1 (h.candidates c (by rw [H.removeFirst_some hrem]; simp)).1
        obtain ⟨hsub, hmem⟩ := g.visits_subset l (g.neighbors c.1) { s with C := C }
        refine ih (hpop.visits hD hef _ (hP c.1 hc)) (fun v hv u hu hallowed => ?_) hloop
        obtain rfl | hv := List.mem_cons.mp hv
        · exact hmem u hu hallowed
        · exact hsub (hvisited v hv u hu hallowed)

theorem Terrain.visits_work {U : Finset ν} {us : List ν}
    (hus : ∀ u ∈ us, g.admits u = true → u ∈ U) (hs : s.visited.Nodup)
    (hsU : ∀ v ∈ s.visited, v ∈ U) : (us.foldl (g.visit l) s).work U ≤ s.work U := by
  induction us generalizing s with
  | nil => exact le_rfl
  | cons u us ih =>
    have hu := hus u (by simp)
    have hstep : (g.visit l s u).visited.Nodup ∧ ∀ v ∈ (g.visit l s u).visited, v ∈ U := by
      unfold Terrain.visit
      split
      · exact ⟨hs, hsU⟩
      · rename_i hnew
        split
        · exact ⟨hs, hsU⟩
        · rename_i hallowed
          have hmark : (u :: s.visited).Nodup ∧ ∀ v ∈ u :: s.visited, v ∈ U := by
            refine ⟨List.nodup_cons.mpr ⟨hnew, hs⟩, fun v hv => ?_⟩
            obtain rfl | hv := List.mem_cons.mp hv
            · exact hu (by simpa using hallowed)
            · exact hsU v hv
          dsimp only
          split
          · exact hmark
          · rw [Beam.visited_offer]
            exact hmark
    exact (ih (fun v hv => hus v (List.mem_cons_of_mem u hv)) hstep.1 hstep.2).trans
      (g.visit_work hs hsU hu)

/-- **The loop ends** on a finite graph: each candidate taken out is one less to do. -/
theorem Terrain.loop_ends (hD : TotalOrder D) (hef : 1 ≤ l.ef) {U : Finset ν}
    (hU : ∀ v ∈ U, ∀ u ∈ g.neighbors v, g.admits u = true → u ∈ U) (fuel : Nat)
    (h : BestFirst g l (· ∈ U) ep seeded s expanded) (hfuel : s.work U < fuel) :
    ∃ r, ∀ n ≥ fuel, g.loop l n s expanded = some r := by
  induction fuel generalizing s expanded with
  | zero => omega
  | succ fuel ih =>
    cases hrem : H.removeFirst s.C with
    | none =>
      refine ⟨(s, expanded), fun n hn => ?_⟩
      obtain ⟨n, rfl⟩ : ∃ m, n = m + 1 := ⟨n - 1, by omega⟩
      rw [Terrain.loop, hrem]
    | some p =>
      by_cases hstop : (CDouble.lt ({ s with C := p.2 } : Beam H ν D).furthest p.1.2 &&
          decide (l.ef ≤ s.count)) = true
      · refine ⟨({ s with C := p.2 }, expanded), fun n hn => ?_⟩
        obtain ⟨n, rfl⟩ : ∃ m, n = m + 1 := ⟨n - 1, by omega⟩
        rw [Terrain.loop, hrem]
        exact if_pos hstop
      · have hpop := h.pop hrem
        have hcontents := H.removeFirst_some hrem
        have hc : p.1.1 ∈ U := h.inside p.1.1 (h.candidates p.1 (by rw [hcontents]; simp)).1
        have hwork : ((g.neighbors p.1.1).foldl (g.visit l) { s with C := p.2 }).work U <
            fuel := by
          have hle := g.visits_work (l := l) (s := { s with C := p.2 }) (hU p.1.1 hc) h.distinct
            h.inside
          have hcard : (H.contents s.C).card = (H.contents p.2).card + 1 := by
            rw [hcontents, Multiset.card_cons]
          unfold Beam.work at hle hfuel ⊢
          dsimp only at hle
          omega
        obtain ⟨r, hr⟩ := ih (hpop.visits hD hef _ (hU p.1.1 hc)) hwork
        refine ⟨r, fun n hn => ?_⟩
        obtain ⟨n, rfl⟩ : ∃ m, n = m + 1 := ⟨n - 1, by omega⟩
        rw [Terrain.loop, hrem]
        dsimp only
        rw [if_neg hstop]
        exact hr n (by omega)

/-! ### The search -/

/-- What a search answers, with what it visited and expanded on the way. -/
structure Found (ν D : Type) where
  results : List (ν × D)
  visited : List ν
  expanded : List ν
  deriving DecidableEq

/-- The search from `ep`, which is a result from the start if `seeded`. -/
def Terrain.search (H : PairingHeap) (g : Terrain ν D) (l : Limits) (fuel : Nat) (ep : ν)
    (seeded : Bool) : Option (Found ν D) :=
  (g.loop (H := H) l fuel (Beam.start ep (g.distance ep) seeded) []).map fun r =>
    ⟨drain r.1.count r.1.W, r.1.visited, r.2⟩

/-- **A search answers members only**, of what is looked at and takes part. -/
theorem Terrain.search_holds {M : ν → Prop} {fuel : Nat} {r : Found ν D}
    (hep : seeded = true → M ep)
    (hM : ∀ u, g.admits u = true → g.takes u = true → g.member u = true → M u)
    (h : g.search H l fuel ep seeded = some r) : ∀ c ∈ r.results, M c.1 := by
  have hvisit : ∀ {s : Beam H ν D}, s.Holds M → ∀ u, (g.visit l s u).Holds M := by
    intro s hs u
    unfold Terrain.visit
    split
    · exact hs
    · split
      · exact hs
      · dsimp only
        split
        · exact hs
        · rename_i hallowed htakes
          have hu : g.member u = true → M u := hM u (by simpa using hallowed) (by simpa using htakes)
          have hmarked : ({ s with visited := u :: s.visited } : Beam H ν D).Holds M := hs
          exact hmarked.offer l _ hu
  have hvisits : ∀ (us : List ν) {s : Beam H ν D}, s.Holds M → (us.foldl (g.visit l) s).Holds M := by
    intro us
    induction us with
    | nil => exact fun hs => hs
    | cons u us ih => exact fun hs => ih (hvisit hs u)
  have hloop : ∀ (fuel : Nat) {s : Beam H ν D} {expanded : List ν} {p : Beam H ν D × List ν},
      s.Holds M → g.loop l fuel s expanded = some p → p.1.Holds M := by
    intro fuel
    induction fuel with
    | zero => exact fun _ h => by cases h
    | succ fuel ih =>
      intro s expanded p hs hp
      rw [Terrain.loop] at hp
      split at hp
      · obtain rfl := Option.some.inj hp
        exact hs
      · dsimp only at hp
        split at hp
        · obtain rfl := Option.some.inj hp
          exact hs
        · rename_i c C _ _
          have hpopped : ({ s with C := C } : Beam H ν D).Holds M := hs
          exact ih (hvisits _ hpopped) hp
  obtain ⟨p, hp, rfl⟩ := Option.map_eq_some_iff.mp h
  exact fun c hc => hloop fuel (Beam.holds_start _ hep) hp c (mem_contents_of_drain hc)

/-- The answer of a search that holds. -/
structure Closed (g : Terrain ν D) (l : Limits) (P : ν → Prop) (ep : ν) (seeded : Bool)
    (r : Found ν D) : Prop where
  sorted : r.results.Pairwise fun a b => CDouble.lt b.2 a.2 = false
  nodup : (r.results.map Prod.fst).Nodup
  length : r.results.length ≤ l.ef
  results : ∀ c ∈ r.results, c.1 ∈ r.visited ∧ c.1 ∈ r.expanded ∧ c.2 = g.distance c.1 ∧
    g.takes c.1 = true ∧ g.member c.1 = true
  /-- A visited member that is not answered is no nearer than a full answer. -/
  kept : ∀ v ∈ r.visited, g.takes v = true → g.member v = true → (v = ep → seeded = true) →
    v ∈ r.results.map Prod.fst ∨
      (r.results.length = l.ef ∧ ∀ c ∈ r.results, CDouble.lt (g.distance v) c.2 = false)
  visited : ∀ v ∈ r.visited, P v ∧ (v = ep ∨ g.admits v = true)
  distinct : r.visited.Nodup
  start : ep ∈ r.visited
  neighbors : ExpandedVisited g r.visited r.expanded
  ended : (l.restricted = true → ∀ v ∈ r.visited, g.takes v = true → v ∈ r.expanded) ∨
    r.results.length = l.ef
  unseeded : seeded = false → ep ∉ r.results.map Prod.fst

omit [DecidableEq ν] in
theorem Finished.closed (hD : TotalOrder D) (h : Finished g l P ep seeded s expanded) :
    Closed g l P ep seeded ⟨drain s.count s.W, s.visited, expanded⟩ := by
  obtain ⟨C, hb⟩ := h.holds
  have hcount : s.count = (H.contents s.W).card := hb.count
  have hdrain := coe_drain s.count s.W hcount
  have hmem : ∀ c, c ∈ drain s.count s.W ↔ c ∈ H.contents s.W := fun c => by
    rw [← hdrain, Multiset.mem_coe]
  have hnodes : ((drain s.count s.W).map Prod.fst : Multiset ν) = s.nodes := by
    rw [Beam.nodes, ← hdrain, Multiset.map_coe]
  have hlength : (drain s.count s.W).length = s.count := calc
    (drain s.count s.W).length = Multiset.card (drain s.count s.W : Multiset (ν × D)) := rfl
    _ = (H.contents s.W).card := congrArg Multiset.card hdrain
    _ = s.count := hcount.symm
  have hfst : ∀ v, v ∈ (drain s.count s.W).map Prod.fst ↔ v ∈ s.nodes := fun v => by
    rw [← hnodes, Multiset.mem_coe]
  refine ⟨sorted_drain hD _ _ hcount, ?_, ?_, ?_, ?_, fun v hv => ⟨hb.inside v hv, hb.admitted v hv⟩,
    hb.distinct, hb.start, h.neighbors, ?_, fun hs hep => hb.unseeded hs ((hfst ep).mp hep)⟩
  · rw [← Multiset.coe_nodup, hnodes]
    exact hb.nodup
  · exact hlength.le.trans hb.room
  · intro c hc
    obtain ⟨hv, hdist, ht, hm⟩ := hb.results c ((hmem c).mp hc)
    exact ⟨hv, h.results c.1 ((hfst c.1).mp (List.mem_map_of_mem hc)), hdist, ht, hm⟩
  · intro v hv ht hm hs
    refine (hb.kept v hv ht hm hs).imp (hfst v).mpr fun hout => ⟨hlength.trans hout.1, ?_⟩
    exact fun c hc => hout.2 c ((hmem c).mp hc)
  · exact h.ended.imp_right hlength.trans

/-- **A search of a finite graph ends, with a closed answer.** -/
theorem Terrain.search_closed (H : PairingHeap) (hD : TotalOrder D) (hef : 1 ≤ l.ef) {U : Finset ν}
    (hU : ∀ v ∈ U, ∀ u ∈ g.neighbors v, g.admits u = true → u ∈ U) (hep : ep ∈ U)
    (htakes : g.takes ep = true) (hmember : seeded = true → g.member ep = true) :
    ∃ r, (∀ fuel > U.card, g.search H l fuel ep seeded = some r) ∧
      Closed g l (· ∈ U) ep seeded r := by
  have hbegin : BestFirst g l (· ∈ U) ep seeded
      (Beam.start ep (g.distance ep) seeded : Beam H ν D) [] := .begin hef hep htakes hmember
  have hwork : (Beam.start ep (g.distance ep) seeded : Beam H ν D).work U < U.card + 1 := by
    have hpos := Finset.card_pos.mpr ⟨ep, hep⟩
    have hcard : (H.contents (Beam.start ep (g.distance ep) seeded : Beam H ν D).C).card = 1 := by
      simp [Beam.start, H.contents_add, H.contents_allocate]
    rw [Beam.work, hcard]
    show 1 + (U.card - 1) < U.card + 1
    omega
  obtain ⟨r, hr⟩ := Terrain.loop_ends hD hef hU (U.card + 1) hbegin hwork
  have hfinished := Terrain.loop_finished hD hef (fun v hv => hU v hv) (U.card + 1) hbegin
    (fun v hv => absurd hv List.not_mem_nil) (hr (U.card + 1) le_rfl)
  refine ⟨_, fun fuel hfuel => ?_, hfinished.closed hD⟩
  rw [Terrain.search, hr fuel hfuel]
  rfl

/-- A node is reached from another through neighbors that are looked at. -/
def Reached (g : Terrain ν D) : ν → ν → Prop :=
  Relation.ReflTransGen fun v u => u ∈ g.neighbors v ∧ g.admits u = true

omit [DecidableEq ν] in
/-- A search that drops no candidate visits all that can be reached, unless its
results are full. -/
theorem Closed.reached {r : Found ν D} (h : Closed g l P ep seeded r) (hl : l.restricted = true)
    (htakes : ∀ v, g.takes v = true) (hroom : r.results.length ≠ l.ef) {v : ν}
    (hv : Reached g ep v) : v ∈ r.visited := by
  induction hv with
  | refl => exact h.start
  | tail _ hstep ih =>
    have hexpanded := h.ended.resolve_right hroom hl _ ih (htakes _)
    exact h.neighbors _ hexpanded _ hstep.1 hstep.2

end

end PgAcorn.Library
