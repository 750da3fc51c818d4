import PgAcorn.Library.Program
import PgAcorn.Library.Double
import PgAcorn.Library.PairingHeap
import Mathlib.Data.Multiset.Dedup

/-! Walks over a layered graph that is read step by step: the greedy descent and
the bounded beam search.

The graph is only seen through programs that read it, so the same walks serve a
graph in memory and one on disk, alone or while others change it. `Walk` says
what a beam search does at a node. The rules say what survives any interleaving:
if every read stays within a stable set of nodes, so do the walks, a beam search
answers distinct nodes, and an unrestricted one answers at least one. -/
namespace PgAcorn.Library

section
variable {σ ν D : Type} [CDouble D]

/-! ### Greedy descent -/

/-- One neighbor: the cursor moves to it if it is strictly nearer. -/
def greedyNeighbor (distance : ν → Prog σ D) (c : ν × D × Bool) (u : ν) :
    Prog σ (ν × D × Bool) := do
  let nd ← distance u
  pure (if CDouble.lt nd c.2.1 then (u, nd, true) else c)

/-- One pass over the neighbors of the node the cursor is on, with whether it
moved. -/
def greedyRound (distance : ν → Prog σ D) (neighbors : ν → Prog σ (List ν)) (cur : ν) :
    Prog σ (ν × D × Bool) := do
  let d ← distance cur
  let us ← neighbors cur
  us.foldlM (greedyNeighbor distance) (cur, d, false)

/-- Passes on one layer, until the cursor stays. -/
def greedyLayer (distance : ν → Prog σ D) (neighbors : ν → Prog σ (List ν)) :
    Nat → ν → Prog σ ν
  | 0, _ => .diverge
  | fuel + 1, cur => do
    let (cur, _, improved) ← greedyRound distance neighbors cur
    if improved then greedyLayer distance neighbors fuel cur else pure cur

/-- The layers from `lc` down to above `target`. -/
def greedyDescend (distance : ν → Prog σ D) (neighbors : Nat → ν → Prog σ (List ν))
    (fuel target : Nat) : Nat → ν → Prog σ ν
  | 0, cur => pure cur
  | lc + 1, cur =>
    if target < lc + 1 then do
      let cur ← greedyLayer distance (neighbors (lc + 1)) fuel cur
      greedyDescend distance neighbors fuel target lc cur
    else pure cur

/-! ### Beam search -/

/-- What a beam search does at a node. -/
structure Walk (σ ν D : Type) where
  /-- The node it starts from: its distance, and whether it is a result. -/
  seed : ν → Prog σ (D × Bool)
  /-- Whether a neighbor that was not visited takes part. -/
  admits : ν → Prog σ Bool
  /-- A newly visited neighbor: its distance and whether it can be a result, or
  nothing to ignore it. -/
  probe : ν → Prog σ (Option (D × Bool))
  /-- The neighbors of a candidate, or nothing to skip it. -/
  expand : ν → Prog σ (Option (List ν))

/-- The limits of a beam search. -/
structure Limits where
  ef : Nat
  /-- Every visited node can be expanded, not only what may be a result. -/
  restricted : Bool
  /-- Zero is no limit. -/
  maxExpansions : Nat

/-- The nearer node comes first. -/
def cmpMin (a b : ν × D) : Bool := CDouble.lt b.2 a.2

/-- The further node comes first. -/
def cmpMax (a b : ν × D) : Bool := CDouble.lt a.2 b.2

/-- Candidates `C` to expand, results `W` so far with their number. -/
structure Beam (H : PairingHeap) (ν D : Type) [CDouble D] where
  C : H.Heap (cmpMin (ν := ν) (D := D))
  W : H.Heap (cmpMax (ν := ν) (D := D))
  count : Nat
  visited : List ν
  expansions : Nat

variable {H : PairingHeap}

/-- The distance of the worst result. -/
def Beam.furthest (s : Beam H ν D) : D := (H.first s.W).elim CDouble.dblMax Prod.snd

/-- Queues a visited node, and keeps it as a result if there is room or it beats
the worst one. -/
def Beam.offer (l : Limits) (s : Beam H ν D) (u : ν) (nd : D) (member : Bool) : Beam H ν D :=
  let near := CDouble.lt nd s.furthest || decide (s.count < l.ef)
  if near || l.restricted then
    let s := { s with C := H.add s.C (u, nd) }
    if member && near then
      let s := { s with W := H.add s.W (u, nd), count := s.count + 1 }
      if l.ef < s.count then
        { s with W := (H.removeFirst s.W).elim s.W Prod.snd, count := s.count - 1 }
      else s
    else s
  else s

/-- One neighbor of an expanded node. -/
def visitNeighbor [DecidableEq ν] (w : Walk σ ν D) (l : Limits) (s : Beam H ν D) (u : ν) :
    Prog σ (Beam H ν D) := do
  if u ∈ s.visited then pure s
  else
    let admitted ← w.admits u
    if !admitted then pure s
    else
      let found ← w.probe u
      let s := { s with visited := u :: s.visited }
      match found with
      | none => pure s
      | some (nd, member) => pure (s.offer l u nd member)

/-- Expands candidates, nearest first, until none can improve the results. -/
def beamLoop [DecidableEq ν] (w : Walk σ ν D) (l : Limits) : Nat → Beam H ν D → Prog σ (Beam H ν D)
  | 0, _ => .diverge
  | fuel + 1, s =>
    match H.removeFirst s.C with
    | none => pure s
    | some (c, C) =>
      let s := { s with C := C }
      if CDouble.lt s.furthest c.2 && decide (l.ef ≤ s.count) then pure s
      else if l.maxExpansions > 0 && decide (l.maxExpansions ≤ s.expansions) then pure s
      else do
        let s := { s with expansions := s.expansions + 1 }
        let found ← w.expand c.1
        match found with
        | none => beamLoop w l fuel s
        | some us =>
          let s ← us.foldlM (visitNeighbor w l) s
          beamLoop w l fuel s

/-- The results, nearest first: the heap gives them furthest first. -/
def drain : Nat → H.Heap (cmpMax (ν := ν) (D := D)) → List (ν × D)
  | 0, _ => []
  | n + 1, W =>
    match H.removeFirst W with
    | none => []
    | some (x, W) => drain n W ++ [x]

/-- The beam at its starting node. -/
def Beam.start (ep : ν) (d : D) (member : Bool) : Beam H ν D where
  C := H.add (H.allocate _) (ep, d)
  W := if member then H.add (H.allocate _) (ep, d) else H.allocate _
  count := if member then 1 else 0
  visited := [ep]
  expansions := 0

/-- At most `ef` results around `ep`, nearest first. -/
def beamSearch [DecidableEq ν] (H : PairingHeap) (w : Walk σ ν D) (l : Limits) (fuel : Nat) (ep : ν) :
    Prog σ (List (ν × D)) := do
  let (d, member) ← w.seed ep
  let s ← beamLoop (H := H) w l fuel (Beam.start ep d member)
  pure (drain s.count s.W)

/-! ### What a beam holds -/

section
variable {M : ν → Prop}

/-- The results so far are members. -/
def Beam.Holds (M : ν → Prop) (s : Beam H ν D) : Prop := ∀ c ∈ H.contents s.W, M c.1

theorem Beam.Holds.offer {s : Beam H ν D} (h : s.Holds M) (l : Limits) {u : ν} (d : D) {member : Bool}
    (hu : member = true → M u) : (s.offer l u d member).Holds M := by
  have hadd : member = true → ∀ c ∈ H.contents (H.add s.W (u, d)), M c.1 := fun hm c hc => by
    rw [H.contents_add, Multiset.mem_cons] at hc
    obtain rfl | hc := hc
    · exact hu hm
    · exact h c hc
  unfold Beam.offer
  dsimp only
  split
  · split
    · rename_i hm
      have hm : member = true := (Bool.and_eq_true_iff.mp hm).1
      split
      · intro c hc
        refine hadd hm c ?_
        dsimp only at hc
        cases hrem : H.removeFirst (H.add s.W (u, d)) with
        | none =>
          rw [hrem] at hc
          exact hc
        | some p =>
          rw [hrem] at hc
          rw [H.removeFirst_some hrem]
          exact Multiset.mem_cons_of_mem hc
      · exact hadd hm
    · exact h
  · exact h

/-- The start is a result only as a member. -/
theorem Beam.holds_start {ep : ν} (d : D) {member : Bool} (hep : member = true → M ep) :
    (Beam.start ep d member : Beam H ν D).Holds M := by
  intro c hc
  cases member with
  | false => simp [Beam.start, H.contents_allocate] at hc
  | true =>
    simp only [Beam.start, if_true, H.contents_add, H.contents_allocate, Multiset.mem_cons,
      Multiset.notMem_zero, or_false] at hc
    rw [hc]
    exact hep rfl

/-- What is drained was held. -/
theorem mem_contents_of_drain {n : Nat} {W : H.Heap (cmpMax (ν := ν) (D := D))} {c : ν × D}
    (h : c ∈ drain n W) : c ∈ H.contents W := by
  induction n generalizing W with
  | zero => cases h
  | succ n ih =>
    rw [drain] at h
    cases hrem : H.removeFirst W with
    | none =>
      rw [hrem] at h
      cases h
    | some p =>
      rw [hrem] at h
      rw [H.removeFirst_some hrem, Multiset.mem_cons]
      obtain h | h := List.mem_append.mp h
      · exact .inr (ih h)
      · exact .inl (List.mem_singleton.mp h)

end

/-- The nodes among the results. -/
def Beam.nodes (s : Beam H ν D) : Multiset ν := (H.contents s.W).map Prod.fst

/-- Candidates and results are visited nodes, results are distinct and counted. -/
structure Beam.Ok (l : Limits) (s : Beam H ν D) : Prop where
  candidates : ∀ c ∈ H.contents s.C, c.1 ∈ s.visited
  results : ∀ v ∈ s.nodes, v ∈ s.visited
  nodup : s.nodes.Nodup
  count : s.count = (H.contents s.W).card
  nonempty : l.restricted = false → s.count ≠ 0

theorem Beam.Ok.start {l : Limits} (ep : ν) (d : D) {member : Bool}
    (h : l.restricted = false → member = true) : (Beam.start ep d member : Beam H ν D).Ok l := by
  cases member with
  | true =>
    refine ⟨?_, ?_, ?_, ?_, ?_⟩ <;>
      simp [Beam.start, Beam.nodes, H.contents_add, H.contents_allocate]
  | false =>
    refine ⟨?_, ?_, ?_, ?_, fun hl => by cases h hl⟩ <;>
      simp [Beam.start, Beam.nodes, H.contents_add, H.contents_allocate]

/-- Marking a node visited. -/
theorem Beam.Ok.mark {l : Limits} {s : Beam H ν D} (h : s.Ok l) (u : ν) :
    ({ s with visited := u :: s.visited } : Beam H ν D).Ok l :=
  ⟨fun c hc => List.mem_cons_of_mem u (h.candidates c hc),
    fun v hv => List.mem_cons_of_mem u (h.results v hv), h.nodup, h.count, h.nonempty⟩

theorem Beam.visited_offer (l : Limits) (s : Beam H ν D) (u : ν) (nd : D) (member : Bool) :
    (s.offer l u nd member).visited = s.visited := by
  unfold Beam.offer
  dsimp only
  split
  · split
    · split <;> rfl
    · rfl
  · rfl

/-- A new node enters the beam. -/
theorem Beam.Ok.offer {l : Limits} {s : Beam H ν D} (h : s.Ok l) {u : ν} (hu : u ∈ s.visited)
    (hnew : u ∉ s.nodes) (nd : D) (member : Bool) : (s.offer l u nd member).Ok l := by
  have hC : ∀ c ∈ H.contents (H.add s.C (u, nd)), c.1 ∈ s.visited := by
    intro c hc
    rw [H.contents_add, Multiset.mem_cons] at hc
    obtain rfl | hc := hc
    · exact hu
    · exact h.candidates c hc
  have hnodes : ((H.contents (H.add s.W (u, nd))).map Prod.fst) = u ::ₘ s.nodes := by
    rw [H.contents_add, Multiset.map_cons]
    rfl
  have hresults : ∀ v ∈ u ::ₘ s.nodes, v ∈ s.visited := by
    intro v hv
    obtain rfl | hv := Multiset.mem_cons.mp hv
    · exact hu
    · exact h.results v hv
  have hnodup : (u ::ₘ s.nodes).Nodup := Multiset.nodup_cons.mpr ⟨hnew, h.nodup⟩
  have hcard : (H.contents (H.add s.W (u, nd))).card = s.count + 1 := by
    rw [H.contents_add, Multiset.card_cons, h.count]
  unfold Beam.offer
  dsimp only
  split
  · split
    · split
      · -- one too many: the worst result leaves again
        rename_i hfull
        have hne : H.contents (H.add s.W (u, nd)) ≠ 0 := by
          intro h0
          rw [h0] at hcard
          cases hcard
        obtain ⟨x, W', hrem⟩ := PairingHeap.exists_removeFirst hne
        have hcontents := H.removeFirst_some hrem
        have hsub : ∀ v ∈ (H.contents W').map Prod.fst, v ∈ u ::ₘ s.nodes := by
          intro v hv
          rw [← hnodes, hcontents, Multiset.map_cons]
          exact Multiset.mem_cons_of_mem hv
        rw [hrem]
        refine ⟨hC, fun v hv => hresults v (hsub v hv), ?_, ?_, fun hl => ?_⟩
        · rw [← hnodes, hcontents, Multiset.map_cons] at hnodup
          exact (Multiset.nodup_cons.mp hnodup).2
        · rw [hcontents, Multiset.card_cons] at hcard
          show s.count + 1 - 1 = (H.contents W').card
          omega
        · have := h.nonempty hl
          show s.count + 1 - 1 ≠ 0
          omega
      · refine ⟨hC, ?_, ?_, hcard.symm, fun _ => Nat.succ_ne_zero _⟩
        · exact fun v hv => hresults v (hnodes ▸ hv)
        · rw [← hnodes] at hnodup
          exact hnodup
    · exact ⟨hC, h.results, h.nodup, h.count, h.nonempty⟩
  · exact h

/-- Draining gives the results. -/
theorem coe_drain (n : Nat) (W : H.Heap (cmpMax (ν := ν) (D := D)))
    (hn : n = (H.contents W).card) : (drain n W : Multiset (ν × D)) = H.contents W := by
  induction n generalizing W with
  | zero =>
    rw [Multiset.card_eq_zero.mp hn.symm]
    rfl
  | succ n ih =>
    have hne : H.contents W ≠ 0 := by
      intro h0
      rw [h0] at hn
      cases hn
    obtain ⟨x, W', hrem⟩ := PairingHeap.exists_removeFirst hne
    have hcontents := H.removeFirst_some hrem
    rw [hcontents, Multiset.card_cons] at hn
    rw [drain, hrem, hcontents, ← ih W' (by omega), Multiset.cons_coe]
    exact Multiset.coe_eq_coe.mpr (List.perm_append_singleton _ _)

/-! ### Rules -/

variable {I : Type} {𝒟 : Discipline I σ} {i : I}

/-- Some nodes have a property. -/
def Known (P : ν → σ → Prop) (X : ν → Prop) (s : σ) : Prop := ∀ v, X v → P v s

theorem Stable.known {P : ν → σ → Prop} (hP : ∀ v, Stable 𝒟 i (P v)) (X : ν → Prop) :
    Stable 𝒟 i (Known P X) := .all fun v => .imp (hP v)

/-- Reading a distance keeps what is known. -/
def DistanceOk (𝒟 : Discipline I σ) (i : I) (P : ν → σ → Prop) (distance : ν → Prog σ D) : Prop :=
  ∀ X v, X v → Triple 𝒟 i (Known P X) (distance v) fun _ => Known P X

/-- Reading the neighbors of a node keeps what is known and gives nodes with the
property. -/
def NeighborsOk (𝒟 : Discipline I σ) (i : I) (P : ν → σ → Prop)
    (neighbors : ν → Prog σ (List ν)) : Prop :=
  ∀ X v, X v → Triple 𝒟 i (Known P X) (neighbors v) fun us => Known P fun u => X u ∨ u ∈ us

section Greedy
variable {P : ν → σ → Prop} {distance : ν → Prog σ D}

theorem greedyRound_ok {neighbors : ν → Prog σ (List ν)} (hP : ∀ v, Stable 𝒟 i (P v))
    (hd : DistanceOk 𝒟 i P distance) (hn : NeighborsOk 𝒟 i P neighbors) (cur : ν) :
    Triple 𝒟 i (P cur) (greedyRound distance neighbors cur) fun c => P c.1 := by
  have hcur : Triple 𝒟 i (P cur) (distance cur) fun _ => Known P (· = cur) :=
    (hd (· = cur) cur rfl).weaken fun s _ h v hv => hv ▸ h
  refine .bind hcur fun d => .bind (hn (· = cur) cur rfl) fun us => ?_
  -- the cursor and the neighbors still to come are known
  refine Triple.weaken (Triple.consequence (Triple.foldlM
    (J := fun us c => Known P fun v => v = c.1 ∨ v ∈ us) ?_ ?_ _ us) ?_) ?_
  · exact fun c => .known hP _
  · intro c u us
    refine .bind (hd _ u (.inr (by simp))) fun nd => .pure (.known hP _) fun s _ h v hv => ?_
    apply h
    split at hv
    · obtain rfl | hv := hv
      · exact .inr (by simp)
      · exact .inr (List.mem_cons_of_mem u hv)
    · exact hv.imp_right (List.mem_cons_of_mem u)
  · exact fun c s h => h c.1 (.inl rfl)
  · exact fun s _ h => h

theorem greedyLayer_ok {neighbors : ν → Prog σ (List ν)} (hP : ∀ v, Stable 𝒟 i (P v))
    (hd : DistanceOk 𝒟 i P distance) (hn : NeighborsOk 𝒟 i P neighbors) (fuel : Nat) (cur : ν) :
    Triple 𝒟 i (P cur) (greedyLayer distance neighbors fuel cur) fun c => P c := by
  induction fuel generalizing cur with
  | zero => exact .diverge
  | succ fuel ih =>
    refine .bind (greedyRound_ok hP hd hn cur) fun c => ?_
    dsimp only
    split
    · exact ih c.1
    · exact .pure (hP _) fun _ _ h => h

/-- **The descent.** From a node of layer `lc` it ends on a node of the lowest
layer it reaches. -/
theorem greedyDescend_ok {P : Nat → ν → σ → Prop} {neighbors : Nat → ν → Prog σ (List ν)}
    (hP : ∀ lc v, Stable 𝒟 i (P lc v)) (hd : ∀ lc, DistanceOk 𝒟 i (P lc) distance)
    (hn : ∀ lc, NeighborsOk 𝒟 i (P lc) (neighbors lc))
    (hmono : ∀ lc v s, P (lc + 1) v s → P lc v s) (fuel target lc : Nat) (cur : ν)
    (hlc : target ≤ lc) : Triple 𝒟 i (P lc cur) (greedyDescend distance neighbors fuel target lc cur)
      fun c => P target c := by
  induction lc generalizing cur with
  | zero =>
    obtain rfl := Nat.le_zero.mp hlc
    exact .pure (hP 0 cur) fun _ _ h => h
  | succ lc ih =>
    rw [greedyDescend]
    split
    · refine .bind (greedyLayer_ok (hP _) (hd _) (hn _) fuel cur) fun c => ?_
      exact (ih c (by omega)).weaken fun s _ h => hmono lc c s h
    · obtain rfl : target = lc + 1 := by omega
      exact .pure (hP _ cur) fun _ _ h => h

end Greedy

section Beam
variable [DecidableEq ν] {P : ν → σ → Prop} {w : Walk σ ν D} {l : Limits}

/-- What the reads of a beam search keep, and that they stay among nodes with the
property. -/
structure Walk.Ok (𝒟 : Discipline I σ) (i : I) (P : ν → σ → Prop) (w : Walk σ ν D) (l : Limits) :
    Prop where
  stable : ∀ v, Stable 𝒟 i (P v)
  seed : ∀ v, Triple 𝒟 i (P v) (w.seed v) fun r s =>
    (l.restricted = false → r.2 = true) ∧ P v s
  admits : ∀ X v, X v → Triple 𝒟 i (Known P X) (w.admits v) fun _ => Known P X
  probe : ∀ X v, X v → Triple 𝒟 i (Known P X) (w.probe v) fun _ => Known P X
  expand : ∀ X v, X v → Triple 𝒟 i (Known P X) (w.expand v) fun r =>
    Known P fun u => X u ∨ ∃ us, r = some us ∧ u ∈ us

/-- One neighbor keeps the beam in order; the others are still known. -/
theorem visitNeighbor_ok (hw : w.Ok 𝒟 i P l) (X : ν → Prop) (s : Beam H ν D) (u : ν)
    (us : List ν) :
    Triple 𝒟 i (fun t => s.Ok l ∧ Known P (fun v => X v ∨ v ∈ s.visited ∨ v ∈ u :: us) t)
      (visitNeighbor w l s u)
      fun s' t => s'.Ok l ∧ Known P (fun v => X v ∨ v ∈ s'.visited ∨ v ∈ us) t := by
  have hdone : ∀ (s' : Beam H ν D), Stable 𝒟 i fun t =>
      s'.Ok l ∧ Known P (fun v => X v ∨ v ∈ s'.visited ∨ v ∈ us) t :=
    fun s' => .and (.const _) (.known hw.stable _)
  have hsame : ∀ t, Known P (fun v => X v ∨ v ∈ s.visited ∨ v ∈ u :: us) t →
      Known P (fun v => X v ∨ v ∈ s.visited ∨ v ∈ us) t := fun t h v hv =>
    h v (hv.imp_right fun hv => hv.imp_right (List.mem_cons_of_mem u))
  refine .assume fun hs => ?_
  unfold visitNeighbor
  split
  · exact .pure (hdone s) fun t _ h => ⟨hs, hsame t h⟩
  · rename_i hnew
    refine .bind (hw.admits _ u (.inr (.inr (by simp)))) fun admitted => ?_
    dsimp only
    split
    · exact .pure (hdone s) fun t _ h => ⟨hs, hsame t h⟩
    · refine .bind (hw.probe _ u (.inr (.inr (by simp)))) fun found => ?_
      have hknown : ∀ t, Known P (fun v => X v ∨ v ∈ s.visited ∨ v ∈ u :: us) t →
          Known P (fun v => X v ∨ v ∈ u :: s.visited ∨ v ∈ us) t := by
        intro t h v hv
        apply h
        obtain hv | hv | hv := hv
        · exact .inl hv
        · obtain rfl | hv := List.mem_cons.mp hv
          · exact .inr (.inr (by simp))
          · exact .inr (.inl hv)
        · exact .inr (.inr (List.mem_cons_of_mem u hv))
      cases found with
      | none => exact .pure (hdone _) fun t _ h => ⟨hs.mark u, hknown t h⟩
      | some r =>
        refine .pure (hdone _) fun t _ h => ⟨?_, ?_⟩
        · exact (hs.mark u).offer (by simp) (fun hu => hnew (hs.results u hu)) _ _
        · rw [Beam.visited_offer]
          exact hknown t h

/-- All neighbors of a node. -/
theorem visitNeighbors_ok (hw : w.Ok 𝒟 i P l) (X : ν → Prop) (s : Beam H ν D) (us : List ν) :
    Triple 𝒟 i (fun t => s.Ok l ∧ Known P (fun v => X v ∨ v ∈ s.visited ∨ v ∈ us) t)
      (us.foldlM (visitNeighbor w l) s)
      fun s' t => s'.Ok l ∧ Known P (fun v => X v ∨ v ∈ s'.visited) t := by
  have hdone : ∀ s' : Beam H ν D, Stable 𝒟 i fun t =>
      s'.Ok l ∧ Known P (fun v => X v ∨ v ∈ s'.visited ∨ v ∈ []) t :=
    fun _ => .and (.const _) (.known hw.stable _)
  have hloop := Triple.foldlM
    (J := fun us (s' : Beam H ν D) t =>
      s'.Ok l ∧ Known P (fun v => X v ∨ v ∈ s'.visited ∨ v ∈ us) t)
    hdone (visitNeighbor_ok hw X) s us
  exact hloop.consequence fun _ _ h => ⟨h.1, fun v hv => h.2 v (hv.imp_right .inl)⟩

theorem beamLoop_ok (hw : w.Ok 𝒟 i P l) (X : ν → Prop) (fuel : Nat) (s : Beam H ν D) :
    Triple 𝒟 i (fun t => s.Ok l ∧ Known P (fun v => X v ∨ v ∈ s.visited) t) (beamLoop w l fuel s)
      fun s' t => s'.Ok l ∧ Known P (fun v => X v ∨ v ∈ s'.visited) t := by
  induction fuel generalizing s with
  | zero => exact .diverge
  | succ fuel ih =>
    refine .assume fun hs => ?_
    have hdone : ∀ (s' : Beam H ν D), s'.Ok l →
        Triple 𝒟 i (Known P fun v => X v ∨ v ∈ s'.visited) (.pure s')
        fun s' t => s'.Ok l ∧ Known P (fun v => X v ∨ v ∈ s'.visited) t := fun s' hs' =>
      .pure (.and (.const _) (.known hw.stable _)) fun _ _ h => ⟨hs', h⟩
    rw [beamLoop]
    split
    · exact hdone s hs
    · rename_i c C hrem
      have hcontents := H.removeFirst_some hrem
      have hC : ({ s with C := C } : Beam H ν D).Ok l :=
        ⟨fun x hx => hs.candidates x (by rw [hcontents]; exact Multiset.mem_cons_of_mem hx),
          hs.results, hs.nodup, hs.count, hs.nonempty⟩
      dsimp only
      split
      · exact hdone { s with C := C } hC
      · split
        · exact hdone { s with C := C } hC
        · have hc : c.1 ∈ s.visited := hs.candidates c (by rw [hcontents]; simp)
          have hC' : ({ s with C := C, expansions := s.expansions + 1 } : Beam H ν D).Ok l :=
            ⟨hC.candidates, hC.results, hC.nodup, hC.count, hC.nonempty⟩
          refine .bind (hw.expand (fun v => X v ∨ v ∈ s.visited) c.1 (.inr hc)) fun found => ?_
          cases found with
          | none => exact (ih _).weaken fun t _ h => ⟨hC', fun v hv => h v (.inl hv)⟩
          | some us =>
            refine .bind ((visitNeighbors_ok hw X _ us).weaken fun t _ h => ⟨hC', ?_⟩) ih
            intro v hv
            obtain hv | hv | hv := hv
            · exact h v (.inl (.inl hv))
            · exact h v (.inl (.inr hv))
            · exact h v (.inr ⟨us, rfl, hv⟩)

/-- **The beam search.** Its results are distinct nodes with the property, and at
least one unless it is restricted; the property of its start is kept. -/
theorem beamSearch_ok (hw : w.Ok 𝒟 i P l) (fuel : Nat) (ep : ν) :
    Triple 𝒟 i (P ep) (beamSearch H w l fuel ep) fun cands t =>
      ((cands.map Prod.fst).Nodup ∧ (l.restricted = false → cands ≠ [])) ∧
        P ep t ∧ ∀ c ∈ cands, P c.1 t := by
  refine .bind (hw.seed ep) fun r => .assume fun hr => ?_
  refine .bind ((beamLoop_ok hw (· = ep) fuel (Beam.start ep r.1 r.2)).weaken fun t _ h =>
    ⟨?_, ?_⟩) fun s => ?_
  · exact Beam.Ok.start ep r.1 hr
  · intro v hv
    obtain rfl | hv := hv
    · exact h
    · rw [List.mem_singleton.mp hv]
      exact h
  · refine .assume fun hs => ?_
    have hdrain := coe_drain s.count s.W hs.count
    have hnodes : ((drain s.count s.W).map Prod.fst : Multiset ν) = s.nodes := by
      rw [Beam.nodes, ← hdrain, Multiset.map_coe]
    refine .pure (.and (.const _) (.and (hw.stable ep) (.all fun c => .imp (hw.stable c.1))))
      fun t _ h => ⟨⟨?_, fun hl hnil => ?_⟩, h ep (.inl rfl), fun c hc => h c.1 (.inr
        (hs.results c.1 ?_))⟩
    · rw [← Multiset.coe_nodup, hnodes]
      exact hs.nodup
    · apply hs.nonempty hl
      rw [hs.count, ← hdrain, hnil]
      rfl
    · rw [← hnodes, Multiset.mem_coe]
      exact List.mem_map_of_mem hc

end Beam

end

end PgAcorn.Library
