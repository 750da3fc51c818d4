import PgAcorn.Library.Sequential
import Mathlib.Data.Set.Finite.Lattice
import Mathlib.Order.WellFounded

/-! The greedy descent of a layered graph.

`LayeredGraph` is what a descent sees: distances, the nodes of each layer and their
neighbors there. `Descent` is the passes it makes, one node and layer after the other,
until the node has no strictly nearer neighbor on the layer; no node is remembered, and
what ends it is that moves only go nearer (`WellFormed.descends`). A program whose reads
answer what the graph says makes these passes (`Descent.answers`), so descents of graphs
that correspond end on corresponding nodes (`Descent.map`). -/
namespace PgAcorn.Library

/-! ### What a program answers -/

namespace Prog
variable {σ α β γ : Type} {S : σ → Prop}

/-- A read that must not be made. -/
theorem exec_read_none {g : σ → Option β} {s : σ} (h : g s = none) : (Prog.read g).exec s = none := by
  simp [Prog.read, Prog.lift, Prog.exec, h]

/-- Run alone from a state with `S`, the program answers `a` and leaves a state with `S`. -/
def Answers (S : σ → Prop) (a : α) (p : Prog σ α) : Prop :=
  ∀ s, S s → ∃ s', p.exec s = some (a, s') ∧ S s'

namespace Answers

theorem pure (a : α) : (Prog.pure a : Prog σ α).Answers S a := fun s hs => ⟨s, rfl, hs⟩

theorem bind {a : α} {b : β} {p : Prog σ α} {g : α → Prog σ β} (hp : p.Answers S a)
    (hg : (g a).Answers S b) : (p.bind g).Answers S b := by
  intro s hs
  obtain ⟨s₁, hexec, hs₁⟩ := hp s hs
  rw [exec_bind, hexec]
  exact hg s₁ hs₁

theorem read {b : β} {g : σ → Option β} (h : ∀ s, S s → g s = some b) :
    (Prog.read g).Answers S b := fun s hs => ⟨s, exec_read (h s hs), hs⟩

theorem foldlM {g : γ → β → Prog σ γ} {r : γ → β → γ} {l : List β}
    (h : ∀ c, ∀ b ∈ l, (g c b).Answers S (r c b)) (c : γ) :
    (l.foldlM g c).Answers S (l.foldl r c) := by
  induction l generalizing c with
  | nil => exact pure c
  | cons b l ih =>
    rw [List.foldlM_cons]
    exact (h c b List.mem_cons_self).bind (ih (fun c b' hb' => h c b' (List.mem_cons_of_mem b hb')) _)

end Answers
end Prog

section
variable {ν ν' D : Type} [CDouble D]

/-! ### One pass -/

/-- The node a pass ends on: the first of the nearest among a node and its neighbors. -/
def nearestOf (distance : ν → D) (cur : ν) (us : List ν) : ν :=
  us.foldl (fun c u => if CDouble.lt (distance u) (distance c) then u else c) cur

/-- A pass ends strictly nearer, or where it started because no neighbor is nearer. -/
theorem nearestOf_cases (distance : ν → D) (cur : ν) (us : List ν) :
    CDouble.lt (distance (nearestOf distance cur us)) (distance cur) = true ∨
      nearestOf distance cur us = cur ∧ ∀ u ∈ us, CDouble.lt (distance u) (distance cur) = false := by
  induction us generalizing cur with
  | nil => exact .inr ⟨rfl, fun u hu => absurd hu List.not_mem_nil⟩
  | cons u us ih =>
    show CDouble.lt (distance (nearestOf distance (if _ then u else cur) us)) _ = true ∨
      nearestOf distance (if _ then u else cur) us = cur ∧ _
    split
    · rename_i hlt
      rcases ih u with hnear | ⟨hsame, -⟩
      · exact .inl (CDouble.trans hnear hlt)
      · rw [hsame]
        exact .inl hlt
    · rename_i hnot
      rcases ih cur with hnear | ⟨hsame, hus⟩
      · exact .inl hnear
      · refine .inr ⟨hsame, fun v hv => ?_⟩
        rcases List.mem_cons.mp hv with rfl | hv
        · exact Bool.eq_false_iff.mpr hnot
        · exact hus v hv

theorem nearestOf_mem (distance : ν → D) (cur : ν) (us : List ν) :
    nearestOf distance cur us ∈ cur :: us := by
  induction us generalizing cur with
  | nil => exact List.mem_cons_self
  | cons u us ih =>
    have hmem := ih (if CDouble.lt (distance u) (distance cur) then u else cur)
    show nearestOf distance (if _ then u else cur) us ∈ _
    revert hmem
    split
    · exact List.mem_cons_of_mem cur
    · intro hmem
      rcases List.mem_cons.mp hmem with h | h
      · rw [h]
        exact List.mem_cons_self
      · exact List.mem_cons_of_mem _ (List.mem_cons_of_mem _ h)

/-- A pass over renamed neighbors. -/
theorem nearestOf_map {distance : ν → D} {distance' : ν' → D} {φ : ν → ν'} (us : List ν) (cur : ν)
    (h : ∀ u ∈ cur :: us, distance' (φ u) = distance u) :
    nearestOf distance' (φ cur) (us.map φ) = φ (nearestOf distance cur us) := by
  induction us generalizing cur with
  | nil => rfl
  | cons u us ih =>
    have hcur := h cur List.mem_cons_self
    have hu := h u (List.mem_cons_of_mem _ List.mem_cons_self)
    show nearestOf distance' (if CDouble.lt (distance' (φ u)) (distance' (φ cur)) then φ u else φ cur)
      (us.map φ) = φ (nearestOf distance (if _ then u else cur) us)
    rw [hcur, hu, ← apply_ite φ]
    refine ih _ fun v hv => h v ?_
    rcases List.mem_cons.mp hv with rfl | hv
    · split
      · exact List.mem_cons_of_mem _ List.mem_cons_self
      · exact List.mem_cons_self
    · exact List.mem_cons_of_mem _ (List.mem_cons_of_mem _ hv)

/-- What a pass carries along: the cursor, its distance and whether it moved. -/
theorem foldl_pass (distance : ν → D) (us : List ν) (cur : ν) (moved : Bool) :
    us.foldl (fun (c : ν × D × Bool) u =>
      if CDouble.lt (distance u) c.2.1 then (u, distance u, true) else c) (cur, distance cur, moved) =
      (nearestOf distance cur us, distance (nearestOf distance cur us),
        moved || CDouble.lt (distance (nearestOf distance cur us)) (distance cur)) := by
  induction us generalizing cur moved with
  | nil =>
    show _ = (cur, distance cur, moved || CDouble.lt (distance cur) (distance cur))
    rw [CDouble.irrefl, Bool.or_false]
    rfl
  | cons u us ih =>
    have hstep : nearestOf distance cur (u :: us) =
        nearestOf distance (if CDouble.lt (distance u) (distance cur) then u else cur) us := rfl
    rw [List.foldl_cons, hstep]
    dsimp only
    split
    · rename_i hlt
      have hnear : CDouble.lt (distance (nearestOf distance u us)) (distance cur) = true := by
        rcases nearestOf_cases distance u us with h | ⟨h, -⟩
        · exact CDouble.trans h hlt
        · rw [h]
          exact hlt
      rw [ih, hnear, Bool.true_or, Bool.or_true]
    · exact ih cur moved

end

/-! ### Layered graphs -/

/-- A graph with layers, as a descent reads it. A node's neighbors on a layer are a range
of its slot array. -/
structure LayeredGraph (ν D : Type) where
  distance : ν → D
  /-- The node exists and has the layer. -/
  On : Nat → ν → Prop
  neighbors : Nat → ν → List ν
  slots : ν → Nat
  start : Nat → ν → Int
  width : Nat → Nat

namespace LayeredGraph
variable {ν ν' D : Type}

/-- The range of a layer lies inside the node's own slots. -/
def Inside (G : LayeredGraph ν D) (lc : Nat) (v : ν) : Prop :=
  0 ≤ G.start lc v ∧ G.start lc v + G.width lc ≤ G.slots v

/-- The neighbors on a layer have the layer, and a node has the layers below its own. -/
structure WellFormed (G : LayeredGraph ν D) : Prop where
  neighbors : ∀ {lc : Nat} {v u : ν}, G.On lc v → u ∈ G.neighbors lc v → G.On lc u
  below : ∀ {lc : Nat} {v : ν}, G.On (lc + 1) v → G.On lc v
  finite : {v | G.On 0 v}.Finite
  inside : ∀ {lc : Nat} {v : ν}, G.On lc v → G.Inside lc v

theorem WellFormed.on_zero {G : LayeredGraph ν D} (hG : G.WellFormed) {lc : Nat} {v : ν}
    (h : G.On lc v) : G.On 0 v := by
  induction lc with
  | zero => exact h
  | succ lc ih => exact ih (hG.below h)

/-- Nodes that correspond are as far away and have corresponding neighbors, in the same order. -/
structure Corresponds (G : LayeredGraph ν D) (G' : LayeredGraph ν' D) (φ : ν → ν') : Prop where
  distance : ∀ {v : ν}, G.On 0 v → G'.distance (φ v) = G.distance v
  neighbors : ∀ {lc : Nat} {v : ν}, G.On lc v → G'.neighbors lc (φ v) = (G.neighbors lc v).map φ

variable [CDouble D]

/-- The node a pass over a layer ends on. -/
def pass (G : LayeredGraph ν D) (lc : Nat) (cur : ν) : ν :=
  nearestOf G.distance cur (G.neighbors lc cur)

/-- A descent to above `target`: the passes it makes, each on a layer at a node, and the
node it ends on. -/
inductive Descent (G : LayeredGraph ν D) (target : Nat) : Nat → ν → List (Nat × ν) → ν → Prop
  | ended {lc : Nat} {cur : ν} (h : lc ≤ target) : Descent G target lc cur [] cur
  | moved {lc : Nat} {cur res : ν} {path : List (Nat × ν)} (h : target < lc)
      (hnear : CDouble.lt (G.distance (G.pass lc cur)) (G.distance cur) = true)
      (hrest : Descent G target lc (G.pass lc cur) path res) :
      Descent G target lc cur ((lc, cur) :: path) res
  | stayed {lc : Nat} {cur res : ν} {path : List (Nat × ν)} (h : target < lc + 1)
      (hnear : CDouble.lt (G.distance (G.pass (lc + 1) cur)) (G.distance cur) = false)
      (hrest : Descent G target lc cur path res) :
      Descent G target (lc + 1) cur ((lc + 1, cur) :: path) res

variable {G : LayeredGraph ν D} {target lc : Nat} {cur res : ν} {path : List (Nat × ν)}

theorem WellFormed.on_pass (hG : G.WellFormed) (h : G.On lc cur) : G.On lc (G.pass lc cur) := by
  rcases List.mem_cons.mp (nearestOf_mem G.distance cur (G.neighbors lc cur)) with hsame | hmem
  · rw [pass, hsame]
    exact h
  · exact hG.neighbors h hmem

/-- Strictly nearer is well-founded on the nodes of a graph. -/
theorem WellFormed.nearer_wf (hG : G.WellFormed) : WellFounded fun t u : {v | G.On 0 v} =>
    CDouble.lt (G.distance t) (G.distance u) = true := by
  have : Finite {v | G.On 0 v} := hG.finite
  have : IsTrans {v | G.On 0 v} fun t u => CDouble.lt (G.distance t) (G.distance u) = true :=
    ⟨fun _ _ _ => CDouble.trans⟩
  have : Std.Irrefl fun t u : {v | G.On 0 v} => CDouble.lt (G.distance t) (G.distance u) = true :=
    ⟨fun t h => by rw [CDouble.irrefl] at h; cases h⟩
  exact Finite.wellFounded_of_trans_of_irrefl _

/-- **Every descent ends**: on a layer by the distances, from layer to layer downwards. -/
theorem WellFormed.descends (hG : G.WellFormed) (target : Nat) (hcur : G.On lc cur) :
    ∃ path res, G.Descent target lc cur path res := by
  induction lc generalizing cur with
  | zero => exact ⟨[], cur, .ended (Nat.zero_le target)⟩
  | succ lc ih =>
    by_cases hlt : target < lc + 1
    · generalize hu : (⟨cur, hG.on_zero hcur⟩ : {v | G.On 0 v}) = u
      induction u using hG.nearer_wf.induction generalizing cur with
      | _ u ihu =>
        cases hnear : CDouble.lt (G.distance (G.pass (lc + 1) cur)) (G.distance cur) with
        | true =>
          have hon := hG.on_pass hcur
          obtain ⟨path, res, hrest⟩ := ihu ⟨_, hG.on_zero hon⟩ (by rw [← hu]; exact hnear) hon rfl
          exact ⟨_, res, .moved hlt hnear hrest⟩
        | false =>
          obtain ⟨path, res, hrest⟩ := ih (hG.below hcur)
          exact ⟨_, res, .stayed hlt hnear hrest⟩
    · exact ⟨[], cur, .ended (by omega)⟩

namespace Descent

/-- Every pass is made at a node of the layer. -/
theorem on (h : G.Descent target lc cur path res) (hG : G.WellFormed) (hcur : G.On lc cur) :
    ∀ p ∈ path, G.On p.1 p.2 := by
  induction h with
  | ended => exact fun p hp => absurd hp List.not_mem_nil
  | moved _ _ _ ih => exact List.forall_mem_cons.mpr ⟨hcur, ih (hG.on_pass hcur)⟩
  | stayed _ _ _ ih => exact List.forall_mem_cons.mpr ⟨hcur, ih (hG.below hcur)⟩

theorem on_result (h : G.Descent target lc cur path res) (hG : G.WellFormed) (hcur : G.On lc cur) :
    G.On 0 res := by
  induction h with
  | ended => exact hG.on_zero hcur
  | moved _ _ _ ih => exact ih (hG.on_pass hcur)
  | stayed _ _ _ ih => exact ih (hG.below hcur)

/-- It ends on a node of the last layer. -/
theorem on_target (h : G.Descent target lc cur path res) (hG : G.WellFormed) (hcur : G.On lc cur)
    (hle : target ≤ lc) : G.On target res := by
  induction h with
  | ended hlc =>
    rw [Nat.le_antisymm hle hlc]
    exact hcur
  | moved _ _ _ ih => exact ih (hG.on_pass hcur) hle
  | stayed hlt _ _ ih => exact ih (hG.below hcur) (Nat.le_of_lt_succ hlt)

/-- A later node is the same or strictly nearer. -/
def Closer (G : LayeredGraph ν D) (v u : ν) : Prop :=
  u = v ∨ CDouble.lt (G.distance u) (G.distance v) = true

theorem Closer.trans {v u w : ν} (h : Closer G v u) (h' : Closer G u w) : Closer G v w := by
  rcases h' with rfl | h'
  · exact h
  · rcases h with rfl | h
    · exact .inr h'
    · exact .inr (CDouble.trans h' h)

/-- From pass to pass the distance never increases. -/
theorem closer (h : G.Descent target lc cur path res) :
    (∀ u ∈ path.map Prod.snd ++ [res], Closer G cur u) ∧
      (path.map Prod.snd ++ [res]).Pairwise (Closer G) := by
  induction h with
  | ended => exact ⟨fun u hu => .inl (List.mem_singleton.mp hu), List.pairwise_singleton _ _⟩
  | moved _ hnear _ ih =>
    have hall := fun u hu => Closer.trans (.inr hnear) (ih.1 u hu)
    exact ⟨List.forall_mem_cons.mpr ⟨.inl rfl, hall⟩, List.pairwise_cons.mpr ⟨hall, ih.2⟩⟩
  | stayed _ _ _ ih =>
    exact ⟨List.forall_mem_cons.mpr ⟨.inl rfl, ih.1⟩, List.pairwise_cons.mpr ih⟩

/-- **A descent ends on a local minimum** of the last layer it searched. -/
theorem local_minimum (h : G.Descent target lc cur path res) (hlt : target < lc) :
    ∀ u ∈ G.neighbors (target + 1) res, CDouble.lt (G.distance u) (G.distance res) = false := by
  induction h with
  | ended hle => exact absurd hlt (by omega)
  | moved _ _ _ ih => exact ih hlt
  | @stayed lc cur res path _ hnear hrest ih =>
    rcases Nat.lt_or_ge target lc with hlower | hlast
    · exact ih hlower
    · -- the last layer: nothing is searched after this pass
      obtain rfl : lc = target := by omega
      obtain rfl : res = cur := by
        cases hrest with
        | ended => rfl
        | moved h => exact absurd h (by omega)
        | stayed h => exact absurd h (by omega)
      rcases nearestOf_cases G.distance res (G.neighbors (lc + 1) res) with h | h
      · rw [pass, h] at hnear
        cases hnear
      · exact h.2

/-- **Descents of corresponding graphs** make corresponding passes. -/
theorem map {G' : LayeredGraph ν' D} {φ : ν → ν'} (h : G.Descent target lc cur path res)
    (hG : G.WellFormed) (hφ : G.Corresponds G' φ) (hcur : G.On lc cur) :
    G'.Descent target lc (φ cur) (path.map fun p => (p.1, φ p.2)) (φ res) := by
  have hpass : ∀ {lc : Nat} {cur : ν}, G.On lc cur → G'.pass lc (φ cur) = φ (G.pass lc cur) := by
    intro lc cur hcur
    rw [pass, hφ.neighbors hcur]
    refine nearestOf_map _ cur fun u hu => hφ.distance ?_
    rcases List.mem_cons.mp hu with rfl | hu
    · exact hG.on_zero hcur
    · exact hG.on_zero (hG.neighbors hcur hu)
  induction h with
  | ended hle => exact .ended hle
  | moved hlt hnear _ ih =>
    have hon := hG.on_pass hcur
    refine .moved hlt ?_ ?_
    · rw [hpass hcur, hφ.distance (hG.on_zero hon), hφ.distance (hG.on_zero hcur)]
      exact hnear
    · rw [hpass hcur]
      exact ih hon
  | stayed hlt hnear _ ih =>
    refine .stayed hlt ?_ (ih (hG.below hcur))
    rw [hpass hcur, hφ.distance (hG.on_zero (hG.on_pass hcur)), hφ.distance (hG.on_zero hcur)]
    exact hnear

/-- A descent is determined by where it starts. -/
theorem unique {path' : List (Nat × ν)} {res' : ν} (h : G.Descent target lc cur path res)
    (h' : G.Descent target lc cur path' res') : res' = res := by
  induction h generalizing path' with
  | ended hle =>
    cases h' with
    | ended => rfl
    | moved h | stayed h => exact absurd h (by omega)
  | moved hlt hnear _ ih =>
    cases h' with
    | ended h => exact absurd h (by omega)
    | moved _ _ hrest => exact ih hrest
    | stayed _ h => exact absurd (h.symm.trans hnear) (by simp)
  | stayed hlt hnear _ ih =>
    cases h' with
    | ended h => exact absurd h (by omega)
    | moved _ h => exact absurd (hnear.symm.trans h) (by simp)
    | stayed _ _ hrest => exact ih hrest

end Descent

/-! ### Programs that descend -/

section
variable {σ : Type} {S : σ → Prop} {distance : ν → Prog σ D} {neighbors : Nat → ν → Prog σ (List ν)}

/-- The reads of a descent answer what the graph says. -/
structure Reads (G : LayeredGraph ν D) (S : σ → Prop) (distance : ν → Prog σ D)
    (neighbors : Nat → ν → Prog σ (List ν)) : Prop where
  distance : ∀ {v : ν}, G.On 0 v → (distance v).Answers S (G.distance v)
  neighbors : ∀ {lc : Nat} {v : ν}, G.On lc v → (neighbors lc v).Answers S (G.neighbors lc v)

/-- One pass answers the node it ends on, with whether that is another one. -/
theorem Reads.round (hr : G.Reads S distance neighbors) (hG : G.WellFormed) (hcur : G.On lc cur) :
    (greedyRound distance (neighbors lc) cur).Answers S (G.pass lc cur, G.distance (G.pass lc cur),
      CDouble.lt (G.distance (G.pass lc cur)) (G.distance cur)) := by
  refine (hr.distance (hG.on_zero hcur)).bind ((hr.neighbors hcur).bind ?_)
  have hpass := foldl_pass G.distance (G.neighbors lc cur) cur false
  rw [Bool.false_or] at hpass
  show Prog.Answers S (nearestOf G.distance cur (G.neighbors lc cur), _, _) _
  unfold pass
  rw [← hpass]
  refine .foldlM (fun c u hu => ?_) _
  exact (hr.distance (hG.on_zero (hG.neighbors hcur hu))).bind (.pure _)

/-- The rest of a descent that has `n` passes left on the layer it is on. -/
def descendFrom (distance : ν → Prog σ D) (neighbors : Nat → ν → Prog σ (List ν)) (fuel target n : Nat) :
    Nat → ν → Prog σ ν
  | 0, cur => .pure cur
  | lc + 1, cur =>
    if target < lc + 1 then
      (greedyLayer distance (neighbors (lc + 1)) n cur).bind (greedyDescend distance neighbors fuel target lc)
    else .pure cur

theorem greedyDescend_eq_from (fuel target lc : Nat) (cur : ν) :
    greedyDescend distance neighbors fuel target lc cur =
      descendFrom distance neighbors fuel target fuel lc cur := by
  cases lc <;> rfl

/-- **A program makes the passes** of the graph its reads answer, given as much fuel. -/
theorem Descent.answers (h : G.Descent target lc cur path res) (hr : G.Reads S distance neighbors)
    (hG : G.WellFormed) (hcur : G.On lc cur) {fuel : Nat} (hfuel : path.length ≤ fuel) :
    (greedyDescend distance neighbors fuel target lc cur).Answers S res := by
  suffices hfrom : ∀ n ≥ path.length,
      (descendFrom distance neighbors fuel target n lc cur).Answers S res by
    rw [greedyDescend_eq_from]
    exact hfrom fuel hfuel
  induction h with
  | @ended lc cur hle =>
    intro n _
    cases lc with
    | zero => exact .pure cur
    | succ lc =>
      rw [descendFrom, if_neg (by omega)]
      exact .pure cur
  | @moved lc cur res path hlt hnear _ ih =>
    intro n hn
    obtain ⟨k, rfl⟩ : ∃ k, n = k + 1 := ⟨n - 1, by rw [List.length_cons] at hn; omega⟩
    have hround := hr.round hG hcur
    rw [hnear] at hround
    have hrest := ih (hG.on_pass hcur) (by rw [List.length_cons] at hfuel; omega) k
      (by rw [List.length_cons] at hn; omega)
    obtain ⟨lc, rfl⟩ : ∃ k, lc = k + 1 := ⟨lc - 1, by omega⟩
    rw [descendFrom, if_pos hlt] at hrest ⊢
    rw [greedyLayer, Prog.bind_eq, Prog.bind_assoc]
    exact hround.bind hrest
  | @stayed lc cur res path hlt hnear _ ih =>
    intro n hn
    obtain ⟨k, rfl⟩ : ∃ k, n = k + 1 := ⟨n - 1, by rw [List.length_cons] at hn; omega⟩
    have hround := hr.round hG hcur
    rw [hnear] at hround
    have hsame : G.pass (lc + 1) cur = cur := by
      rcases nearestOf_cases G.distance cur (G.neighbors (lc + 1) cur) with h | h
      · exact absurd (hnear.symm.trans h) (by simp)
      · exact h.1
    have hrest := ih (hG.below hcur) (by rw [List.length_cons] at hfuel; omega) fuel
      (by rw [List.length_cons] at hfuel; omega)
    rw [descendFrom, if_pos hlt, greedyLayer, Prog.bind_eq, Prog.bind_assoc]
    refine hround.bind ?_
    rw [hsame]
    rwa [← greedyDescend_eq_from] at hrest

end

/-! ### What a descent owes -/

/-- A descent that is `run` with any amount of fuel: it ends; the ranges it reads lie in the
slots of the nodes it reads them from; the distance never increases; and where it ends, no
neighbor on the last layer searched is strictly nearer. -/
structure Descends (G : LayeredGraph ν D) (target lc : Nat) (ep res : ν) (run : Nat → Option ν) :
    Prop where
  passes : ∃ path, G.Descent target lc ep path res ∧ (∀ fuel ≥ path.length, run fuel = some res) ∧
    (∀ p ∈ path, G.Inside p.1 p.2) ∧ (path.map Prod.snd ++ [res]).Pairwise (Descent.Closer G)
  local_minimum : target < lc →
    ∀ u ∈ G.neighbors (target + 1) res, CDouble.lt (G.distance u) (G.distance res) = false

theorem Descent.descends (h : G.Descent target lc cur path res) (hG : G.WellFormed)
    (hcur : G.On lc cur) {run : Nat → Option ν} (hrun : ∀ fuel ≥ path.length, run fuel = some res) :
    G.Descends target lc cur res run :=
  ⟨⟨path, h, hrun, fun p hp => hG.inside (h.on hG hcur p hp), h.closer.2⟩, h.local_minimum⟩

/-- **A program whose reads answer what a well-formed graph says** descends it. -/
theorem Reads.descends {σ : Type} {S : σ → Prop} {distance : ν → Prog σ D}
    {neighbors : Nat → ν → Prog σ (List ν)} (hr : G.Reads S distance neighbors) (hG : G.WellFormed)
    (target : Nat) (hcur : G.On lc cur) {s : σ} (hs : S s) :
    ∃ res, G.Descends target lc cur res fun fuel =>
      ((greedyDescend distance neighbors fuel target lc cur).exec s).map Prod.fst := by
  obtain ⟨path, res, h⟩ := hG.descends target hcur
  refine ⟨res, h.descends hG hcur fun fuel hfuel => ?_⟩
  obtain ⟨s', hexec, -⟩ := h.answers hr hG hcur hfuel s hs
  rw [hexec]
  rfl

/-- **Descents on corresponding graphs** from corresponding nodes end on corresponding ones. -/
theorem Corresponds.descends {G' : LayeredGraph ν' D} {φ : ν → ν'} (hφ : G.Corresponds G' φ)
    (hG : G.WellFormed) (hep : G.On lc cur) {run : Nat → Option ν} {run' : Nat → Option ν'} {res' : ν'}
    (h : G.Descends target lc cur res run) (h' : G'.Descends target lc (φ cur) res' run') :
    res' = φ res := by
  obtain ⟨path, hpath, -⟩ := h.passes
  obtain ⟨path', hpath', -⟩ := h'.passes
  exact (hpath.map hG hφ hep).unique hpath'

end LayeredGraph

end PgAcorn.Library
