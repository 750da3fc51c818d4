import PgAcorn.Build.Halves
import PgAcorn.Build.Descents
import PgAcorn.Library.Total

/-! Well-formed in-memory graphs, and what a write to the slots of a node does to them.

Every write of an insert, to its own slots or for an edge back, overwrites slots of one layer
of one node (`Writes`). The other layers of that node and all other nodes are as they were, and
a graph stays well formed if the nodes written are in the graph, have the layer and are not
there yet (`LinkedNode.writes`). -/
namespace PgAcorn.Build
open Library

/-! ### Slots that are overwritten -/

section
variable {α : Type} {slots range : List α} {base start width : Nat}

theorem getElem?_putRange_of_mem {i : Nat} (h : base + range.length ≤ slots.length)
    (hi : base ≤ i ∧ i < base + range.length) :
    (putRange slots base range)[i]? = range[i - base]? := by
  have htake : (slots.take base).length = base := by
    rw [List.length_take]
    omega
  rw [putRange, List.append_assoc, List.getElem?_append_right (by omega), htake,
    List.getElem?_append_left (by omega)]

/-- A slice inside another one. -/
theorem mem_slice {count : Nat} {a : α} (h : a ∈ (slots.drop base).take count) (hlow : start ≤ base)
    (hhigh : base + count ≤ start + width) : a ∈ (slots.drop start).take width := by
  obtain ⟨i, hi⟩ := List.mem_iff_getElem?.mp h
  rw [List.getElem?_take] at hi
  split at hi
  · rw [List.getElem?_drop] at hi
    refine List.mem_iff_getElem?.mpr ⟨base - start + i, ?_⟩
    rw [List.getElem?_take_of_lt (by omega), List.getElem?_drop, ← hi]
    congr 1
    omega
  · cases hi

/-- A slice of the slots, with a range of its own overwritten. -/
theorem slice_putRange (hlow : start ≤ base) (hhigh : base + range.length ≤ start + width)
    (hfits : start + width ≤ slots.length) :
    ((putRange slots base range).drop start).take width =
      putRange ((slots.drop start).take width) (base - start) range := by
  obtain ⟨k, rfl⟩ : ∃ k, base = start + k := ⟨base - start, by omega⟩
  have hmid : ((slots.drop start).take width).length = width := by
    rw [List.length_take, List.length_drop]
    omega
  apply List.ext_getElem?
  intro i
  rw [Nat.add_sub_cancel_left, List.getElem?_take]
  by_cases hi : i < width
  · rw [if_pos hi, List.getElem?_drop]
    by_cases hin : k ≤ i ∧ i < k + range.length
    · rw [getElem?_putRange_of_mem (by omega) (by omega),
        getElem?_putRange_of_mem (by rw [hmid]; omega) hin]
      congr 1
      omega
    · rw [getElem?_putRange_of_not (by omega) (by omega),
        getElem?_putRange_of_not (by rw [hmid]; omega) hin, List.getElem?_take_of_lt hi,
        List.getElem?_drop]
  · rw [if_neg hi, List.getElem?_eq_none]
    rw [length_putRange (by rw [hmid]; omega), hmid]
    omega

/-- A slice of the slots, with a range beside it overwritten. -/
theorem slice_putRange_of_disjoint (hfits : base + range.length ≤ slots.length)
    (h : base + range.length ≤ start ∨ start + width ≤ base) :
    ((putRange slots base range).drop start).take width = (slots.drop start).take width := by
  apply List.ext_getElem?
  intro i
  rw [List.getElem?_take, List.getElem?_take]
  split
  · rw [List.getElem?_drop, List.getElem?_drop, getElem?_putRange_of_not hfits (by omega)]
  · rfl

end

section
variable {κ : Type}

/-- What the slots hold with a range overwritten: the new elements and some of the old ones,
and no fewer. -/
theorem occupants_putRange (slots : List (Option κ)) (base : Nat) (xs : List κ) :
    (∃ rest, rest.Sublist (occupants slots) ∧
      (occupants (putRange slots base (xs.map some))).Perm (xs ++ rest)) ∧
      (occupants slots).length ≤ (occupants (putRange slots base (xs.map some))).length := by
  have hsplit : slots = slots.take base ++ ((slots.drop base).take xs.length ++
      slots.drop (base + xs.length)) := by
    rw [← List.drop_drop, List.take_append_drop, List.take_append_drop]
  have hput : occupants (putRange slots base (xs.map some)) = occupants (slots.take base) ++
      (xs ++ occupants (slots.drop (base + xs.length))) := by
    rw [putRange, List.length_map, List.append_assoc, occupants, List.filterMap_append,
      List.filterMap_append]
    exact congrArg (fun ys => _ ++ (ys ++ _)) (occupants_map_some xs)
  have hold : occupants slots = occupants (slots.take base) ++
      (occupants ((slots.drop base).take xs.length) ++
        occupants (slots.drop (base + xs.length))) := by
    conv_lhs => rw [hsplit]
    rw [occupants, List.filterMap_append, List.filterMap_append]
    rfl
  rw [hput, hold]
  refine ⟨⟨occupants (slots.take base) ++ occupants (slots.drop (base + xs.length)),
    (List.Sublist.refl _).append (List.sublist_append_right _ _), ?_⟩, ?_⟩
  · exact List.perm_append_comm_assoc _ _ _
  · have hmid : (occupants ((slots.drop base).take xs.length)).length ≤ xs.length :=
      length_occupants_le.trans (List.length_take_le _ _)
    simp only [List.length_append]
    omega

end

/-! ### Well-formed graphs -/

section
variable {V : Type} {mb : MemBuild V} {g g' : MemGraph mb}

/-- Where a layer of a node starts. -/
def MemBuild.layerStart (mb : MemBuild V) (id : Fin mb.nNodes) (lc : Nat) : Nat :=
  ((mb.nodes id).level - lc) * mb.mEff

/-- The slots of a layer. -/
def MemGraph.layerSlots (g : MemGraph mb) (lc : Nat) (id : Fin mb.nNodes) :
    List (Option (Fin mb.nNodes)) :=
  ((g.nbr id).drop (mb.layerStart id lc)).take (t2LayerM lc mb.mEff mb.payloadM)

/-- The neighbors a node has in its layers: among the first `n` nodes, with the layer, each of
them once, and never the node itself. -/
structure LinkedNode (g : MemGraph mb) (n : Nat) (id : Fin mb.nNodes) : Prop where
  targets : ∀ {lc u}, lc ≤ (mb.nodes id).level → u ∈ g.build.neighbors lc id →
    u.val < n ∧ u ≠ id ∧ lc ≤ (mb.nodes u).level
  nodup : ∀ {lc}, lc ≤ (mb.nodes id).level → (g.build.neighbors lc id).Nodup

/-- The first `n` nodes, linked with each other. -/
structure Joined (g : MemGraph mb) (n : Nat) : Prop where
  linked : ∀ {id : Fin mb.nNodes}, id.val < n → LinkedNode g n id
  /-- A node has a neighbor in every layer it shares with another one. -/
  attached : ∀ {id u : Fin mb.nNodes} {lc : Nat}, id.val < n → u.val < n → u ≠ id →
    lc ≤ (mb.nodes id).level → lc ≤ (mb.nodes u).level → g.build.neighbors lc id ≠ []

/-- The entry points of the first `n` nodes. -/
structure Entries (o : MemSettings) (g : MemGraph mb) (n : Nat) : Prop where
  start : n = 0 → g.entry = none
  /-- The entry point is a node of the highest level. -/
  top : 0 < n → ∃ id : Fin mb.nNodes, id.val < n ∧ g.entry = some (id, (mb.nodes id).level) ∧
    ∀ u : Fin mb.nNodes, u.val < n → (mb.nodes u).level ≤ (mb.nodes id).level
  part : ∀ {part id}, g.partEntry part = some id →
    id.val < n ∧ payloadPartition (mb.nodes id).filterVal = part
  /-- With payload edges every partition that has nodes has an entry point. -/
  all : o.payloadEdges = true → ∀ {id : Fin mb.nNodes}, id.val < n →
    (g.partEntry (payloadPartition (mb.nodes id).filterVal)).isSome = true

/-- The graph as inserts leave it. -/
structure MemGraph.WellFormed (o : MemSettings) (g : MemGraph mb) : Prop where
  room : g.pushed ≤ mb.nNodes
  joined : Joined g g.pushed
  entries : Entries o g g.pushed

/-! ### Writes -/

/-- The nodes `xs` are written over slots of one layer of a node. -/
structure Writes (g g' : MemGraph mb) (id : Fin mb.nNodes) (lc : Nat) (xs : List (Fin mb.nNodes)) :
    Prop where
  others : ∀ u, u ≠ id → g'.nbr u = g.nbr u
  layers : ∀ {lc'}, lc' ≤ (mb.nodes id).level → lc' ≠ lc →
    g'.build.neighbors lc' id = g.build.neighbors lc' id
  layer : ∃ rest, rest.Sublist (g.build.neighbors lc id) ∧
    (g'.build.neighbors lc id).Perm (xs ++ rest)
  length : (g.build.neighbors lc id).length ≤ (g'.build.neighbors lc id).length
  entry : g'.entry = g.entry
  partEntry : g'.partEntry = g.partEntry
  pushed : g'.pushed = g.pushed

variable {id : Fin mb.nNodes} {lc n : Nat} {xs : List (Fin mb.nNodes)}

theorem neighbors_eq (g : MemGraph mb) (hl : lc ≤ (mb.nodes id).level) :
    g.build.neighbors lc id = occupants (g.layerSlots lc id) := by
  unfold MemGraph.layerSlots MemBuild.layerStart
  show (((g.nbr id).drop (hnswNeighborStart mb.mEff (mb.nodes id).level lc).toNat).take _).filterMap
    _ = _
  rw [hnswNeighborStart_eq hl, Int.toNat_natCast]
  rfl

theorem neighbors_congr (h : g'.nbr id = g.nbr id) (lc : Nat) :
    g'.build.neighbors lc id = g.build.neighbors lc id := by
  show (((g'.nbr id).drop _).take _).filterMap _ = (((g.nbr id).drop _).take _).filterMap _
  rw [h]

theorem layer_fits (g : MemGraph mb) (hl : lc ≤ (mb.nodes id).level) :
    mb.layerStart id lc + t2LayerM lc mb.mEff mb.payloadM ≤ (g.nbr id).length := by
  rw [g.slots]
  exact layer_end_le hl mb.mEff mb.payloadM

/-- **A range of a layer overwritten** is a write to the layer. -/
theorem writes_of_putRange (base : Nat) (hl : lc ≤ (mb.nodes id).level)
    (hlow : mb.layerStart id lc ≤ base)
    (hhigh : base + xs.length ≤ mb.layerStart id lc + t2LayerM lc mb.mEff mb.payloadM)
    (hnbr : g'.nbr = Function.update g.nbr id (putRange (g.nbr id) base (xs.map some)))
    (hentry : g'.entry = g.entry) (hpart : g'.partEntry = g.partEntry)
    (hpushed : g'.pushed = g.pushed) : Writes g g' id lc xs := by
  have hfits := layer_fits g hl
  have hself : g'.nbr id = putRange (g.nbr id) base (xs.map some) := by
    rw [hnbr, Function.update_self]
  have hlayer : g'.layerSlots lc id =
      putRange (g.layerSlots lc id) (base - mb.layerStart id lc) (xs.map some) := by
    unfold MemGraph.layerSlots
    rw [hself]
    exact slice_putRange hlow (by rw [List.length_map]; exact hhigh) hfits
  obtain ⟨hrest, hlength⟩ :=
    occupants_putRange (g.layerSlots lc id) (base - mb.layerStart id lc) xs
  refine ⟨fun u hu => ?_, fun hl' hne => ?_, ?_, ?_, hentry, hpart, hpushed⟩
  · rw [hnbr, Function.update_of_ne hu]
  · rw [neighbors_eq g' hl', neighbors_eq g hl', MemGraph.layerSlots, MemGraph.layerSlots, hself,
      slice_putRange_of_disjoint (by rw [List.length_map]; omega)]
    rw [List.length_map]
    unfold MemBuild.layerStart at hlow hhigh ⊢
    obtain hlt | hlt := Nat.lt_or_gt_of_ne hne
    · have := layer_end_le_start hl hlt mb.mEff mb.payloadM
      omega
    · have := layer_end_le_start hl' hlt mb.mEff mb.payloadM
      omega
  · rw [neighbors_eq g' hl, neighbors_eq g hl, hlayer]
    exact hrest
  · rw [neighbors_eq g' hl, neighbors_eq g hl, hlayer]
    exact hlength

/-- The neighbors of any node in any other layer are as they were. -/
theorem Writes.neighbors (h : Writes g g' id lc xs) {u : Fin mb.nNodes} {lc' : Nat}
    (hl : lc' ≤ (mb.nodes u).level) (hne : (lc', u) ≠ (lc, id)) :
    g'.build.neighbors lc' u = g.build.neighbors lc' u := by
  by_cases hu : u = id
  · subst hu
    exact h.layers hl fun hlc => hne (by rw [hlc])
  · exact neighbors_congr (h.others u hu) lc'

/-- What is in the layer now was there or is written. -/
theorem Writes.mem (h : Writes g g' id lc xs) {u : Fin mb.nNodes}
    (hu : u ∈ g'.build.neighbors lc id) : u ∈ xs ∨ u ∈ g.build.neighbors lc id := by
  obtain ⟨rest, hsub, hperm⟩ := h.layer
  exact (List.mem_append.mp (hperm.mem_iff.mp hu)).imp_right (hsub.subset ·)

/-- No layer of any node has fewer neighbors. -/
theorem Writes.nonempty (h : Writes g g' id lc xs) {u : Fin mb.nNodes} {lc' : Nat}
    (hl : lc' ≤ (mb.nodes u).level) (hne : g.build.neighbors lc' u ≠ []) :
    g'.build.neighbors lc' u ≠ [] := by
  by_cases hsame : (lc', u) = (lc, id)
  · cases hsame
    have hlength := h.length
    have hpos := List.length_pos_iff.mpr hne
    exact List.length_pos_iff.mp (hpos.trans_le hlength)
  · rwa [h.neighbors hl hsame]

/-- **Every node stays linked** if what is written is in the graph, has the layer, and is not
there yet. -/
theorem LinkedNode.writes {u : Fin mb.nNodes} (hu : LinkedNode g n u) (h : Writes g g' id lc xs)
    (hxs : ∀ x ∈ xs, x.val < n ∧ x ≠ id ∧ lc ≤ (mb.nodes x).level) (hnodup : xs.Nodup)
    (hnew : ∀ x ∈ xs, x ∉ g.build.neighbors lc id) : LinkedNode g' n u := by
  refine ⟨fun {lc' v} hl hv => ?_, fun {lc'} hl => ?_⟩
  · by_cases hsame : (lc', u) = (lc, id)
    · cases hsame
      exact (h.mem hv).elim (hxs v) (hu.targets hl)
    · rw [h.neighbors hl hsame] at hv
      exact hu.targets hl hv
  · by_cases hsame : (lc', u) = (lc, id)
    · cases hsame
      obtain ⟨rest, hsub, hperm⟩ := h.layer
      refine hperm.nodup_iff.mpr (hnodup.append ((hu.nodup hl).sublist hsub) ?_)
      exact fun x hx hrest => hnew x hx (hsub.subset hrest)
    · rw [h.neighbors hl hsame]
      exact hu.nodup hl

end

end PgAcorn.Build
