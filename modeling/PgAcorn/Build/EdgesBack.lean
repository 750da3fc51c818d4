import PgAcorn.Build.Linked

/-! Edges back.

An insert makes its edges back after its own slots are filled, no two of them into one layer of
one node. While they are made (`Publishing`) the graph is linked as far as it goes, and what a
node still lacks is noted (`Noted`). -/
namespace PgAcorn.Build
open Library

section
variable {V D : Type} [CDouble D] {mb : MemBuild V} {dist : V → V → D} {o : MemSettings}
  {g g' g₀ : MemGraph mb} {new : Fin mb.nNodes} {lc : Nat}

/-- The last loop of `acorn_mem_add_reverse_edge` never ends without an occupant. -/
def NeverStray (mb : MemBuild V) (dist : V → V → D) (o : MemSettings) : Prop :=
  o.diversify = true ∨
    ∀ u v : Fin mb.nNodes, CDouble.lt (mb.far dist u v) CDouble.negDblMax = false

/-- An edge back is for slots of a layer of its target. -/
structure EdgeInto (mb : MemBuild V) (lc : Nat) (r : RevEdge mb.nNodes) : Prop where
  level : lc ≤ (mb.nodes r.target).level
  count : 0 < r.slotCount
  low : (mb.layerStart r.target lc : Int) ≤ r.slotBase
  high : r.slotBase + r.slotCount ≤
    ((mb.layerStart r.target lc + t2LayerM lc mb.mEff mb.payloadM : Nat) : Int)

theorem set_eq_putRange {α : Type} {slots : List α} {k : Nat} (h : k < slots.length) (a : α) :
    slots.set k a = putRange slots k [a] := by
  rw [putRange, List.set_eq_take_append_cons_drop, if_pos h, List.append_assoc]
  rfl

/-- An offer to a range overwrites at most one slot. -/
theorem putRange_offer {κ : Type} [DecidableEq κ] (victim : List κ → κ → Option Nat)
    {slots : List (Option κ)} {base count : Nat} {x : κ} (h : base + count ≤ slots.length)
    (hv : ∀ j, victim (occupants ((slots.drop base).take count)) x = some j →
      j < (occupants ((slots.drop base).take count)).length) :
    ∃ k xs, putRange slots base (offer victim ((slots.drop base).take count) x) =
        putRange slots k (xs.map some) ∧ base ≤ k ∧ k + xs.length ≤ base + count ∧
      (xs = [x] ∨ xs = [] ∧ (0 < count → ∃ y, some y ∈ (slots.drop base).take count)) := by
  have hlen : ((slots.drop base).take count).length = count := by
    rw [List.length_take, List.length_drop]
    omega
  unfold offer
  cases hslot : offeredSlot victim ((slots.drop base).take count) x with
  | none =>
    refine ⟨base, [], ?_, le_rfl, Nat.add_le_add_left (Nat.zero_le _) _,
      .inr ⟨rfl, fun hpos => ?_⟩⟩
    · rw [putRange_self h, putRange, List.map_nil, List.append_nil, List.length_nil, Nat.add_zero,
        List.take_append_drop]
    · -- without an empty slot there is an occupant
      unfold offeredSlot at hslot
      split at hslot
      · exact ⟨x, ‹_›⟩
      · have hfull := List.findIdx?_eq_none_iff.mp (Option.or_eq_none_iff.mp hslot).1
        obtain ⟨slot, rest, hcons⟩ := List.exists_cons_of_length_pos (hlen.symm ▸ hpos)
        have hmem : slot ∈ (slots.drop base).take count := by
          rw [hcons]
          exact List.mem_cons_self
        cases slot with
        | none => exact absurd (hfull none hmem) (by simp)
        | some y => exact ⟨y, hmem⟩
  | some j =>
    have hj := offeredSlot_lt hv hslot
    refine ⟨base + j, [x], ?_, Nat.le_add_right _ _, ?_, .inl rfl⟩
    · dsimp only
      rw [← putRange_set hj (by omega), putRange_self h, set_eq_putRange (by omega)]
      rfl
    · rw [List.length_singleton]
      omega

theorem NeverStray.replacedSlot (h : NeverStray mb dist o) (t : Fin mb.nNodes) (part : Option Nat)
    (occ : List (Fin mb.nNodes)) (new : Fin mb.nNodes) :
    mb.replacedSlot dist o.diversify t part occ new ≠ some (-1) := by
  intro hstray
  rcases MemBuild.replacedSlot_eq mb dist o.diversify t part occ new with
    heq | ⟨-, hdiversify, -, hbelow, -⟩
  · rw [heq] at hstray
    obtain ⟨j, -, hj⟩ := Option.map_eq_some_iff.mp hstray
    simp only [Int.ofNat_eq_natCast] at hj
    omega
  · obtain h | h := h
    · rw [h] at hdiversify
      cases hdiversify
    · rw [h t new] at hbelow
      cases hbelow

/-- **An edge back that is made** writes the new node to the layer, or nothing if it has
neighbors. -/
theorem memAddEdge_writes (hstray : NeverStray mb dist o) (g : MemGraph mb) (new : Fin mb.nNodes)
    {r : RevEdge mb.nNodes} (hr : EdgeInto mb lc r) : ∃ g' xs,
    (memAddEdge dist o new r).exec g = some ((), g') ∧ Writes g g' r.target lc xs ∧
    (xs = [] ∨ xs = [new]) ∧ g'.build.neighbors lc r.target ≠ [] := by
  obtain ⟨hl, hcount, hlow, hhigh⟩ := hr
  have hfits := layer_fits g hl
  obtain ⟨target, slotBase, count, part⟩ := r
  obtain ⟨base, rfl⟩ : ∃ base : Nat, slotBase = base :=
    ⟨slotBase.toNat, by dsimp only at hlow; omega⟩
  dsimp only at hl hcount hlow hhigh hfits ⊢
  have hslots : base + count ≤ (g.nbr target).length := by omega
  have hadd := MemBuild.memAddReverseEdge_offer hslots fun _ =>
    hstray.replacedSlot target part (occupants (((g.nbr target).drop base).take count)) new
  have hexec : (memAddEdge dist o new ⟨target, base, count, part⟩).exec g =
      some ((), g.put target _ (length_memAddReverseEdge dist hadd)) := by
    apply Prog.exec_lift
    dsimp only
    rw [if_pos ⟨Int.natCast_nonneg base, hslots⟩]
    split
    · rename_i slots hsome
      obtain rfl := Option.some.inj (hadd.symm.trans hsome)
      rfl
    · rename_i hnone
      rw [Int.toNat_natCast, hadd] at hnone
      cases hnone
  obtain ⟨k, xs, hput, hk, hend, hxs⟩ := putRange_offer (mb.memVictim dist o.diversify target part)
    hslots fun _ => MemBuild.memVictim_lt
  have hw : Writes g (g.put target _ (length_memAddReverseEdge dist hadd)) target lc xs := by
    refine writes_of_putRange k hl (by omega) (by omega) ?_ rfl rfl rfl
    rw [← hput]
    rfl
  refine ⟨_, xs, hexec, hw, hxs.symm.imp_left And.left, ?_⟩
  obtain rfl | ⟨-, hoccupied⟩ := hxs
  · obtain ⟨rest, -, hperm⟩ := hw.layer
    exact List.ne_nil_of_mem
      (hperm.mem_iff.mpr (List.mem_append_left _ (List.mem_singleton_self _)))
  · obtain ⟨y, hy⟩ := hoccupied hcount
    refine hw.nonempty hl (List.ne_nil_of_mem (a := y) ?_)
    rw [neighbors_eq g hl, mem_occupants]
    exact mem_slice hy (by omega) (by omega)

/-- The edges back that are still to be made, each with its layer: they go to nodes before the
new one, into layers it is not in yet, and no two into the same. A node without a neighbor in a
layer that it shares with another has one coming. -/
structure Noted (g : MemGraph mb) (new : Fin mb.nNodes) (noted : List (Nat × RevEdge mb.nNodes)) :
    Prop where
  into : ∀ p ∈ noted, EdgeInto mb p.1 p.2
  before : ∀ p ∈ noted, p.2.target.val < new.val
  level : ∀ p ∈ noted, p.1 ≤ (mb.nodes new).level
  absent : ∀ p ∈ noted, new ∉ g.build.neighbors p.1 p.2.target
  distinct : (noted.map fun p => (p.1, p.2.target)).Nodup
  attached : ∀ {id u : Fin mb.nNodes} {lc : Nat}, id.val < new.val + 1 → u.val < new.val + 1 →
    u ≠ id → lc ≤ (mb.nodes id).level → lc ≤ (mb.nodes u).level →
      g.build.neighbors lc id ≠ [] ∨ (lc, id) ∈ noted.map fun p => (p.1, p.2.target)

/-- The graph while edges back are made to `new`. -/
structure Publishing (g₀ : MemGraph mb) (new : Fin mb.nNodes) (rev : List (RevEdge mb.nNodes))
    (g : MemGraph mb) : Prop where
  linked : ∀ {id : Fin mb.nNodes}, id.val < new.val + 1 → LinkedNode g (new.val + 1) id
  noted : ∃ noted, noted.map Prod.snd = rev ∧ Noted g new noted
  entry : g.entry = g₀.entry
  partEntry : g.partEntry = g₀.partEntry
  pushed : g.pushed = g₀.pushed

/-- **One edge back**, and the rest is still to be made. -/
theorem publishing_step (hstray : NeverStray mb dist o) (r : RevEdge mb.nNodes)
    (rev : List (RevEdge mb.nNodes)) :
    Prog.Ends (Publishing g₀ new (r :: rev)) (fun _ => memAddEdge dist o new r)
      fun _ => Publishing g₀ new rev := by
  apply Prog.Ends.of_exec
  intro g hg
  obtain ⟨noted, hmap, hnoted⟩ := hg.noted
  cases noted with
  | nil => cases hmap
  | cons p noted =>
    obtain ⟨lc, r'⟩ := p
    obtain ⟨rfl, hrest⟩ := List.cons.inj hmap
    have hinto : EdgeInto mb lc r' := hnoted.into _ List.mem_cons_self
    have hbefore := hnoted.before _ List.mem_cons_self
    have habsent := hnoted.absent _ List.mem_cons_self
    obtain ⟨hfirst, hdistinct⟩ := List.nodup_cons.mp hnoted.distinct
    obtain ⟨g', xs, hexec, hw, hxs, hdone⟩ := memAddEdge_writes hstray g new hinto
    have hmem : ∀ x ∈ xs, x = new := by
      rintro x hx
      obtain rfl | rfl := hxs
      · cases hx
      · exact List.mem_singleton.mp hx
    refine ⟨(), g', hexec, fun hid => ?_, ⟨noted, hrest, ?_⟩, hw.entry.trans hg.entry,
      hw.partEntry.trans hg.partEntry, hw.pushed.trans hg.pushed⟩
    · refine (hg.linked hid).writes hw (fun x hx => ?_) ?_ fun x hx => ?_
      · obtain rfl := hmem x hx
        exact ⟨Nat.lt_succ_self _, fun h => by rw [h] at hbefore; exact lt_irrefl _ hbefore,
          hnoted.level _ List.mem_cons_self⟩
      · obtain rfl | rfl := hxs
        · exact List.nodup_nil
        · exact List.nodup_singleton _
      · rw [hmem x hx]
        exact habsent
    · refine ⟨fun p hp => hnoted.into p (List.mem_cons_of_mem _ hp),
        fun p hp => hnoted.before p (List.mem_cons_of_mem _ hp),
        fun p hp => hnoted.level p (List.mem_cons_of_mem _ hp), fun p hp => ?_, hdistinct,
        fun {id u lc'} hid hu hne hl hl' => ?_⟩
      · rw [hw.neighbors (hnoted.into p (List.mem_cons_of_mem _ hp)).level]
        · exact hnoted.absent p (List.mem_cons_of_mem _ hp)
        · intro hsame
          exact hfirst (List.mem_map.mpr ⟨p, hp, hsame⟩)
      · obtain hhas | hcoming := hnoted.attached hid hu hne hl hl'
        · exact .inl (hw.nonempty hl hhas)
        · obtain hsame | hcoming := List.mem_cons.mp hcoming
          · obtain ⟨rfl, rfl⟩ := Prod.mk.inj hsame
            exact .inl hdone
          · exact .inr hcoming

end

end PgAcorn.Build
