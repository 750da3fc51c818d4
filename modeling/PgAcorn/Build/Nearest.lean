import PgAcorn.Build.ReverseEdge

/-! Reverse edges without diversification, one after another.

A range outside the payload halves keeps the nearest of all it was offered
(`nearestOnly`), in memory and on disk, as long as elements below `-DBL_MAX` come only
while there is room for them. `wrapped_slot` is what happens otherwise: distances of
`-Infinity` leave the search for the furthest occupant without one. -/
namespace PgAcorn.Build
open Library

section
variable {I V Q D : Type} [CDouble D]

/-! ### Runs in memory -/

/-- Edges to `nbr` from one new node after the other, in one range. -/
def MemBuild.memAddReverseEdges (mb : MemBuild V) (dist : V → V → D) (diversify : Bool)
    (nbr : Fin mb.nNodes) (base count : Nat) (part : Option Nat)
    (slots : List (Option (Fin mb.nNodes))) (xs : List (Fin mb.nNodes)) :
    Option (List (Option (Fin mb.nNodes))) :=
  xs.foldlM (mb.memAddReverseEdge dist diversify nbr base count part) slots

/-- Edges that are offers are a run of offers. -/
theorem MemBuild.memAddReverseEdges_offers {mb : MemBuild V} {dist : V → V → D} {diversify : Bool}
    {nbr : Fin mb.nNodes} {base count : Nat} {part : Option Nat}
    {slots : List (Option (Fin mb.nNodes))} (h : base + count ≤ slots.length)
    {xs : List (Fin mb.nNodes)} (hstray : ∀ pre x post, xs = pre ++ x :: post →
      none ∉ offers (mb.memVictim dist diversify nbr part) ((slots.drop base).take count) pre →
        mb.replacedSlot dist diversify nbr part (occupants (offers
          (mb.memVictim dist diversify nbr part) ((slots.drop base).take count) pre)) x ≠ some (-1)) :
    mb.memAddReverseEdges dist diversify nbr base count part slots xs =
      some (putRange slots base
        (offers (mb.memVictim dist diversify nbr part) ((slots.drop base).take count) xs)) := by
  induction xs using List.reverseRecOn with
  | nil => exact congrArg some (putRange_self h).symm
  | append_singleton xs x ih =>
    have hlen : (offers (mb.memVictim dist diversify nbr part) ((slots.drop base).take count)
        xs).length = count := by
      rw [length_offers, List.length_take, List.length_drop]
      omega
    have hfits : base + (offers (mb.memVictim dist diversify nbr part) ((slots.drop base).take count)
        xs).length ≤ slots.length := by rwa [hlen]
    have hrange : ((putRange slots base (offers (mb.memVictim dist diversify nbr part)
        ((slots.drop base).take count) xs)).drop base).take count =
          offers (mb.memVictim dist diversify nbr part) ((slots.drop base).take count) xs := by
      have := drop_take_putRange hfits
      rwa [hlen] at this
    have hprev := ih fun pre y post hsplit => hstray pre y (post ++ [x]) (by simp [hsplit])
    rw [memAddReverseEdges] at hprev
    rw [memAddReverseEdges, List.foldlM_append, hprev, offers_concat]
    show (mb.memAddReverseEdge dist diversify nbr base count part _ x >>= pure) = _
    rw [bind_pure, memAddReverseEdge_offer (by rw [length_putRange hfits]; exact h)
      (by rw [hrange]; exact hstray xs x [] rfl), hrange, putRange_putRange hfits length_offer]

/-! ### Runs on disk -/

/-- Edges to one neighbor from one new element after the other, in one range. -/
def addReverseEdges (oc : Opclass V Q D) (fuel : Nat) (ins : Inserting V)
    (elem : Tid → ElementTuple V) (lc : Nat) (entry : Tid → Option (InlineEntry Q)) (o : Offer)
    (es : List Tid) : Prog (Disk I V Q) Unit :=
  es.forM fun e => addReverseEdgeAtLayer oc fuel { ins with value := (elem e).vec } e lc (entry e) o

variable {oc : Opclass V Q D} {ins : Inserting V} {n : ElementTuple V} {elem : Tid → ElementTuple V}

/-- **Edges on disk are a run of offers**, and change nothing else. -/
theorem addReverseEdges_exec {s : Disk I V Q} {lc base : Nat} {o : Offer} {tids : List Tid}
    {fuel : Nat} {entry : Tid → Option (InlineEntry Q)} (h : HasRange s n ins lc o tids base)
    {es : List Tid} (he : ∀ e ∈ es, s.relation.element e = some (elem e))
    (helem : ∀ t ∈ validTids ((tids.drop base).take o.rangeLen), s.relation.element t = some (elem t))
    (hchain : ∀ e ∈ es, (entry e).isSome = true → ChainEnds s.fixed.2 fuel n.neighbortid) :
    ∃ s' range', (addReverseEdges oc fuel ins elem lc entry o es).exec s = some ((), s') ∧
      s'.fixed = s.fixed ∧
      s'.slotsOf = Function.update s.slotsOf n.neighbortid (some (putRange tids base range')) ∧
      range'.length = o.rangeLen ∧
      range'.map tidSlot = offers (diskVictim oc ins.diversify o.part n elem)
        (((tids.drop base).take o.rangeLen).map tidSlot) es := by
  have hlen : ((tids.drop base).take o.rangeLen).length = o.rangeLen := by
    have := h.fits
    rw [List.length_take, List.length_drop]
    omega
  induction es generalizing s tids with
  | nil =>
    refine ⟨s, (tids.drop base).take o.rangeLen, rfl, rfl, ?_, hlen, rfl⟩
    rw [putRange_self h.fits, ← h.slots, Function.update_eq_self]
  | cons e es ih =>
    have hvalid : e.isValid = true :=
      (Relation.isValid_of_item (Relation.element_some.mp (he e (by simp)))).1
    obtain ⟨s₁, range₁, hexec₁, hfixed₁, hslots₁, hlen₁, hoffer⟩ :=
      @addReverseEdgeAtLayer_exec I V Q D _ oc { ins with value := (elem e).vec } n elem s lc base o
        tids e fuel (entry e) ⟨h.element, h.slots, h.start, h.fits⟩ hvalid helem rfl
        (hchain e (by simp))
    have hrel : ∀ t, s₁.relation.element t = s.relation.element t :=
      fun t => congrFun (congrArg Prod.fst hfixed₁) t
    have hfits : base + range₁.length ≤ tids.length := by
      rw [hlen₁]
      exact h.fits
    have hrange : ((putRange tids base range₁).drop base).take o.rangeLen = range₁ := by
      have := drop_take_putRange hfits
      rwa [hlen₁] at this
    have hnext : HasRange s₁ n ins lc o (putRange tids base range₁) base :=
      ⟨(hrel _).trans h.element, by rw [hslots₁, Function.update_self], h.start,
        by rw [length_putRange hfits]; exact h.fits⟩
    obtain ⟨s', range', hexec, hfixed, hslots, hlen', hoffers⟩ := ih hnext
      (fun e' he' => (hrel e').trans (he e' (List.mem_cons_of_mem e he')))
      (fun t ht => by
        rw [hrange, ← occupants_slots, hoffer] at ht
        obtain rfl | ht := occupants_offer_subset ht
        · exact (hrel t).trans (he t (by simp))
        · rw [occupants_slots] at ht
          exact (hrel t).trans (helem t ht))
      (fun e' he' => hfixed₁ ▸ hchain e' (List.mem_cons_of_mem e he')) (by rw [hrange, hlen₁])
    refine ⟨s', range', ?_, hfixed.trans hfixed₁, ?_, hlen', ?_⟩
    · show ((addReverseEdgeAtLayer oc fuel _ e lc (entry e) o).bind fun _ => _).exec s = _
      rw [Prog.exec_bind, hexec₁]
      exact hexec
    · rw [hslots, hslots₁, Function.update_idem, putRange_putRange hfits (hlen'.trans hlen₁.symm)]
    · rw [hoffers, hrange, hoffer]
      rfl

/-! ### The nearest -/

theorem memVictim_nearest (mb : MemBuild V) (dist : V → V → D) (nbr : Fin mb.nNodes) :
    mb.memVictim dist false nbr none = furthestVictim (mb.far dist nbr) := by
  funext occ new
  rw [MemBuild.memVictim, if_neg Bool.false_ne_true, Option.bind_none, Option.none_or]

theorem diskVictim_nearest (oc : Opclass V Q D) (n : ElementTuple V) (elem : Tid → ElementTuple V) :
    diskVictim oc false none n elem = furthestVictim fun t => oc.dist n.vec (elem t).vec := by
  funext occ e
  rw [diskVictim, fullRangeSlot, Option.bind_none, Option.none_or, inferiorSlot,
    if_neg Bool.false_ne_true, List.map_map]
  rfl

/-- **Without diversification a range keeps the nearest** of its first occupants and all new
elements it is offered, in memory and on disk, as long as elements below `-DBL_MAX` find
room. -/
theorem nearestOnly (mb : MemBuild V) (oc : Opclass V Q D) :
    (∀ (nbr : Fin mb.nNodes) (base count : Nat) (slots : List (Option (Fin mb.nNodes)))
      (start xs : List (Fin mb.nNodes)), base + count ≤ slots.length →
      start = occupants ((slots.drop base).take count) → (start ++ xs).Nodup →
      Comparable (CDouble.negDblMax :: (start ++ xs).map (mb.far oc.dist nbr)) →
      LeavesRoom (mb.far oc.dist nbr) count start xs →
      ∃ after, NearestRun (mb.far oc.dist nbr) count start xs after ∧
        ∀ pre post, xs = pre ++ post →
          mb.memAddReverseEdges oc.dist false nbr base count none slots pre =
            some (putRange slots base (after pre))) ∧
    ∀ (s : Disk I V Q) (ins : Inserting V) (n : ElementTuple V) (elem : Tid → ElementTuple V)
      (lc base : Nat) (o : Offer) (tids start es : List Tid) (fuel : Nat)
      (entry : Tid → Option (InlineEntry Q)), HasRange s n ins lc o tids base →
      ins.diversify = false → o.part = none →
      start = validTids ((tids.drop base).take o.rangeLen) → (start ++ es).Nodup →
      (∀ t ∈ start ++ es, s.relation.element t = some (elem t)) →
      (∀ e ∈ es, (entry e).isSome = true → ChainEnds s.fixed.2 fuel n.neighbortid) →
      Comparable (CDouble.negDblMax :: (start ++ es).map fun t => oc.dist n.vec (elem t).vec) →
      LeavesRoom (fun t => oc.dist n.vec (elem t).vec) o.rangeLen start es →
      ∃ after, NearestRun (fun t => oc.dist n.vec (elem t).vec) o.rangeLen start es after ∧
        ∀ pre post, es = pre ++ post → ∃ s' range',
          (addReverseEdges oc fuel ins elem lc entry o pre).exec s = some ((), s') ∧
          s'.slotsOf = Function.update s.slotsOf n.neighbortid (some (putRange tids base range')) ∧
          range'.map tidSlot = after pre := by
  constructor
  · rintro nbr base count slots _ xs hfits rfl hnodup hcomp hroom
    have hlen : ((slots.drop base).take count).length = count := by
      rw [List.length_take, List.length_drop]
      omega
    have hrun := offers_nearest hnodup hcomp (by rw [hlen]; exact hroom)
    rw [hlen] at hrun
    refine ⟨_, hrun, fun pre post hsplit => ?_⟩
    rw [← memVictim_nearest]
    refine MemBuild.memAddReverseEdges_offers hfits fun pre' x post' hpre hnone hstray => ?_
    -- a full range that holds the nearest leaves the last loop with an occupant
    rw [memVictim_nearest] at hnone hstray
    have hxs : xs = pre' ++ x :: (post' ++ post) := by simp [hsplit, hpre]
    have hclears := (hrun.nearest pre' _ hxs).clears (hrun.length pre') (hroom pre' x _ hxs)
    rcases MemBuild.replacedSlot_eq mb oc.dist false nbr none (occupants (offers
      (furthestVictim (mb.far oc.dist nbr)) ((slots.drop base).take count) pre')) x with
      heq | ⟨-, -, -, hbelow, hall⟩
    · rw [heq] at hstray
      obtain ⟨j, -, hj⟩ := Option.map_eq_some_iff.mp hstray
      simp only [Int.ofNat_eq_natCast] at hj
      omega
    · obtain ⟨y, hy, habove⟩ := hclears hnone hbelow
      exact absurd (habove.symm.trans (hall y hy)) (by simp)
  · rintro s ins n elem lc base o tids _ es fuel entry h hdiversify hpart rfl hnodup helem hchain hcomp
      hroom
    have hlen : (((tids.drop base).take o.rangeLen).map tidSlot).length = o.rangeLen := by
      have := h.fits
      rw [List.length_map, List.length_take, List.length_drop]
      omega
    rw [← occupants_slots] at hnodup hcomp hroom
    have hrun := offers_nearest hnodup hcomp (by rw [hlen]; exact hroom)
    rw [hlen, occupants_slots] at hrun
    refine ⟨_, hrun, fun pre post hsplit => ?_⟩
    obtain ⟨s', range', hexec, -, hslots, -, hoffers⟩ := @addReverseEdges_exec I V Q D _ oc ins n
      elem s lc base o tids fuel entry h pre
      (fun e he => helem e (by simp [hsplit, he])) (fun t ht => helem t (List.mem_append_left _ ht))
      fun e he => hchain e (by simp [hsplit, he])
    rw [hdiversify, hpart, diskVictim_nearest] at hoffers
    exact ⟨s', range', hexec, hslots, hoffers⟩

end

/-- An element on the line, without edges of its own. -/
def lineElement (x : Int) : ElementTuple Int := ⟨0, false, Vector.replicate _ ⟨1, 1⟩, ⟨1, 1⟩, 0, x⟩

/-- Six elements on one page, the first with slots to the next three and an empty one. -/
def lineDisk : Disk Unit Int Unit where
  relation :=
    { metaPage := ⟨1, 2, 1, 2, 0, false, 2⟩
      pages := [⟨.neighbor ⟨[⟨1, 3⟩, ⟨1, 4⟩, ⟨1, 5⟩, Tid.invalid], none⟩ ::
        ([0, 4, 5, -6, 7, -2].map fun x => .element (lineElement x)), 0, 0⟩] }
  history := ⟨[], [], [], [], fun _ _ => []⟩

def lineAt (t : Tid) : ElementTuple Int := (lineDisk.relation.element t).getD (lineElement 0)

/-- Two more elements for the first one: in two slots of memory, and in four on disk, where the
second of them is nearer than what there is. -/
theorem nearestOnly_line :
    (∃ after, NearestRun (fourNodes.far (fun a b : Int => |a - b|) (0 : Fin 4)) 2
      [(1 : Fin 4)] [(2 : Fin 4), (3 : Fin 4)] after) ∧
    ∃ after, NearestRun (fun t => |(0 : Int) - (lineAt t).vec|) 4 [⟨1, 3⟩, ⟨1, 4⟩, ⟨1, 5⟩]
      [⟨1, 6⟩, ⟨1, 7⟩] after := by
  have hroom : ∀ {κ : Type} {d : κ → Int} {count : Nat} {start xs : List κ}, (∀ x, 0 ≤ d x) →
      LeavesRoom d count start xs := by
    intro κ d count start xs hd pre x post _ hlt
    have := hd x
    have hmax : (CDouble.negDblMax : Int) < 0 := by decide +kernel
    have hlt := of_decide_eq_true hlt
    omega
  have h := nearestOnly (I := Unit) (Q := Unit) fourNodes
    ⟨fun a b : Int => |a - b|, fun _ => 8, fun _ => 1, fun _ _ => ()⟩
  obtain ⟨after, hrun, -⟩ := h.1 (0 : Fin 4) 0 2 [some (1 : Fin 4), none, none, none] [(1 : Fin 4)]
    [(2 : Fin 4), (3 : Fin 4)] (by decide) (by decide) (by decide)
    (by unfold Comparable; decide +kernel) (hroom fun x => abs_nonneg _)
  obtain ⟨after', hrun', -⟩ := h.2 lineDisk ⟨2, 2, 4, false, false, 0, 0, 0⟩ (lineElement 0) lineAt 0 0
    ⟨⟨1, 2⟩, 0, 4, none⟩ [⟨1, 3⟩, ⟨1, 4⟩, ⟨1, 5⟩, Tid.invalid] [⟨1, 3⟩, ⟨1, 4⟩, ⟨1, 5⟩]
    [⟨1, 6⟩, ⟨1, 7⟩] 0 (fun _ => none)
    ⟨by decide, by decide, by decide, by decide⟩ rfl rfl (by decide) (by decide) (by decide) (by simp)
    (by unfold Comparable; decide +kernel) (hroom fun x => abs_nonneg _)
  exact ⟨⟨after, hrun⟩, ⟨after', hrun'⟩⟩

/-! ### Below `-DBL_MAX` -/

/-- Minus the product of one-dimensional vectors, in single precision. -/
def negInner (a b : Int) : ExtInt :=
  if 2 ^ 128 ≤ a * b then .negInf else if a * b ≤ -2 ^ 128 then .posInf else .fin (-(a * b))

/-- The slots of the first of eight nodes: two in layer 1, four in layer 0. -/
def longSlots : List (Option (Fin 8)) := [some 1, some 2, some 3, some 4, some 5, some 6]

/-- Long vectors, but for the third node's; the first three nodes have a layer 1. -/
def longVectors : MemBuild Int where
  mEff := 2
  payloadM := 2
  nNodes := 8
  nodes id :=
    if id = 0 then ⟨1, 7, 10 ^ 20, longSlots⟩
    else if id = 1 then ⟨1, 7, 10 ^ 20, List.replicate 6 none⟩
    else if id = 2 then ⟨1, 7, 1, List.replicate 6 none⟩
    else ⟨0, 7, 10 ^ 20, List.replicate 4 none⟩
  slots := by decide

/-- Edges to the first, offered to its slots of layer 0. -/
def longRun (xs : List (Fin 8)) : Option (List (Option (Fin 8))) :=
  longVectors.memAddReverseEdges negInner false (0 : Fin 8) 2 4 none longSlots xs

/-- The occupants of layer 0 are all at `-Infinity`, as is the last node: an edge to it, offered
to the four slots of layer 0, takes a slot of layer 1 from a node at `-10 ^ 20`. -/
theorem wrapped_slot :
    ([3, 4, 5, 6] ++ [(7 : Fin 8)]).Nodup ∧
    Comparable (CDouble.negDblMax :: ([3, 4, 5, 6] ++ [(7 : Fin 8)]).map fun y : Fin 8 =>
      longVectors.far negInner (0 : Fin 8) y) ∧
    longRun [7] = some [some 1, some 7, some 3, some 4, some 5, some 6] ∧
    longVectors.far negInner (0 : Fin 8) (2 : Fin 8) = .fin (-10 ^ 20) ∧
    longVectors.far negInner (0 : Fin 8) (7 : Fin 8) = .negInf ∧
    ¬ ∃ after, NearestRun (fun y : Fin 8 => longVectors.far negInner (0 : Fin 8) y) 4 [3, 4, 5, 6]
        [7] after ∧
      ∀ pre post, [7] = pre ++ post → longRun pre = some (putRange longSlots 2 (after pre)) := by
  have hrun : longRun [7] = some [some 1, some 7, some 3, some 4, some 5, some 6] := by decide +kernel
  refine ⟨by decide, by unfold Comparable; decide +kernel, hrun, by decide +kernel,
    by decide +kernel, ?_⟩
  rintro ⟨after, -, h⟩
  have h := h [7] [] rfl
  rw [hrun] at h
  have hsecond := congrArg (fun slots => slots[1]?) (Option.some.inj h)
  exact absurd (Option.some.inj (Option.some.inj hsecond)) (by decide)

end PgAcorn.Build
