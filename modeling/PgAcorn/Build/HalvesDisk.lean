import PgAcorn.Build.Halves
import PgAcorn.Build.Prepare

/-! The two halves of layer 0, on disk.

An edge that `acorn_insert_element` makes stays in the range it is for, and takes the slot of
a stranger before that of a member unless no stranger is above `-DBL_MAX` (`edge_kept`). What
comes before leaves the halves as they are, so this holds of every step of any number of inserts
that have the stride of the index (`diskHalves_kept`). -/
namespace PgAcorn.Build
open Library
open PgAcorn.Filter (Datum)

section
variable {I V Q D : Type} [CDouble D]

/-! ### Halves -/

namespace Disk
variable (s : Disk I V Q)

/-- The slots of an element's neighbor tuple. -/
def elementSlots (n : ElementTuple V) : List Tid := (s.slotsOf n.neighbortid).getD []

/-- The payload half of an element, in the geometry of a meta page. -/
def payloadHalf (G : MetaPage) (t : Tid) : List (Option Tid) :=
  (s.relation.element t).elim [] fun n =>
    (((s.elementSlots n).drop (n.level * G.m + G.m)).take G.payloadWidth).map tidSlot

/-- Elements of one partition. -/
def fellow (t y : Tid) : Bool :=
  match s.relation.element t, s.relation.element y with
  | some n, some e => decide (payloadPartition e.filterVal = payloadPartition n.filterVal)
  | _, _ => false

/-- How far an element is from the one whose slots are updated. -/
def far (oc : Opclass V Q D) (t y : Tid) : D :=
  match s.relation.element t, s.relation.element y with
  | some n, some e => oc.dist n.vec e.vec
  | _, _ => CDouble.negDblMax

end Disk

/-- The payload halves of the elements keep their members. -/
def DiskHalvesKept (G : MetaPage) (s s' : Disk I V Q) : Prop :=
  ∀ t n, s.relation.element t = some n →
    MembersKept (s.fellow t) (s.payloadHalf G t) (s'.payloadHalf G t)

/-- The slots an edge may change: those of an upper layer or the global half, or, of an edge with
a partition, those of the payload half. -/
def Offer.May (G : MetaPage) (lc : Nat) (o : Offer) (n : ElementTuple V) (i : Nat) : Prop :=
  match o.part with
  | none => lc ≤ n.level ∧ (n.level - lc) * G.m ≤ i ∧ i < (n.level - lc) * G.m + G.m
  | some _ => n.level * G.m + G.m ≤ i ∧ i < n.level * G.m + G.m + G.payloadWidth

/-- Only slots of an edge's range have changed. -/
structure DiskStaysInRange (G : MetaPage) (lc : Nat) (o : Offer) (s s' : Disk I V Q) : Prop where
  others : ∀ t n, s.relation.element t = some n → t ≠ o.target →
    s'.elementSlots n = s.elementSlots n
  slots : ∀ n, s.relation.element o.target = some n → ∀ i, ¬ o.May G lc n i →
    (s'.elementSlots n)[i]? = (s.elementSlots n)[i]?

/-- The distances decide about a full payload half: if there are strangers, one of them is above
`-DBL_MAX`. -/
def DiskEdgeMeets (oc : Opclass V Q D) (G : MetaPage) (s : Disk I V Q) (e : Tid) (o : Offer) : Prop :=
  o.part ≠ none → some e ∉ s.payloadHalf G o.target → none ∉ s.payloadHalf G o.target →
    StrangersSeen (s.fellow o.target) (s.far oc o.target) (occupants (s.payloadHalf G o.target))

instance (oc : Opclass V Q D) (G : MetaPage) (s : Disk I V Q) (e : Tid) (o : Offer) :
    Decidable (DiskEdgeMeets oc G s e o) :=
  inferInstanceAs (Decidable (_ → _ → _ → _))

/-! ### An edge that is made -/

variable {oc : Opclass V Q D} {fuel : Nat} {s s' : Disk I V Q}

/-- The inline entry aside, an edge is made with it as without. -/
theorem addReverseEdgeAtLayer_entry {ins : Inserting V} {e : Tid} {lc : Nat}
    {entry : Option (InlineEntry Q)} {o : Offer}
    (h : (addReverseEdgeAtLayer oc fuel ins e lc entry o).exec s = some ((), s')) :
    ∃ s₀, (addReverseEdgeAtLayer oc fuel ins e lc none o).exec s = some ((), s₀) ∧
      s'.fixed = s₀.fixed ∧ s'.slotsOf = s₀.slotsOf := by
  cases entry with
  | none => exact ⟨s', h, rfl, rfl⟩
  | some entry =>
    -- where a slot is written, the entry comes after it
    have hwrite : ∀ {s₁ : Disk I V Q} {w : ReverseEdge} {nbrtid : Tid} {slot off : Nat},
        ((writeSlot lc off w).bind fun _ =>
          if lc = 0 then t2InlineWriteEntry fuel nbrtid slot entry else pure ()).exec s₁ =
            some ((), s') →
        ∃ s₀, ((writeSlot lc off w).bind fun _ => Prog.pure ()).exec s₁ = some ((), s₀) ∧
          s'.fixed = s₀.fixed ∧ s'.slotsOf = s₀.slotsOf := by
      intro s₁ w nbrtid slot off h
      rw [Prog.exec_bind] at h
      obtain ⟨⟨⟨⟩, s₀⟩, hslot, h⟩ := Option.bind_eq_some_iff.mp h
      refine ⟨s₀, by rw [Prog.exec_bind, hslot]; rfl, ?_⟩
      dsimp only at h
      split at h
      · have hkeeps := (t2InlineWriteEntry_keeps_slots fuel nbrtid slot entry).exec h
        exact Prod.mk.inj hkeeps
      · obtain rfl := (Prod.mk.inj (Option.some.inj h)).2
        exact ⟨rfl, rfl⟩
    unfold addReverseEdgeAtLayer at h ⊢
    rw [Prog.bind_eq, Prog.exec_bind] at h ⊢
    obtain ⟨⟨n, s₁⟩, hread, h⟩ := Option.bind_eq_some_iff.mp h
    rw [hread, Option.bind_some]
    rw [Prog.bind_eq, Prog.exec_bind] at h ⊢
    obtain ⟨⟨tids, s₂⟩, hcopy, h⟩ := Option.bind_eq_some_iff.mp h
    rw [hcopy, Option.bind_some]
    dsimp only at h ⊢
    split at h
    · rename_i hmem
      rw [if_pos hmem]
      exact ⟨s', h, rfl, rfl⟩
    · rename_i hmem
      rw [if_neg hmem]
      cases hfree : tids.findIdx? fun t => !t.isValid with
      | some j =>
        rw [hfree] at h
        exact hwrite h
      | none =>
        rw [hfree] at h
        dsimp only at h ⊢
        rw [Prog.bind_eq, Prog.exec_bind] at h ⊢
        obtain ⟨⟨target, s₃⟩, hreplace, h⟩ := Option.bind_eq_some_iff.mp h
        rw [hreplace, Option.bind_some]
        cases target with
        | none => exact ⟨s', h, rfl, rfl⟩
        | some j => exact hwrite h

/-- The policy of a payload half names a member only among members. -/
theorem diskVictim_member {n : ElementTuple V} {elem : Tid → ElementTuple V} {t e y : Tid} {p j : Nat}
    {diversify : Bool} {occ : List Tid} (hn : s.relation.element t = some n)
    (hp : payloadPartition n.filterVal = p)
    (helem : ∀ u ∈ occ, s.relation.element u = some (elem u))
    (hseen : StrangersSeen (s.fellow t) (s.far oc t) occ)
    (hv : diskVictim oc diversify (some p) n elem occ e = some j) (hy : occ[j]? = some y)
    (hmember : s.fellow t y = true) : ∀ z ∈ occ, s.fellow t z = true := by
  have hslot : nonmemberSlot oc.dist n (occ.map elem) p =
      (furthest (occ.map fun y => (!s.fellow t y, s.far oc t y))).1 := by
    rw [nonmemberSlot, List.map_map]
    congr 2
    refine List.map_congr_left fun y hy => ?_
    simp only [Function.comp_apply, Disk.fellow, Disk.far, hn, helem y hy, hp]
  rw [diskVictim, fullRangeSlot, Option.bind_some, hslot] at hv
  exact hseen.first hv hy hmember

variable {G : MetaPage} {k : Linking V Q} {lc : Nat} {o : Offer}

/-- What an edge does to the slots of its target. -/
structure EdgeMade (oc : Opclass V Q D) (k : Linking V Q) (lc : Nat) (o : Offer) (n : ElementTuple V)
    (tids : List Tid) (base : Nat) (s s' : Disk I V Q) (range' : List Tid) : Prop where
  range : HasRange s n k.ins lc o tids base
  fixed : s'.fixed = s.fixed
  slots : s'.slotsOf = Function.update s.slotsOf n.neighbortid (some (putRange tids base range'))
  length : range'.length = o.rangeLen
  offer : range'.map tidSlot = offer (diskVictim oc k.ins.diversify o.part n
      fun t => (s.relation.element t).getD n) (((tids.drop base).take o.rangeLen).map tidSlot) k.e
  /-- The occupants are elements. -/
  occupants : ∀ t ∈ validTids ((tids.drop base).take o.rangeLen),
    s.relation.element t = some ((s.relation.element t).getD n)

/-- **An edge that is known** is an offer to its range. -/
theorem EdgeOk.made (h : EdgeOk G s.relation k lc o) (hs : Sound G s.relation)
    (hexec : (addReverseEdgeAtLayer oc fuel k.ins k.e lc k.entry o).exec s = some ((), s')) :
    ∃ n tids range', EdgeMade oc k lc o n tids ((n.level - lc) * G.m + o.rangeOff) s s' range' := by
  obtain ⟨n, hn, hl⟩ := h.target
  obtain ⟨elem, helem, hvec, -⟩ := h.new
  obtain ⟨tup, htup, hslots⟩ := hs.neighbors hn
  have hwidth : o.rangeOff + o.rangeLen ≤ t2LayerM lc G.m G.payloadWidth := by
    rcases h.range with ⟨-, hoff, hlen⟩ | ⟨rfl, -, hoff, hlen, -⟩
    · rw [hoff, hlen]
      unfold t2LayerM t2L0Width
      split <;> omega
    · rw [hoff, hlen, t2LayerM_zero]
  have hend := layer_end_le hl G.m G.payloadWidth
  have hrange : HasRange s n k.ins lc o tup.tids ((n.level - lc) * G.m + o.rangeOff) := by
    refine ⟨hn, by rw [Disk.slotsOf, htup]; rfl, ?_, by rw [hslots.count]; omega⟩
    rw [hnswNeighborStart_eq hl, h.stride]
    push_cast
    rfl
  have hocc : ∀ t ∈ validTids ((tup.tids.drop ((n.level - lc) * G.m + o.rangeOff)).take o.rangeLen),
      s.relation.element t = some ((s.relation.element t).getD n) := by
    intro t ht
    obtain ⟨hmem, hvalid⟩ := mem_validTids.mp ht
    obtain ⟨-, e', he', -⟩ := hslots.targets hl
      (mem_validTids.mpr ⟨mem_layerSlots_of_range hwidth hmem, hvalid⟩)
    rw [he', Option.getD_some]
  obtain ⟨s₀, hexec₀, hfixed, hslotsOf⟩ := addReverseEdgeAtLayer_entry hexec
  obtain ⟨s₁, range', hexec₁, hfixed₁, hslots₁, hlen, hoffer⟩ :=
    @addReverseEdgeAtLayer_exec I V Q D _ oc k.ins n (fun t => (s.relation.element t).getD n) s lc _ o
      tup.tids k.e fuel none hrange (Relation.isValid_of_item (Relation.element_some.mp helem)).1 hocc
      (by rw [helem, Option.getD_some, hvec]) fun hsome => by cases hsome
  obtain rfl := (Prod.mk.inj (Option.some.inj (hexec₀.symm.trans hexec₁))).2
  exact ⟨n, tup.tids, range', hrange, hfixed.trans hfixed₁, hslotsOf.trans hslots₁, hlen, hoffer, hocc⟩

section
variable {n : ElementTuple V} {tids range' : List Tid}

theorem EdgeMade.elementSlots (h : EdgeMade oc k lc o n tids ((n.level - lc) * G.m + o.rangeOff) s s'
    range') : s.elementSlots n = tids ∧
      s'.elementSlots n = putRange tids ((n.level - lc) * G.m + o.rangeOff) range' := by
  constructor
  · rw [Disk.elementSlots, h.range.slots, Option.getD_some]
  · rw [Disk.elementSlots, h.slots, Function.update_self, Option.getD_some]

/-- The payload half of an element whose slots are known. -/
theorem payloadHalf_eq {t : Tid} (hn : s.relation.element t = some n) : s.payloadHalf G t =
    (((s.elementSlots n).drop (n.level * G.m + G.m)).take G.payloadWidth).map tidSlot := by
  rw [Disk.payloadHalf, hn, Option.elim_some]

/-- Elements other than the target keep their slots. -/
theorem EdgeMade.other (h : EdgeMade oc k lc o n tids ((n.level - lc) * G.m + o.rangeOff) s s' range')
    (hs : Sound G s.relation) {t : Tid} {x : ElementTuple V} (hx : s.relation.element t = some x)
    (ht : t ≠ o.target) : s'.elementSlots x = s.elementSlots x := by
  have hne : x.neighbortid ≠ n.neighbortid := fun heq => ht (hs.own hx h.range.element heq)
  rw [Disk.elementSlots, Disk.elementSlots, h.slots, Function.update_of_ne hne]

/-- **The payload half of the target** keeps its members: the edge is for another range, or it
offers a member. -/
theorem EdgeMade.half_kept (h : EdgeMade oc k lc o n tids ((n.level - lc) * G.m + o.rangeOff) s s' range')
    (hedge : EdgeOk G s.relation k lc o) (hmeets : DiskEdgeMeets oc G s k.e o) :
    MembersKept (s.fellow o.target) (s.payloadHalf G o.target) (s'.payloadHalf G o.target) := by
  have hn := h.range.element
  have hn' : s'.relation.element o.target = some n := by
    rw [← hn]
    exact congrFun (congrArg Prod.fst h.fixed) o.target
  have hfits := h.range.fits
  rw [← h.length] at hfits
  obtain ⟨hbefore, hafter⟩ := h.elementSlots
  rcases hedge.range with ⟨-, hoff, hlen⟩ | ⟨rfl, hpart, hoff, hlen, n', hnt, hmember⟩
  · -- the layer ends before the payload half starts
    have hbound : (n.level - lc) * G.m + o.rangeOff + range'.length ≤ n.level * G.m + G.m := by
      rw [h.length, hoff, hlen, Nat.add_zero]
      exact Nat.add_le_add_right (Nat.mul_le_mul_right _ (Nat.sub_le _ _)) _
    rw [payloadHalf_eq hn, payloadHalf_eq hn', hbefore, hafter, drop_putRange hfits hbound]
    exact .refl _ _
  · obtain rfl := Option.some.inj (hnt.symm.trans hn)
    obtain ⟨elem, helem, -, hnew⟩ := hedge.new
    have hhalf : s.payloadHalf G o.target =
        ((tids.drop ((n'.level - 0) * G.m + o.rangeOff)).take o.rangeLen).map tidSlot := by
      rw [payloadHalf_eq hn, hbefore, hoff, hlen, Nat.sub_zero]
    have hhalf' : s'.payloadHalf G o.target = range'.map tidSlot := by
      have htake := drop_take_putRange hfits
      rw [h.length, hoff, hlen, Nat.sub_zero] at htake
      rw [payloadHalf_eq hn', hafter, hoff, Nat.sub_zero, htake]
    have hocc : ∀ u ∈ Library.occupants (s.payloadHalf G o.target),
        s.relation.element u = some ((s.relation.element u).getD n') := by
      rw [hhalf, occupants_slots]
      exact h.occupants
    rw [hhalf', h.offer, ← hhalf, hpart]
    refine membersKept_offer ?_ fun hfresh hfull j y hv hy hmem => ?_
    · simp only [Disk.fellow, hn, helem, hnew, hmember, decide_true]
    · exact diskVictim_member hn hmember hocc (hmeets (by simp [hpart]) hfresh hfull) hv hy hmem

end

/-- **One edge**: it stays in its range, and the payload halves keep their members. -/
theorem edge_kept (hedge : EdgeOk G s.relation k lc o) (hs : Sound G s.relation)
    (hmeets : DiskEdgeMeets oc G s k.e o)
    (hexec : (addReverseEdgeAtLayer oc fuel k.ins k.e lc k.entry o).exec s = some ((), s')) :
    s'.relation.element = s.relation.element ∧ DiskStaysInRange G lc o s s' ∧ DiskHalvesKept G s s' := by
  obtain ⟨n, tids, range', h⟩ := hedge.made hs hexec
  have helement : s'.relation.element = s.relation.element := congrArg Prod.fst h.fixed
  refine ⟨helement, ⟨fun t x hx ht => h.other hs hx ht, fun n' hn' i hi => ?_⟩, fun t x hx => ?_⟩
  · obtain rfl := Option.some.inj (hn'.symm.trans h.range.element)
    obtain ⟨hbefore, hafter⟩ := h.elementSlots
    rw [hbefore, hafter, getElem?_putRange_of_not (by rw [h.length]; exact h.range.fits)]
    rintro ⟨hlow, hhigh⟩
    rw [h.length] at hhigh
    obtain ⟨n'', hn'', hl⟩ := hedge.target
    obtain rfl := Option.some.inj (hn''.symm.trans hn')
    refine hi ?_
    rcases hedge.range with ⟨hpart, hoff, hlen⟩ | ⟨rfl, hpart, hoff, hlen, -⟩
    · rw [Offer.May, hpart]
      rw [hoff, Nat.add_zero] at hlow hhigh
      exact ⟨hl, hlow, hlen ▸ hhigh⟩
    · rw [Offer.May, hpart]
      rw [hoff, Nat.sub_zero] at hlow hhigh
      exact ⟨hlow, hlen ▸ hhigh⟩
  · by_cases ht : t = o.target
    · subst ht
      exact h.half_kept hedge hmeets
    · rw [payloadHalf_eq hx, payloadHalf_eq (by rw [helement]; exact hx), h.other hs hx ht]
      exact .refl _ _

/-! ### Runs -/

/-- A step of inserts that meets the conditions: an insert has a name of its own, the stride of the
index and payload edges, and an edge meets its condition. -/
def DiskMeets (oc : Opclass V Q D) (G : MetaPage) (s : Disk I V Q × Option (Linking V Q × List (Nat × Offer))) :
    BatchAction (Job I V) → Prop
  | .start job => Idle job.backend s.1 ∧ mEff job.opts job.row.defaultGamma = G.m ∧
      optPayloadEdges job.opts = true
  | .item => ∀ k lc o es, s.2 = some (k, (lc, o) :: es) → DiskEdgeMeets oc G s.1 k.e o
  | .finish => True

instance [DecidableEq I] (oc : Opclass V Q D) (G : MetaPage) :
    ∀ (s : Disk I V Q × Option (Linking V Q × List (Nat × Offer))) (a : BatchAction (Job I V)),
      Decidable (DiskMeets oc G s a)
  | (s, _), .start job => inferInstanceAs (Decidable ((∀ e ∈ s.history.events, _) ∧ _ ∧ _))
  | (_, none), .item | (_, some (_, [])), .item => .isTrue fun _ _ _ _ hs => by simp at hs
  | (s, some (k, (_, o) :: _)), .item => decidable_of_iff (DiskEdgeMeets oc G s k.e o)
    ⟨fun h _ _ _ _ hs => by cases hs; exact h, fun h => h k _ o _ rfl⟩
  | _, .finish => .isTrue trivial

variable [Inhabited Q] {H : PairingHeap} {natts : Nat}
  {b b' : Disk I V Q × Option (Linking V Q × List (Nat × Offer))}

/-- Between any two steps: the discipline is kept, also by what is still to be done, and what is
known of the edges to come. -/
def DiskOk (oc : Opclass V Q D) (G : MetaPage) (fuel : Nat)
    (b : Disk I V Q × Option (Linking V Q × List (Nat × Offer))) : Prop :=
  Inv oc G False b.1 ∧ ∀ k es, b.2 = some (k, es) →
    (∃ i, Safe (discipline I oc G False) i (fun _ => Paid i) ((es.forM fun x : Nat × Offer =>
      addReverseEdgeAtLayer oc fuel k.ins k.e x.1 k.entry x.2).bind fun _ => .pure ()) b.1) ∧
    ∀ x ∈ es, EdgeOk G b.1.relation k x.1 x.2

/-- **What comes before the edges** leaves the halves as they are. -/
theorem prepareElement_kept (hs : Inv oc G False s) {job : Job I V}
    {x : Linking V Q × List (Nat × Offer)}
    (h : (prepareElement H oc natts fuel job).exec s = some (x, s')) : DiskHalvesKept G s s' := by
  intro t n hn
  have hextends : Extends s.relation s'.relation :=
    ((prepareElement_extends (r := s.relation) job).exec (fun _ _ h => h) h).1
  obtain ⟨tup, htup, -⟩ := hs.sound.neighbors hn
  have hslots : s'.elementSlots n = s.elementSlots n := by
    rw [Disk.elementSlots, Disk.elementSlots, Disk.slotsOf, Disk.slotsOf, htup, hextends.neighbor htup]
  rw [payloadHalf_eq hn, payloadHalf_eq (hextends.element hn), hslots]
  exact .refl _ _

/-- **One step of inserts**: the invariant, and what the halves undergo. -/
theorem DiskOk.step (hnatts : 1 < natts) (hb : DiskOk oc G fuel b) {a : BatchAction (Job I V)}
    (hok : DiskMeets oc G b a) (hstep : (diskBuilding H oc natts fuel).step b a = some b') :
    DiskOk oc G fuel b' ∧ DiskHalvesKept G b.1 b'.1 ∧
      ∀ k lc o es, a = .item → b.2 = some (k, (lc, o) :: es) → DiskStaysInRange G lc o b.1 b'.1 := by
  obtain ⟨s, pending⟩ := b
  obtain ⟨hs, hrest⟩ := hb
  cases a with
  | start job =>
    cases pending with
    | some p => cases hstep
    | none =>
      obtain ⟨hidle, hm, hpayload⟩ := hok
      obtain ⟨⟨⟨k, es⟩, s'⟩, hexec, rfl⟩ := Option.map_eq_some_iff.mp hstep
      have hexec : (prepareElement H oc natts fuel job).exec s = some ((k, es), s') := hexec
      have hsafe := insertElement_ok H natts fuel job.opts job.row job.value hm s hs hidle
      rw [← diskBuilding_whole] at hsafe
      obtain ⟨hs', hsafe'⟩ := Safe.exec_bind hsafe hs hexec
      refine ⟨⟨hs', fun k' es' heq => ?_⟩, prepareElement_kept hs hexec, fun _ _ _ _ ha => by cases ha⟩
      obtain ⟨rfl, rfl⟩ := Prod.mk.inj (Option.some.inj heq)
      exact ⟨⟨job.backend, hsafe'⟩, prepareElement_edges hs hidle hm hpayload hnatts hexec⟩
  | item =>
    rcases pending with _ | ⟨k, _ | ⟨⟨lc, o⟩, es⟩⟩
    · cases hstep
    · cases hstep
    · obtain ⟨⟨i, hsafe⟩, hedges⟩ := hrest k _ rfl
      have hstep : ((addReverseEdgeAtLayer oc fuel k.ins k.e lc k.entry o).exec s).map
        (fun r => (r.2, some (k, es))) = some b' := hstep
      obtain ⟨⟨⟨⟩, s'⟩, hexec, rfl⟩ := Option.map_eq_some_iff.mp hstep
      obtain ⟨helement, hrange, hkept⟩ := edge_kept (hedges (lc, o) List.mem_cons_self) hs.sound
        (hok k lc o es rfl) hexec
      have hsafe : Safe (discipline I oc G False) i (fun _ => Paid i)
          (((addReverseEdgeAtLayer oc fuel k.ins k.e lc k.entry o).bind fun _ =>
            es.forM fun x : Nat × Offer => addReverseEdgeAtLayer oc fuel k.ins k.e x.1 k.entry x.2).bind
              fun _ => .pure ()) s := hsafe
      rw [Prog.bind_assoc] at hsafe
      obtain ⟨hs', hsafe'⟩ := Safe.exec_bind hsafe hs hexec
      refine ⟨⟨hs', fun k' es' heq => ?_⟩, hkept, fun k' lc' o' es' _ heq => ?_⟩
      · obtain ⟨rfl, rfl⟩ := Prod.mk.inj (Option.some.inj heq)
        refine ⟨⟨i, hsafe'⟩, fun x hx => (hedges x (List.mem_cons_of_mem _ hx)).mono ?_⟩
        intro t y hy
        exact (congrFun helement t).trans hy
      · obtain ⟨rfl, hcons⟩ := Prod.mk.inj (Option.some.inj heq)
        obtain ⟨hx, rfl⟩ := List.cons.inj hcons
        obtain ⟨rfl, rfl⟩ := Prod.mk.inj hx
        exact hrange
  | finish =>
    rcases pending with _ | ⟨k, _ | ⟨x, es⟩⟩
    · cases hstep
    · obtain rfl := Option.some.inj hstep
      exact ⟨⟨hs, fun k' es' heq => by cases heq⟩, fun t n _ => .refl _ _, fun _ _ _ _ ha => by cases ha⟩
    · cases hstep

/-- **In any number of inserts** that meet the conditions: a step keeps the members of every payload
half, and an edge stays in its range. -/
theorem diskHalves_kept {r : Relation V Q} {updated : List Tid} (hstart : Startable r updated)
    (hnatts : 1 < natts)
    (hrun : Runs (diskBuilding H oc natts fuel).step (DiskMeets oc r.metaPage)
      ((⟨r, .start r updated⟩, none) : Disk I V Q × Option _) b)
    {a : BatchAction (Job I V)} (hok : DiskMeets oc r.metaPage b a)
    (hstep : (diskBuilding H oc natts fuel).step b a = some b') :
    DiskHalvesKept r.metaPage b.1 b'.1 ∧ ∀ k lc o es, a = .item → b.2 = some (k, (lc, o) :: es) →
      DiskStaysInRange r.metaPage lc o b.1 b'.1 := by
  have hinit : DiskOk oc r.metaPage fuel
      ((⟨r, .start r updated⟩, none) : Disk I V Q × Option (Linking V Q × List (Nat × Offer))) :=
    ⟨hstart.inv fun hfalse => hfalse.elim, fun k es h => by cases h⟩
  have hb : DiskOk oc r.metaPage fuel b :=
    hrun.invariant hinit fun hb hok hstep => (hb.step hnatts hok hstep).1
  exact (hb.step hnatts hok hstep).2

end

/-! ### Both -/

/-- **Payload halves are independent of global halves, and lose no members to strangers**: of every
run of inserts with payload edges, in memory and on disk, whose edges find strangers above
`-DBL_MAX` where there are strangers, and in memory an occupant above it where the new node is
below it. On disk the inserts have the stride of the index. -/
theorem payloadHalves_kept (H : PairingHeap) {V D : Type} [CDouble D] :
    (∀ (mb : MemBuild V) (dist : V → V → D) (fuel : Nat) (o : MemSettings), o.payloadEdges = true →
      ∀ s a s', Runs (memBuilding H dist fuel o).step (BuildMeets dist o) (MemGraph.init mb, none) s →
        BuildMeets dist o s a → (memBuilding H dist fuel o).step s a = some s' →
        HalvesKept s.1 s'.1 ∧
        ∀ new r es, a = .item → s.2 = some (new, r :: es) → StaysInRange r s.1 s'.1) ∧
    ∀ {I Q : Type} [Inhabited Q] (oc : Opclass V Q D) (natts fuel : Nat) (r : Relation V Q)
      (updated : List Tid), Startable r updated → 1 < natts →
      ∀ (b : Disk I V Q × Option (Linking V Q × List (Nat × Offer))) a b',
        Runs (diskBuilding H oc natts fuel).step (DiskMeets oc r.metaPage)
          (⟨r, .start r updated⟩, none) b →
        DiskMeets oc r.metaPage b a → (diskBuilding H oc natts fuel).step b a = some b' →
        DiskHalvesKept r.metaPage b.1 b'.1 ∧ ∀ k lc o es, a = .item → b.2 = some (k, (lc, o) :: es) →
          DiskStaysInRange r.metaPage lc o b.1 b'.1 := by
  constructor
  · intro mb dist fuel o hpayload s a s' hrun hok hstep
    exact memHalves_kept hpayload hrun hok hstep
  · intro I Q _ oc natts fuel r updated hstart hnatts b a b' hrun hok hstep
    exact diskHalves_kept hstart hnatts hrun hok hstep

/-! ### Small builds -/

section
variable {V Q D I : Type} [CDouble D] {mb : MemBuild V}

/-- The partition of the next edge, and the slots it is offered. -/
def nextRange (s : MemGraph mb × Option (Fin mb.nNodes × List (RevEdge mb.nNodes))) :
    Option (Option Nat × List (Option (Fin mb.nNodes))) :=
  s.2.bind fun p => p.2.head?.map fun r => (r.part, r.range s.1)

theorem nextRange_some {s : MemGraph mb × Option (Fin mb.nNodes × List (RevEdge mb.nNodes))}
    {x : Option Nat × List (Option (Fin mb.nNodes))} (h : nextRange s = some x) :
    ∃ new r es, s.2 = some (new, r :: es) ∧ (r.part, r.range s.1) = x := by
  obtain ⟨⟨new, edges⟩, hpending, h⟩ := Option.bind_eq_some_iff.mp h
  obtain ⟨r, hr, hx⟩ := Option.map_eq_some_iff.mp h
  obtain ⟨es, rfl⟩ := List.head?_eq_some_iff.mp hr
  exact ⟨new, r, es, hpending, hx⟩

/-- The layer and the partition of the next edge, and the payload half of its target. -/
def nextHalf (G : MetaPage) (b : Disk I V Q × Option (Linking V Q × List (Nat × Offer))) :
    Option ((Nat × Option Nat) × List (Option Tid)) :=
  b.2.bind fun p => p.2.head?.map fun e => ((e.1, e.2.part), b.1.payloadHalf G e.2.target)

theorem nextHalf_some {G : MetaPage} {b : Disk I V Q × Option (Linking V Q × List (Nat × Offer))}
    {x : (Nat × Option Nat) × List (Option Tid)} (h : nextHalf G b = some x) :
    ∃ k lc o es, b.2 = some (k, (lc, o) :: es) ∧ ((lc, o.part), b.1.payloadHalf G o.target) = x := by
  obtain ⟨⟨k, edges⟩, hpending, h⟩ := Option.bind_eq_some_iff.mp h
  obtain ⟨⟨lc, o⟩, hr, hx⟩ := Option.map_eq_some_iff.mp h
  obtain ⟨es, rfl⟩ := List.head?_eq_some_iff.mp hr
  exact ⟨k, lc, o, es, hpending, hx⟩

end

attribute [local instance] neZero_seven

/-- Two partitions: three short vectors, then a long one that is far from these and at `-Infinity`
from the three after it. -/
def longNodes : MemBuild Int where
  mEff := 2
  payloadM := 2
  nNodes := 7
  nodes id := ⟨0, if id.val < 3 then 1 else 7,
    [-2 ^ 10, -2 ^ 11, -2 ^ 12, 2 ^ 100, 2 ^ 30, 2 ^ 31, 2 ^ 32].getD id.val 0,
    .replicate (t2TotalSlots 0 2 2) none⟩
  slots _ := List.length_replicate

theorem neZero_longNodes : @NeZero Nat Zero.ofOfNat0 longNodes.nNodes := neZero_seven

attribute [local instance] neZero_longNodes

/-- Payload edges, without the diversity heuristic. -/
def plainSettings : MemSettings := ⟨4, false, true, none, 0⟩

abbrev longBuilding : Batch (MemGraph longNodes) Unit (Fin longNodes.nNodes) (RevEdge longNodes.nNodes) :=
  memBuilding PairingHeap.list negInner 20 plainSettings

/-- An insert of the next node, which makes so many edges. -/
def inserting (items : Nat) : List (BatchAction Unit) :=
  .start () :: (.replicate items .item ++ [.finish])

/-- The sixth node is wired. -/
def longActions : List (BatchAction Unit) := [0, 1, 2, 2, 3].flatMap inserting ++ [.start ()]

/-- Points of two partitions, inserted by different backends with payload edges. -/
def payloadJob (i : Fin 7) (x : Int) (filterVal : Datum) : Job (Fin 7) Int :=
  ⟨i, some ⟨2, 4, 1, 0, true, false⟩, { pointRow x with filterVal := filterVal }, x⟩

def slimIndex : Relation Int Int := emptyIndex Int Int 2 2 1 false

abbrev pointBuilding :
    Batch (Disk (Fin 7) Int Int) (Job (Fin 7) Int) (Linking Int Int) (Nat × Offer) :=
  diskBuilding PairingHeap.list points 2 20

/-- An insert of a point, which makes so many edges. -/
def insertingPoint (i : Fin 7) (x : Int) (filterVal : Datum) (items : Nat) :
    List (BatchAction (Job (Fin 7) Int)) :=
  .start (payloadJob i x filterVal) :: (.replicate items .item ++ [.finish])

/-- The last of seven points is in the index, and its edges to global halves are made. -/
def pointActions : List (BatchAction (Job (Fin 7) Int)) :=
  insertingPoint 0 0 1 0 ++ insertingPoint 1 10 1 1 ++ insertingPoint 2 30 1 2 ++
    insertingPoint 3 50 7 2 ++ insertingPoint 4 60 7 2 ++ insertingPoint 5 21 7 4 ++
    [.start (payloadJob 6 22 7), .item, .item]

/-- A payload edge in memory and one on disk; each is offered to a full half that holds a stranger
and a member. -/
theorem payloadHalves_kept_full :
    (∃ (s s' : MemGraph longNodes × Option (Fin longNodes.nNodes × List (RevEdge longNodes.nNodes)))
        (new : Fin longNodes.nNodes) (r : RevEdge longNodes.nNodes)
        (es : List (RevEdge longNodes.nNodes)),
      s.2 = some (new, r :: es) ∧ (r.part, r.range s.1) = (some 7, [some 2, some 4]) ∧
      longBuilding.step s .item = some s' ∧ HalvesKept s.1 s'.1 ∧ StaysInRange r s.1 s'.1) ∧
    ∃ (b b' : Disk (Fin 7) Int Int × Option (Linking Int Int × List (Nat × Offer)))
        (k : Linking Int Int) (lc : Nat) (o : Offer) (es : List (Nat × Offer)),
      b.2 = some (k, (lc, o) :: es) ∧
      ((lc, o.part), b.1.payloadHalf slimIndex.metaPage o.target) =
        ((0, some 7), [some ⟨1, 2⟩, some ⟨1, 12⟩]) ∧
      pointBuilding.step b .item = some b' ∧ DiskHalvesKept slimIndex.metaPage b.1 b'.1 ∧
      DiskStaysInRange slimIndex.metaPage lc o b.1 b'.1 := by
  constructor
  · have hexec : (exec (fun s a =>
        if BuildMeets negInner plainSettings s a then longBuilding.step s a else none)
        (MemGraph.init longNodes, none) longActions).any (fun s =>
          decide (BuildMeets negInner plainSettings s .item) &&
            decide (nextRange s = some (some 7, [some 2, some 4])) &&
              (longBuilding.step s .item).isSome) = true := by
      decide +kernel
    obtain ⟨s, s', hrun, hnext, hmeets, hstep⟩ := runs_step_of_exec hexec
    obtain ⟨new, r, es, hpending, hr⟩ := nextRange_some (of_decide_eq_true hnext)
    have hkept := (payloadHalves_kept PairingHeap.list).1 longNodes negInner 20 plainSettings rfl s
      .item s' hrun hmeets hstep
    exact ⟨s, s', new, r, es, hpending, hr, hstep, hkept.1, hkept.2 new r es rfl hpending⟩
  · have hexec : (exec (fun b a =>
        if DiskMeets points slimIndex.metaPage b a then pointBuilding.step b a else none)
        (⟨slimIndex, .start slimIndex []⟩, none) pointActions).any (fun b =>
          decide (DiskMeets points slimIndex.metaPage b .item) &&
            decide (nextHalf slimIndex.metaPage b =
              some ((0, some 7), [some ⟨1, 2⟩, some ⟨1, 12⟩])) &&
              (pointBuilding.step b .item).isSome) = true := by
      decide +kernel
    obtain ⟨b, b', hrun, hnext, hmeets, hstep⟩ := runs_step_of_exec hexec
    obtain ⟨k, lc, o, es, hpending, ho⟩ := nextHalf_some (of_decide_eq_true hnext)
    have hstart : Startable slimIndex [] :=
      startable_emptyIndex (by decide) (by decide) (by decide) 1 false
    have hkept := (payloadHalves_kept PairingHeap.list).2 points 2 20 slimIndex [] hstart
      (by decide) b .item b' hrun hmeets hstep
    exact ⟨b, b', k, lc, o, es, hpending, ho, hstep, hkept.1, hkept.2 k lc o es rfl hpending⟩

/-- The next edge's target and partition, and the target's slots before and after it is made. -/
def slotsAround (acts : List (BatchAction Unit)) :
    Option ((Fin longNodes.nNodes × Option Nat) × List (Option (Fin longNodes.nNodes)) ×
      List (Option (Fin longNodes.nNodes))) :=
  (exec longBuilding.step (MemGraph.init longNodes, none) acts).bind fun s =>
    (longBuilding.step s .item).bind fun s' =>
      s.2.bind fun pending => pending.2.head?.map fun r =>
        ((r.target, r.part), s.1.nbr r.target, s'.1.nbr r.target)

/-- The members of the long vector's half are at `-Infinity`, as is the last node: a payload edge
takes the slot in front of the half, which is the target's global half. -/
theorem payload_edge_strays : ∃ s s' new r es,
    Runs longBuilding.step (fun _ _ => True) (MemGraph.init longNodes, none) s ∧
    s.2 = some (new, r :: es) ∧ r.part = some 7 ∧ longBuilding.step s .item = some s' ∧
    ¬ StaysInRange r s.1 s'.1 := by
  have hslots : slotsAround ([0, 1, 2, 2, 3, 4].flatMap inserting ++ [.start ()]) =
      some ((3, some 7), [some 0, some 1, some 5, some 4], [some 0, some 6, some 5, some 4]) := by
    decide +kernel
  obtain ⟨s, hexec, hslots⟩ := Option.bind_eq_some_iff.mp hslots
  obtain ⟨s', hstep, hslots⟩ := Option.bind_eq_some_iff.mp hslots
  obtain ⟨⟨new, pending⟩, hpending, hslots⟩ := Option.bind_eq_some_iff.mp hslots
  obtain ⟨r, hr, heq⟩ := Option.map_eq_some_iff.mp hslots
  obtain ⟨es, rfl⟩ := List.head?_eq_some_iff.mp hr
  obtain ⟨hedge, heq⟩ := Prod.mk.inj heq
  obtain ⟨htarget, hpart⟩ := Prod.mk.inj hedge
  obtain ⟨hbefore, hafter⟩ := Prod.mk.inj heq
  refine ⟨s, s', new, r, es, ?_, hpending, hpart, hstep, fun hrange => ?_⟩
  · have hrun : exec (fun s a => if True then longBuilding.step s a else none)
        (MemGraph.init longNodes, none) ([0, 1, 2, 2, 3, 4].flatMap inserting ++ [.start ()]) =
          some s := by
      simpa using hexec
    exact runs_of_exec hrun
  · have hmay : ¬ r.May 1 := by
      unfold RevEdge.May
      rw [hpart, htarget]
      exact fun h => absurd h.1 (by decide)
    have hsame := hrange.slots 1 hmay
    rw [hbefore, hafter] at hsame
    exact absurd hsame (by decide)

end PgAcorn.Build
