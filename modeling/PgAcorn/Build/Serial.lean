import PgAcorn.Build.OwnSlots

/-! A serial build.

A node that is pushed is wired into the graph of the nodes before it, the edges back are made,
and the entry points are updated. Each step ends with enough fuel, so that any number of rows
ends with a well-formed graph. -/
namespace PgAcorn.Build
open Library

section
variable {V D : Type} [CDouble D] {mb : MemBuild V} {dist : V → V → D} {o : MemSettings}
  {g g' g₀ : MemGraph mb} {new : Fin mb.nNodes} {lc lo hi : Nat} {H : PairingHeap}
  {ep : Fin mb.nNodes}

/-! ### An insert -/

/-- The nodes before the new one, as a descent reads them. -/
def MemGraph.before (g : MemGraph mb) (dist : V → V → D) (new : Fin mb.nNodes) (query : V) :
    LayeredGraph (Fin mb.nNodes) D :=
  { g.layered dist query with On := fun lc id => id.val < new.val ∧ lc ≤ (mb.nodes id).level }

omit [CDouble D] in
theorem Joined.before (hg₀ : Joined g₀ new.val) (dist : V → V → D) (query : V) :
    (g₀.before dist new query).WellFormed where
  neighbors hv hu :=
    have h := (hg₀.linked hv.1).targets hv.2 hu
    ⟨h.1, h.2.2⟩
  below hv := ⟨hv.1, Nat.le_of_succ_le hv.2⟩
  finite := Set.toFinite _
  inside := by
    intro lc id hid
    have hfits := layer_fits g₀ hid.2
    have hstart : (g₀.before dist new query).start lc id = mb.layerStart id lc :=
      hnswNeighborStart_eq hid.2 mb.mEff
    refine ⟨by rw [hstart]; exact Int.natCast_nonneg _, ?_⟩
    rw [hstart]
    exact Int.ofNat_le.mpr hfits

/-- **The descent** to the node's level ends on a node of that level before it. -/
theorem memGreedyDescend_ends (hg₀ : Joined g₀ new.val) (query : V) (hep : ep.val < new.val)
    {fromLevel toLevel : Nat} (hfrom : fromLevel ≤ (mb.nodes ep).level)
    (hto : toLevel ≤ fromLevel) :
    Prog.Ends (· = g₀) (fun fuel => memGreedyDescend dist fuel ep query fromLevel toLevel)
      fun r g => g = g₀ ∧ r.val < new.val ∧ toLevel ≤ (mb.nodes r).level := by
  have hG := hg₀.before dist query
  have hreads : (g₀.before dist new query).Reads (· = g₀)
      (fun id => .pure (dist (mb.nodes id).vec query)) memNeighbors :=
    ⟨fun _ => .pure _, fun hv => .read fun g hg => by rw [hg]; exact if_pos hv.2⟩
  have hcur : (g₀.before dist new query).On fromLevel ep := ⟨hep, hfrom⟩
  obtain ⟨path, res, h⟩ := hG.descends toLevel hcur
  rintro g rfl
  refine ⟨res, g, ⟨path.length, fun fuel hfuel => ?_⟩, rfl, h.on_target hG hcur hto⟩
  obtain ⟨g', hexec, rfl⟩ := h.answers hreads hG hcur hfuel g rfl
  exact hexec

/-- A node that is pushed, and nothing wired yet. -/
structure Pushed (o : MemSettings) (g : MemGraph mb) (new : Fin mb.nNodes) : Prop where
  joined : Joined g new.val
  entries : Entries o g new.val
  empty : ∀ lc, lc ≤ (mb.nodes new).level → g.build.neighbors lc new = []
  pushed : g.pushed = new.val + 1

omit [CDouble D] in
theorem Pushed.linking (h : Pushed o g₀ new) (hhi : ∀ u : Fin mb.nNodes, u.val < new.val →
    (mb.nodes u).level < hi ∨ (mb.nodes new).level < hi) : Partway g₀ new lo hi g₀ where
  own := .refl new g₀
  linked := by
    refine ⟨fun {lc u} hl hu => ?_, fun {lc} hl => ?_⟩
    · rw [h.empty lc hl] at hu
      cases hu
    · rw [h.empty lc hl]
      exact List.nodup_nil
  empty _ hl := h.empty _ hl
  attached {u lc} hu hlc hl hl' := by
    have := hhi u hu
    omega

/-- All edges back of an insert, one at least for each layer that the node shares. -/
structure NotedAll (new : Fin mb.nNodes) (noted : List (Nat × RevEdge mb.nNodes)) : Prop where
  level : ∀ p ∈ noted, p.1 ≤ (mb.nodes new).level
  covers : ∀ {u : Fin mb.nNodes} {lc : Nat}, u.val < new.val → lc ≤ (mb.nodes new).level →
    lc ≤ (mb.nodes u).level → ∃ p ∈ noted, p.1 = lc
  into : ∀ p ∈ noted, EdgeInto mb p.1 p.2
  before : ∀ p ∈ noted, p.2.target.val < new.val
  distinct : (noted.map fun p => (p.1, p.2.target)).Nodup

/-- **The node is wired**: it has what it keeps, and the edges back are noted. -/
theorem memWire_ends (hD : TotalOrder D) (hefc : 1 ≤ o.efc) (hm : 0 < mb.mEff)
    (hg₀ : Pushed o g₀ new) : Prog.Ends (· = g₀) (fun fuel => memWire H dist fuel o new)
      fun rev g => Partway g₀ new 0 0 g ∧
        ∃ noted, noted.map Prod.snd = rev ∧ NotedAll new noted := by
  refine .bind (Q := fun entry g => g = g₀ ∧ entry = g₀.entry)
    (.read fun g hg => ⟨_, rfl, hg, by rw [hg]⟩) fun entry => .assume fun hentry => ?_
  subst hentry
  obtain hzero | hpos := Nat.eq_zero_or_pos new.val
  · -- the first node
    rw [hg₀.entries.start hzero]
    refine .pure fun g hg => ?_
    subst hg
    have hnone : ∀ {P : Nat × RevEdge mb.nNodes → Prop}, ∀ p ∈ [], P p :=
      fun p hp => absurd hp List.not_mem_nil
    exact ⟨hg₀.linking fun u hu => by omega, [], rfl, hnone, fun hu => by omega, hnone, hnone,
      List.nodup_nil⟩
  · obtain ⟨id, hid, hentry, htop⟩ := hg₀.entries.top hpos
    rw [hentry]
    have hlayers : ∀ {ep : Fin mb.nNodes}, ep.val < new.val →
        min (mb.nodes id).level (mb.nodes new).level ≤ (mb.nodes ep).level →
        Prog.Ends (· = g₀) (fun fuel =>
          memWireLayers H dist fuel o new (min (mb.nodes id).level (mb.nodes new).level) ep)
          fun rev g => Partway g₀ new 0 0 g ∧
            ∃ noted, noted.map Prod.snd = rev ∧ NotedAll new noted := by
      intro ep hep hlep
      refine ((memWireLayers_ends hD hefc hm hg₀.joined hg₀.entries hep hlep
        (Nat.min_le_right _ _)).weaken ?_).imp ?_
      · rintro g rfl
        refine hg₀.linking fun u hu => ?_
        have := htop u hu
        omega
      · rintro rev g ⟨hlinking, noted, rfl, hnoted⟩
        refine ⟨hlinking, noted, rfl, fun p hp => (hnoted.upTo p hp).trans (Nat.min_le_right _ _),
          fun {u lc} hu hl hl' => hnoted.covers lc ?_, hnoted.into, hnoted.before, hnoted.distinct⟩
        exact Nat.le_min.mpr ⟨hl'.trans (htop u hu), hl⟩
    by_cases habove : (mb.nodes id).level > (mb.nodes new).level
    · simp only [if_pos habove]
      refine .bind (memGreedyDescend_ends hg₀.joined (mb.nodes new).vec hid le_rfl habove.le)
        fun ep => .assume fun hep => hlayers hep.1 ((Nat.min_le_right _ _).trans hep.2)
    · simp only [if_neg habove]
      exact hlayers hid (Nat.min_le_left _ _)

omit [CDouble D] in
/-- What the wiring leaves, with all edges back still to be made. -/
theorem Partway.publishing (hg₀ : Pushed o g₀ new) (h : Partway g₀ new 0 0 g)
    {noted : List (Nat × RevEdge mb.nNodes)} (hnoted : NotedAll new noted) :
    Publishing g₀ new (noted.map Prod.snd) g := by
  have hlast : ∀ {id : Fin mb.nNodes}, id.val < new.val + 1 → id.val < new.val ∨ id = new :=
    fun hid => (Nat.lt_succ_iff_lt_or_eq.mp hid).imp_right fun heq => Fin.ext heq
  refine ⟨fun {id} hid => ?_, ⟨noted, rfl, hnoted.into, hnoted.before, hnoted.level,
    fun p hp hmem => ?_, hnoted.distinct, fun {id u lc} hid hu hne hl hl' => ?_⟩,
    h.own.entry, h.own.partEntry, h.own.pushed⟩
  · obtain hlt | rfl := hlast hid
    · have hlinked := hg₀.joined.linked hlt
      refine ⟨fun {lc u} hl hu => ?_, fun {lc} hl => ?_⟩
      · rw [h.neighbors hlt] at hu
        obtain ⟨hu, hrest⟩ := hlinked.targets hl hu
        exact ⟨hu.trans (Nat.lt_succ_self _), hrest⟩
      · rw [h.neighbors hlt]
        exact hlinked.nodup hl
    · refine ⟨fun hl hu => ?_, h.linked.nodup⟩
      obtain ⟨hu, hrest⟩ := h.linked.targets hl hu
      exact ⟨hu.trans (Nat.lt_succ_self _), hrest⟩
  · have hbefore := hnoted.before p hp
    rw [h.neighbors hbefore] at hmem
    exact lt_irrefl _ ((hg₀.joined.linked hbefore).targets (hnoted.into p hp).level hmem).1
  · obtain hlt | rfl := hlast hid
    · by_cases hother : ∃ v : Fin mb.nNodes, v.val < new.val ∧ v ≠ id ∧ lc ≤ (mb.nodes v).level
      · obtain ⟨v, hv, hvne, hlv⟩ := hother
        rw [h.neighbors hlt]
        exact .inl (hg₀.joined.attached hlt hv hvne hl hlv)
      · -- the new node is the first other one that has the layer, and has an edge to it
        obtain hult | rfl := hlast hu
        · exact absurd ⟨u, hult, hne, hl'⟩ hother
        · obtain ⟨p, hp, rfl⟩ := hnoted.covers hlt hl' hl
          refine .inr (List.mem_map.mpr ⟨p, hp, Prod.ext rfl ?_⟩)
          by_contra hnot
          exact hother ⟨p.2.target, hnoted.before p hp, hnot, (hnoted.into p hp).level⟩
    · obtain hult | rfl := hlast hu
      · exact .inl (h.attached hult (Nat.zero_le _) hl hl')
      · exact absurd rfl hne

omit [CDouble D] in
/-- All edges back are made. -/
theorem Publishing.joined (h : Publishing g₀ new [] g) : Joined g (new.val + 1) := by
  obtain ⟨noted, hmap, hnoted⟩ := h.noted
  obtain rfl := List.map_eq_nil_iff.mp hmap
  refine ⟨h.linked, fun hid hu hne hl hl' => ?_⟩
  exact (hnoted.attached hid hu hne hl hl').resolve_right List.not_mem_nil

omit [CDouble D] in
theorem Joined.congr {n : Nat} (h : Joined g n)
    (hnbr : ∀ id : Fin mb.nNodes, id.val < n → g'.nbr id = g.nbr id) : Joined g' n := by
  refine ⟨fun {id} hid => ⟨fun {lc u} hl hu => ?_, fun {lc} hl => ?_⟩,
    fun {id u lc} hid hu hne hl hl' => ?_⟩
  · rw [neighbors_congr (hnbr id hid)] at hu
    exact (h.linked hid).targets hl hu
  · rw [neighbors_congr (hnbr id hid)]
    exact (h.linked hid).nodup hl
  · rw [neighbors_congr (hnbr id hid)]
    exact h.attached hid hu hne hl hl'

/-- **The entry points** after an insert. -/
theorem memUpdateEntries_exec (h : Entries o g new.val) : ∃ g',
    (memUpdateEntries o new).exec g = some ((), g') ∧ g'.nbr = g.nbr ∧ g'.pushed = g.pushed ∧
      Entries o g' (new.val + 1) := by
  refine ⟨_, Prog.exec_lift rfl, rfl, rfl, fun h0 => absurd h0 (Nat.succ_ne_zero _), fun _ => ?_,
    fun {part id} hpart => ?_, fun hpayload {id} hid => ?_⟩
  · dsimp only
    obtain hzero | hpos := Nat.eq_zero_or_pos new.val
    · rw [h.start hzero]
      refine ⟨new, Nat.lt_succ_self _, rfl, fun u hu => ?_⟩
      rw [show u = new from Fin.ext (by omega)]
    · obtain ⟨id, hid, hentry, htop⟩ := h.top hpos
      have hlast : ∀ u : Fin mb.nNodes, u.val < new.val + 1 → u.val < new.val ∨ u = new :=
        fun u hu => (Nat.lt_succ_iff_lt_or_eq.mp hu).imp_right fun heq => Fin.ext heq
      rw [hentry]
      by_cases hlevel : (mb.nodes id).level < (mb.nodes new).level
      · refine ⟨new, Nat.lt_succ_self _, if_pos (decide_eq_true hlevel), fun u hu => ?_⟩
        obtain hu | rfl := hlast u hu
        · exact (htop u hu).trans hlevel.le
        · exact le_rfl
      · refine ⟨id, hid.trans (Nat.lt_succ_self _), if_neg (by simpa using hlevel), fun u hu => ?_⟩
        obtain hu | rfl := hlast u hu
        · exact htop u hu
        · exact Nat.le_of_not_lt hlevel
  · dsimp only at hpart
    split at hpart
    · by_cases hsame : part = payloadPartition (mb.nodes new).filterVal
      · rw [hsame, Function.update_self] at hpart
        obtain rfl := Option.some.inj hpart
        exact ⟨Nat.lt_succ_self _, hsame.symm⟩
      · rw [Function.update_of_ne hsame] at hpart
        exact ⟨(h.part hpart).1.trans (Nat.lt_succ_self _), (h.part hpart).2⟩
    · exact ⟨(h.part hpart).1.trans (Nat.lt_succ_self _), (h.part hpart).2⟩
  · have hold : id.val < new.val ∨ id = new :=
      (Nat.lt_succ_iff_lt_or_eq.mp hid).imp_right fun heq => Fin.ext heq
    dsimp only
    rw [hpayload, Bool.true_and]
    split
    · by_cases hsame : payloadPartition (mb.nodes id).filterVal =
          payloadPartition (mb.nodes new).filterVal
      · rw [hsame, Function.update_self]
        rfl
      · rw [Function.update_of_ne hsame]
        obtain hid | rfl := hold
        · exact h.all hpayload hid
        · exact absurd rfl hsame
    · rename_i hsome
      obtain hid | rfl := hold
      · exact h.all hpayload hid
      · rwa [Bool.not_eq_true, Option.isNone_eq_false_iff] at hsome

/-- **An insert ends** with the new node in the graph. -/
theorem memInsertNode_ends (hD : TotalOrder D) (hefc : 1 ≤ o.efc) (hm : 0 < mb.mEff)
    (hstray : NeverStray mb dist o) (hg₀ : Pushed o g₀ new) :
    Prog.Ends (· = g₀) (fun fuel => memInsertNode H dist fuel o new)
      fun _ g => g.WellFormed o ∧ g.pushed = new.val + 1 := by
  refine .bind ((memWire_ends hD hefc hm hg₀).imp (R := fun rev => Publishing g₀ new rev) ?_)
    fun rev => .bind (.forM (publishing_step hstray) rev) fun _ => .of_exec fun g hg => ?_
  · rintro rev g ⟨hlinking, noted, rfl, hnoted⟩
    exact hlinking.publishing hg₀ hnoted
  · have hentries : Entries o g new.val :=
      ⟨fun h0 => hg.entry.trans (hg₀.entries.start h0), fun hpos => by
        rw [hg.entry]
        exact hg₀.entries.top hpos, fun hpart => hg₀.entries.part (hg.partEntry ▸ hpart),
        fun hpayload {id} hid => by
          rw [hg.partEntry]
          exact hg₀.entries.all hpayload hid⟩
    obtain ⟨g', hexec, hnbr, hpushed, hentries'⟩ := memUpdateEntries_exec hentries
    have hcount : g'.pushed = new.val + 1 := hpushed.trans (hg.pushed.trans hg₀.pushed)
    refine ⟨(), g', hexec, ⟨?_, ?_, ?_⟩, hcount⟩
    · rw [hcount]
      exact new.isLt
    · rw [hcount]
      exact hg.joined.congr fun id _ => congrFun hnbr id
    · rw [hcount]
      exact hentries'

/-! ### All inserts -/

omit [CDouble D] in
/-- **A node that is pushed** has empty slots, and the graph is as it was. -/
theorem memPushNode_pushed (hg : g.WellFormed o) (hroom : g.pushed < mb.nNodes) :
    ∃ new g', memPushNode.exec g = some (new, g') ∧ new.val = g.pushed ∧ Pushed o g' new := by
  refine ⟨⟨g.pushed, hroom⟩, _, Prog.exec_lift (dif_pos hroom), rfl,
    hg.joined.congr fun id hid => ?_,
    ⟨hg.entries.start, hg.entries.top, hg.entries.part, hg.entries.all⟩, fun lc hl => ?_, rfl⟩
  · refine Function.update_of_ne ?_ _ _
    rintro rfl
    exact lt_irrefl _ hid
  · rw [neighbors_eq _ hl, MemGraph.layerSlots, occupants, List.filterMap_eq_nil_iff]
    intro slot hslot
    have hslot : slot ∈ (Function.update g.nbr ⟨g.pushed, hroom⟩
        (List.replicate (t2TotalSlots (mb.nodes ⟨g.pushed, hroom⟩).level mb.mEff mb.payloadM) none))
        ⟨g.pushed, hroom⟩ := List.mem_of_mem_drop (List.mem_of_mem_take hslot)
    rw [Function.update_self] at hslot
    exact List.eq_of_mem_replicate hslot

/-- The first `n` rows of a build, as long as they stay in memory: for each of them
`acorn_build_insert_tuple` pushes a node and inserts it. -/
def memInsertAll (H : PairingHeap) (dist : V → V → D) (fuel : Nat) (o : MemSettings) :
    Nat → Prog (MemGraph mb) Unit
  | 0 => .pure ()
  | n + 1 => (memInsertAll H dist fuel o n).bind fun _ =>
      memPushNode.bind (memInsertNode H dist fuel o)

omit [CDouble D] in
theorem wellFormed_init (o : MemSettings) : (MemGraph.init mb).WellFormed o where
  room := Nat.zero_le _
  joined := ⟨fun hid => absurd hid (Nat.not_lt_zero _), fun hid => absurd hid (Nat.not_lt_zero _)⟩
  entries := ⟨fun _ => rfl, fun hpos => absurd hpos (lt_irrefl _), fun hpart => (by cases hpart),
    fun _ _ hid => absurd hid (Nat.not_lt_zero _)⟩

/-- **The rows of a build** are inserted one after another. -/
theorem memInsertAll_ends (H : PairingHeap) (hD : TotalOrder D) (hefc : 1 ≤ o.efc)
    (hm : 0 < mb.mEff) (hstray : NeverStray mb dist o) (n : Nat) (hn : n ≤ mb.nNodes) :
    Prog.Ends (· = MemGraph.init mb) (fun fuel => memInsertAll H dist fuel o n)
      fun _ g => g.WellFormed o ∧ g.pushed = n := by
  induction n with
  | zero =>
    refine .pure fun g hg => ?_
    subst hg
    exact ⟨wellFormed_init o, rfl⟩
  | succ n ih =>
    refine .bind (ih (Nat.le_of_succ_le hn)) fun _ => ?_
    intro g hg
    obtain ⟨hg, rfl⟩ := hg
    obtain ⟨new, g', hpush, hnew, hg'⟩ := memPushNode_pushed hg hn
    obtain ⟨a, g'', ⟨bound, hbound⟩, hq⟩ :=
      memInsertNode_ends (H := H) hD hefc hm hstray hg' g' rfl
    refine ⟨a, g'', ⟨bound, fun fuel hfuel => ?_⟩, hq.1, by rw [hq.2, hnew]⟩
    rw [Prog.exec_bind, hpush]
    exact hbound fuel hfuel

/-- **A build in memory ends with a well-formed graph**, whatever the vectors, the levels and
the partitions: every search, every descent and every re-selection ends, and no write leaves
the slots of its layer. -/
theorem memInsertAll_wellFormed (H : PairingHeap) (hD : TotalOrder D) (mb : MemBuild V)
    (dist : V → V → D) (o : MemSettings) (hefc : 1 ≤ o.efc) (hm : 0 < mb.mEff)
    (hstray : NeverStray mb dist o) (n : Nat) (hn : n ≤ mb.nNodes) :
    ∃ g, (∃ bound, ∀ fuel ≥ bound,
      (memInsertAll H dist fuel o n).exec (MemGraph.init mb) = some ((), g)) ∧
      g.WellFormed o ∧ g.pushed = n := by
  obtain ⟨_, g, hbound, hg⟩ := memInsertAll_ends H hD hefc hm hstray n hn _ rfl
  exact ⟨g, hbound, hg⟩

end

/-- Three nodes on a line; the second one has a layer above, and the last two share a partition. -/
def lineNodes : MemBuild Int where
  mEff := 2
  payloadM := 2
  nNodes := 3
  nodes id := ⟨if id.val = 1 then 1 else 0, if id.val = 0 then 7 else 4, 3 * id.val,
    .replicate (t2TotalSlots (if id.val = 1 then 1 else 0) 2 2) none⟩
  slots _ := List.length_replicate

/-- With payload edges and without the diversity heuristic. -/
def lineSettings : MemSettings := ⟨4, false, true, none, 0⟩

def lineDistance (a b : Int) : Int := |a - b|

/-- All three are inserted. -/
theorem memInsertAll_wellFormed_line : ∃ g : MemGraph lineNodes, (∃ bound, ∀ fuel ≥ bound,
    (memInsertAll PairingHeap.list lineDistance fuel lineSettings 3).exec (.init lineNodes) =
      some ((), g)) ∧ g.WellFormed lineSettings ∧ g.pushed = 3 :=
  memInsertAll_wellFormed PairingHeap.list totalOrder_int lineNodes lineDistance lineSettings
    (by decide) (by decide) (.inr (by decide)) 3 le_rfl

example :
    ((memInsertAll PairingHeap.list lineDistance 20 lineSettings 3).exec (.init lineNodes)).map
      (fun p => (p.2.entry.map fun e => e.1.val,
        List.ofFn fun id => (p.2.nbr id).map fun slot => slot.map Fin.val)) =
    some (some 1, [[some 1, some 2, none, none], [none, none, some 0, some 2, none, none],
      [some 1, some 0, none, none]]) := by decide +kernel

end PgAcorn.Build
