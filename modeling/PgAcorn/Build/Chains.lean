import PgAcorn.Build.CreateIndex
import PgAcorn.Build.Readable

/-! From CREATE INDEX to any scan.

A flush fills the inline entries of its chunks from the nodes they name, and chains each node's
chunks in the order of their places: the index it leaves is coherent (`memFlush_coherent`). So
whatever inserts and vacuums run on an index that was built, scans can read it at every instant
(`build_then_sessions`). -/
namespace PgAcorn.Build
open Library
open PgAcorn.Vacuum (anyLive)

section
variable {I V Q D : Type} {oc : Opclass V Q D} {b : BuildParams} {nodes : List (BuildNode V)}

/-! ### Places in order -/

/-- Where the members of one of some lists are in all of them. -/
theorem idxOf_flatMap {α β : Type} [DecidableEq β] {g : α → List β} {l : List α}
    (hnodup : (l.flatMap g).Nodup) {x : α} (hx : x ∈ l) :
    ∃ k, ∀ {i : Nat} {y : β}, (g x)[i]? = some y → (l.flatMap g).idxOf y = k + i := by
  obtain ⟨l₁, l₂, rfl⟩ := List.append_of_mem hx
  refine ⟨(l₁.flatMap g).length, fun {i y} hy => ?_⟩
  rw [List.flatMap_append, List.flatMap_cons] at hnodup ⊢
  obtain ⟨hi, rfl⟩ := List.getElem?_eq_some_iff.mp hy
  have hat : (l₁.flatMap g ++ (g x ++ l₂.flatMap g))[(l₁.flatMap g).length + i]? =
      some (g x)[i] := by
    rw [List.getElem?_append_right (Nat.le_add_right _ _), Nat.add_sub_cancel_left,
      List.getElem?_append_left hi, hy]
  obtain ⟨hlt, heq⟩ := List.getElem?_eq_some_iff.mp hat
  rw [← heq]
  exact hnodup.idxOf_getElem _ hlt

/-! ### The chunks of a flush -/

variable [Inhabited Q] {r r' : Relation V Q}
  {f : BuildNode V × Places → List (IndexTuple V Q × Nat)}

/-- The chunks of a node, in the order of their places. -/
structure ChunksOf (oc : Opclass V Q D) (b : BuildParams) (nodes : List (BuildNode V))
    (p : BuildNode V × Places) (cs : List (InlineChunk Q)) : Prop where
  next : cs.map InlineChunk.next = (p.2.nbr ++ [Tid.invalid]).tail
  entries : ∀ c ∈ cs, ∀ entry ∈ c.entries,
    ∃ slot, entry = slotEntry oc b nodes (memPreassignTids oc b nodes) slot

/-- Every chunk is one of a node's. -/
theorem Patched.chunk (h : Patched oc b nodes r r' f) {t : Tid} {c : InlineChunk Q}
    (hc : (r'.item t).bind IndexTuple.chunk? = some c) :
    ∃ p ∈ nodes.zip (memPreassignTids oc b nodes), ∃ cs : List (InlineChunk Q),
      ChunksOf oc b nodes p cs ∧ ∃ i : Nat, p.2.nbr[i]? = some t ∧ cs[i]? = some c := by
  obtain ⟨x, hx, hc⟩ := Option.bind_eq_some_iff.mp hc
  obtain ⟨p, hp, ht⟩ | ⟨p, hp, rfl⟩ := h.placed hx
  swap
  · rw [h.element hp] at hx
    obtain rfl := Option.some.inj hx
    cases hc
  refine ⟨p, hp, ?_⟩
  have htuples := h.written.tuples p hp
  have hnbr := h.written.nbr_eq hp
  have hlength := length_nbr hp
  rw [← htuples.sizes, List.length_map, ← List.length_map (f := Prod.fst), hnbr] at hlength
  cases hinline : b.inlineVectors with
  | false =>
    -- there is only the neighbor tuple, and no chunk
    have hplain := htuples.plain hinline
    rw [hplain] at hlength
    have htail : p.2.nbr.tail = [] := List.eq_nil_of_length_eq_zero (Nat.succ.inj hlength)
    obtain rfl | ht := ht
    · rw [h.neighbor p hp] at hx
      obtain rfl := Option.some.inj hx
      have hnone : primaryOf (f p) = none := by
        unfold primaryOf
        rw [hplain]
        rfl
      cases hnone.symm.trans hc
    · rw [htail] at ht
      cases ht
  | true =>
    obtain ⟨c₀, cs, hfst, hnext, -, hentries⟩ := htuples.inline hinline
    rw [hfst] at hlength
    refine ⟨c₀ :: cs, ⟨hnext, fun c' hc' entry hentry => ?_⟩, ?_⟩
    · rw [hentries c' hc'] at hentry
      obtain ⟨slot, -, rfl⟩ := List.mem_map.mp hentry
      exact ⟨slot, rfl⟩
    obtain rfl | ht := ht
    · refine ⟨0, by rw [hnbr]; rfl, ?_⟩
      rw [h.neighbor p hp] at hx
      obtain rfl := Option.some.inj hx
      have hprimary : primaryOf (f p) = some c₀ := by
        unfold primaryOf
        rw [hfst]
        rfl
      exact hprimary.symm.trans hc
    · obtain ⟨i, hi⟩ := List.mem_iff_getElem?.mp ht
      obtain ⟨hilt, -⟩ := List.getElem?_eq_some_iff.mp hi
      have hcs : i < cs.length := by
        simp only [List.length_cons, List.length_map] at hlength
        omega
      refine ⟨i + 1, by rw [hnbr, List.getElem?_cons_succ, hi], ?_⟩
      have hitem : r.item t = some (.cont cs[i]) := by
        apply h.written.neighbors p hp (t, .cont cs[i])
        apply List.mem_of_getElem? (i := i + 1)
        rw [List.getElem?_zip_eq_some, hnbr, hfst]
        refine ⟨by rw [List.getElem?_cons_succ, hi], ?_⟩
        rw [List.getElem?_cons_succ, List.getElem?_map, List.getElem?_eq_getElem hcs]
        rfl
      rw [h.cont hitem] at hx
      obtain rfl := Option.some.inj hx
      rw [List.getElem?_cons_succ, List.getElem?_eq_getElem hcs]
      exact hc

/-- A chunk's successor is at the next place. -/
theorem ChunksOf.succ {p : BuildNode V × Places} {cs : List (InlineChunk Q)}
    (h : ChunksOf oc b nodes p cs) (hnbr : p.2.nbr = p.2.nbrtid :: p.2.nbr.tail) {i : Nat}
    {c : InlineChunk Q} (hc : cs[i]? = some c) (hv : c.next.isValid = true) :
    p.2.nbr[i + 1]? = some c.next := by
  have hnext : (cs.map InlineChunk.next)[i]? = some c.next := by rw [List.getElem?_map, hc]; rfl
  rw [h.next, hnbr, List.cons_append, List.tail_cons] at hnext
  rw [hnbr, List.getElem?_cons_succ]
  obtain hlt | hge := Nat.lt_or_ge i p.2.nbr.tail.length
  · rwa [List.getElem?_append_left hlt] at hnext
  · rw [List.getElem?_append_right hge] at hnext
    have hlast := List.mem_of_getElem? hnext
    rw [List.mem_singleton.mp hlast] at hv
    cases hv

omit [Inhabited Q] in
theorem target_mem {places : List Places} {slot : Int} {p : BuildNode V × Places}
    (h : target nodes places slot = some p) : p ∈ nodes.zip places := by
  unfold target at h
  split at h
  · cases h
  obtain ⟨node, hnode, h⟩ := Option.bind_eq_some_iff.mp h
  obtain ⟨place, hplace, heq⟩ := Option.bind_eq_some_iff.mp h
  cases heq
  exact List.mem_of_getElem? (List.getElem?_zip_eq_some.mpr ⟨hnode, hplace⟩)

/-- A valid entry repeats the element of the node it was filled from. -/
theorem Patched.describes (h : Patched oc b nodes r r' f) {slot : Int}
    (hv : (slotEntry oc b nodes (memPreassignTids oc b nodes) slot).valid = true) :
    Describes oc b.dims (slotEntry oc b nodes (memPreassignTids oc b nodes) slot) r' := by
  unfold slotEntry at hv ⊢
  cases htarget : target nodes (memPreassignTids oc b nodes) slot with
  | none =>
    rw [htarget] at hv
    cases hv
  | some p =>
    have hp : p ∈ nodes.zip (memPreassignTids oc b nodes) := target_mem htarget
    exact ⟨p.1.element p.2, Relation.element_some.mpr (h.element hp), rfl, rfl, rfl, rfl, rfl, id⟩

/-- **What a flush leaves is coherent.** -/
theorem Patched.coherent (h : Patched oc b nodes r r' f)
    (hdims : r'.metaPage.dimensions = b.dims) : Coherent oc b.dims r' where
  dimensions := hdims
  right {t c} hc := by
    obtain ⟨p, hp, cs, hcs, i, hi, hci⟩ := h.chunk hc
    refine ⟨fun entry hentry hv => ?_, fun hv => ?_⟩
    · obtain ⟨slot, rfl⟩ := hcs.entries c (List.mem_of_getElem? hci) entry hentry
      exact h.describes hv
    · have hnbr := h.written.nbr_eq hp
      have hnext := hcs.succ hnbr hci hv
      rw [hnbr, List.getElem?_cons_succ] at hnext
      obtain ⟨cs', hconts, -⟩ := h.written.continuations hp
      obtain ⟨c', -, hc'⟩ := hconts _ (List.mem_of_getElem? hnext)
      exact ⟨c', h.cont hc'⟩
  ranked := by
    -- places count down
    have hnodup := (List.nodup_append.mp h.written.distinct).1
    let all := (nodes.zip (memPreassignTids oc b nodes)).flatMap fun p => p.2.nbr
    refine ⟨fun t => all.length - all.idxOf t, all.length, fun t => Nat.sub_le _ _,
      fun {t c} hc hv => ?_⟩
    obtain ⟨p, hp, cs, hcs, i, hi, hci⟩ := h.chunk hc
    obtain ⟨k, hk⟩ := idxOf_flatMap hnodup hp
    have hnext := hcs.succ (h.written.nbr_eq hp) hci hv
    have hlt : all.idxOf c.next < all.length := by
      apply List.idxOf_lt_length_of_mem
      exact List.mem_flatMap.mpr ⟨p, hp, List.mem_of_getElem? hnext⟩
    have h₁ : all.idxOf t = k + i := hk hi
    have h₂ : all.idxOf c.next = k + (i + 1) := hk hnext
    dsimp only
    omega

theorem memFlush_coherent {g : BuildGraph V} (hg : g.Flushable oc b) {s s' : Disk I V Q}
    (hempty : s.relation.pages = []) (hmeta : s.relation.metaPage.hasEntry = false)
    (hdims : s.relation.metaPage.dimensions = b.dims) (h : memFlush oc b g s = some s') :
    Coherent oc s'.relation.metaPage.dimensions s'.relation := by
  obtain ⟨r, f, hput, -⟩ := memFlush_patched hg hempty h
  obtain ⟨-, hgeometry, -⟩ := memFlush_laid hg hempty hmeta h
  have hsame : s'.relation.metaPage.dimensions = b.dims := hgeometry.dimensions.trans hdims
  rw [hsame]
  exact hput.coherent hsame

end

/-! ### From a build on -/

section
variable {I V Q D : Type} [DecidableEq I] [CDouble D] [Inhabited Q]

/-- A build is upheld: every node is still at its place, marked only if its heap row is dead, and
scans can read the index. -/
structure Upheld {mb : MemBuild V} (oc : Opclass V Q D) (g : MemGraph mb)
    (heaptid place : Fin mb.nNodes → Tid) (reaped : Tid → Bool) (r : Relation V Q) : Prop where
  node : ∀ {id : Fin mb.nNodes}, id.val < g.pushed → ∃ e, r.element (place id) = some e ∧
    e.level = (mb.nodes id).level ∧ e.heaptid = heaptid id ∧ e.filterVal = (mb.nodes id).filterVal ∧
      e.vec = (mb.nodes id).vec ∧
        (e.deleted = true → (heaptid id).isValid = true → reaped (heaptid id) = true)
  readable : Readable oc r
  modes : ModesAgree D r

/-- A heap row that no other one is with is dead if none is live. -/
theorem reaped_of_singleHeaptid {reaped : Tid → Bool} {t : Tid}
    (h : anyLive reaped (singleHeaptid t).toList = false) (hv : t.isValid = true) :
    reaped t = true := by
  have hlist : (singleHeaptid t).toList = t :: List.replicate 9 Tid.invalid := rfl
  rw [hlist, anyLive, hv] at h
  by_contra hlive
  rw [Bool.not_eq_true] at hlive
  rw [hlive] at h
  cases h

/-- **CREATE INDEX, then any inserts and vacuums.** The build ends; an index that its graph is
flushed to has that graph; and in any interleaving of the commands that run then, the build is
upheld at every instant. -/
theorem build_then_sessions (H : PairingHeap) (hD : TotalOrder D) (mb : MemBuild V)
    (oc : Opclass V Q D) (o : MemSettings) (dims : Nat) (inlineVectors : Bool) (hefc : 1 ≤ o.efc)
    (hm : 0 < mb.mEff) (hpayload : 0 < mb.payloadM)
    (hwidth : t2L0Width mb.mEff mb.payloadM ≤ hnswMaxNeighbors) (hstray : NeverStray mb oc.dist o)
    (hfits : mb.FitsPages oc (mb.params dims inlineVectors)) (n : Nat) (hn : n ≤ mb.nNodes)
    (natts fuel : Nat) (opts : RdOptions) (reaped : Tid → Bool) :
    ∃ g : MemGraph mb, (∃ bound, ∀ fuel ≥ bound,
        (memInsertAll H oc.dist fuel o n).exec (.init mb) = some ((), g)) ∧
      ∀ (heaptid : Fin mb.nNodes → Tid) (s s' : Disk I V Q),
        s.relation = emptyIndex V Q mb.mEff mb.payloadM dims inlineVectors →
        memFlush oc (mb.params dims inlineVectors) (g.flushed heaptid) s = some s' →
        Represents g heaptid (g.place oc (mb.params dims inlineVectors) heaptid) s'.relation ∧
        ∀ p : Sessions I V Q, Runs (serve H oc natts fuel) (Permitted reaped)
          (.start opts s'.relation (Relation.entries s'.relation)) p →
            Upheld oc g heaptid (g.place oc (mb.params dims inlineVectors) heaptid) reaped
              p.shared.relation := by
  obtain ⟨_, g, hbound, hg, rfl⟩ := memInsertAll_ends H hD hefc hm hstray n hn _ rfl
  refine ⟨g, hbound, fun heaptid s s' hs hflush => ?_⟩
  obtain ⟨hr, hstart⟩ := hg.memFlush hm hpayload hwidth hfits hs hflush
  have hcoherent : Coherent oc s'.relation.metaPage.dimensions s'.relation :=
    memFlush_coherent (hg.flushable heaptid hfits) (by rw [hs]; rfl) (by rw [hs]; rfl)
      (by rw [hs]; rfl) hflush
  refine ⟨hr, fun p hrun => ?_⟩
  have hread := readable_of_runs hstart hcoherent hrun
  obtain ⟨hreaps, -⟩ := follows_of_runs hrun
  refine ⟨fun {id} hid => ?_, hread, hread.modesAgree⟩
  obtain ⟨nbrtid, he⟩ := hr.element hid
  obtain ⟨e', he', hsame, -⟩ := hreaps.kept _ _ he
  obtain ⟨hlevel, hheap, -, hfilter, hvec⟩ := ElementTuple.fields_of_unmarked hsame
  refine ⟨e', he', hlevel, ?_, hfilter, hvec, fun hd hv => ?_⟩
  · rw [ElementTuple.heaptid, hheap]
    rfl
  · obtain ⟨e, he₁, hd₁⟩ | hdead := hreaps.marked _ _ he' hd
    · -- nothing was marked at the start
      obtain rfl := Option.some.inj (he₁.symm.trans he)
      cases hd₁
    · rw [hheap] at hdead
      exact reaped_of_singleHeaptid hdead hv

end

/-- The three nodes on a line, with inline vectors; whatever rows die. -/
theorem build_then_sessions_line : ∃ g : MemGraph lineNodes,
    (∃ bound, ∀ fuel ≥ bound,
      (memInsertAll PairingHeap.list ladderOps.dist fuel lineSettings 3).exec (.init lineNodes) =
        some ((), g)) ∧
    ∀ s', memFlush ladderOps (lineNodes.params 1 true) (g.flushed lineHeap) lineIndex = some s' →
      Represents g lineHeap (g.place ladderOps (lineNodes.params 1 true) lineHeap) s'.relation ∧
      ∀ p : Sessions (Fin 2) Int Unit, Runs (serve PairingHeap.list ladderOps 1 20)
        (Permitted fun _ => true)
        (.start pointOptions s'.relation (Relation.entries s'.relation)) p →
          Upheld ladderOps g lineHeap (g.place ladderOps (lineNodes.params 1 true) lineHeap)
            (fun _ => true) p.shared.relation := by
  obtain ⟨g, hbound, h⟩ := build_then_sessions (I := Fin 2) PairingHeap.list totalOrder_int
    lineNodes ladderOps lineSettings 1 true (by decide) (by decide) (by decide) (by decide)
    (.inr (by decide)) (by unfold MemBuild.FitsPages; decide) 3 le_rfl 1 20 pointOptions
    fun _ => true
  exact ⟨g, hbound, fun s' => h lineHeap lineIndex s' rfl⟩

end PgAcorn.Build
