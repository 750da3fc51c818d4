import PgAcorn.Scan.Discover

/-! Expansion over inline entries.

The walk over an expanded node's chunks visits its layer-0 slots in chunk order,
then whatever slots no chunk covered. It keeps `WalkInv`: the candidates are
exactly the newly visited slot targets, and every covered slot's target is
visited. Once all slots are covered the walk has collected the layer-0
neighbors, as the page-reading expansion does. -/
namespace PgAcorn.Scan
open Library

section Walk
variable {V Q D : Type}

/-- The walk over the slots `tids`, from a visited set. -/
structure WalkInv (r : Relation V Q) (tids visited : List Tid) (w : Walk Q) : Prop where
  perm : List.Perm w.visited (w.cands.map Prod.fst ++ visited)
  nodup : visited.Nodup → w.visited.Nodup
  targets : ∀ c ∈ w.cands, c.1 ∈ validTids tids
  covered : ∀ j ∈ w.covered, ∀ t, tids[j]? = some t → t.isValid = true → t ∈ w.visited
  entries : ∀ c ∈ w.cands, ∀ e, c.2 = some e →
    Relation.HasEntry r e ∧ e.valid = true ∧ e.indextid = c.1

theorem WalkInv.start (r : Relation V Q) (tids visited : List Tid) :
    WalkInv r tids visited ⟨visited, [], []⟩ :=
  ⟨by simp, id, by simp, by simp, by simp⟩

theorem WalkInv.sub {r : Relation V Q} {tids visited : List Tid} {w : Walk Q}
    (h : WalkInv r tids visited w) {t : Tid} (ht : t ∈ w.visited) :
    t ∈ visited ∨ t ∈ validTids tids := by
  rcases List.mem_append.mp (h.perm.mem_iff.mp ht) with ht | ht
  · obtain ⟨c, hc, rfl⟩ := List.mem_map.mp ht
    exact .inr (h.targets c hc)
  · exact .inl ht

/-- Visiting a slot's target keeps the invariant and visits the target. -/
theorem WalkInv.visitSlot {r : Relation V Q} {tids visited : List Tid} {w : Walk Q}
    (h : WalkInv r tids visited w) (t : Tid) (oe : Option (InlineEntry Q))
    (ht : t.isValid = true → t ∈ tids)
    (he : ∀ e, oe = some e → Relation.HasEntry r e ∧ e.valid = true ∧ e.indextid = t) :
    WalkInv r tids visited (w.visitSlot t oe) ∧
      (∀ u ∈ w.visited, u ∈ (w.visitSlot t oe).visited) ∧
      (w.visitSlot t oe).covered = w.covered ∧
      (t.isValid = true → t ∈ (w.visitSlot t oe).visited) := by
  unfold Walk.visitSlot visitOnce markVisited
  cases hv : t.isValid with
  | false => exact ⟨h, fun _ => id, rfl, fun hv' => absurd hv' (by simp)⟩
  | true =>
    by_cases hmem : t ∈ w.visited
    · simp only [hmem, Bool.not_true, Bool.false_eq_true, if_false, decide_true, if_true]
      exact ⟨h, fun _ => id, rfl, fun _ => hmem⟩
    · simp only [hmem, Bool.not_true, Bool.false_eq_true, if_false, decide_false, Bool.not_false]
      refine ⟨⟨?_, ?_, ?_, ?_, ?_⟩, fun u hu => List.mem_cons_of_mem _ hu, trivial, by simp⟩
      · rw [List.map_append, List.append_assoc]
        exact (List.Perm.cons t h.perm).trans List.perm_middle.symm
      · exact fun hn => List.nodup_cons.mpr ⟨hmem, h.nodup hn⟩
      · intro c hc
        rcases List.mem_append.mp hc with hc | hc
        · exact h.targets c hc
        · obtain rfl := List.mem_singleton.mp hc
          exact mem_validTids.mpr ⟨ht hv, hv⟩
      · exact fun j hj u hu huv => List.mem_cons_of_mem _ (h.covered j hj u hu huv)
      · intro c hc e hce
        rcases List.mem_append.mp hc with hc | hc
        · exact h.entries c hc e hce
        · obtain rfl := List.mem_singleton.mp hc
          exact he e hce

/-- What a step of the walk keeps. -/
structure WalkStep (r : Relation V Q) (tids visited : List Tid) (w w' : Walk Q) : Prop where
  inv : WalkInv r tids visited w'
  mono : ∀ u ∈ w.visited, u ∈ w'.visited

theorem entryFor_some {chunk : InlineChunk Q} {j : Nat} {t : Tid} {e : InlineEntry Q}
    (h : InlineChunk.entryFor chunk j t = some e) :
    e ∈ chunk.entries ∧ e.valid = true ∧ e.indextid = t := by
  unfold InlineChunk.entryFor at h
  split at h
  · rename_i e' he'
    split at h
    · rename_i hcond
      obtain rfl := Option.some.inj h
      rw [Bool.and_eq_true, decide_eq_true_eq] at hcond
      exact ⟨List.mem_of_getElem? he', hcond.1, hcond.2⟩
    · cases h
  · cases h

theorem WalkInv.walkSlot {r : Relation V Q} {tids visited : List Tid} {w : Walk Q}
    (h : WalkInv r tids visited w) (chunk : InlineChunk Q)
    (hchunk : ∀ e ∈ chunk.entries, Relation.HasEntry r e) (j : Nat) :
    WalkStep r tids visited w (walkSlot tids chunk w j) := by
  unfold Scan.walkSlot
  split
  · exact ⟨h, fun _ => id⟩
  · cases ht : tids[j]? with
    | none =>
      refine ⟨⟨h.perm, h.nodup, h.targets, fun i hi t hti => ?_, h.entries⟩, fun _ => id⟩
      obtain rfl | hi := List.mem_cons.mp hi
      · rw [ht] at hti
        cases hti
      · exact h.covered i hi t hti
    | some t =>
      have hslot := h.visitSlot t (InlineChunk.entryFor chunk j t)
        (fun _ => List.mem_of_getElem? ht) fun e he => by
          obtain ⟨hmem, hvalid, hid⟩ := entryFor_some he
          exact ⟨hchunk e hmem, hvalid, hid⟩
      obtain ⟨hinv, hmono, hcov, hvis⟩ := hslot
      -- covering the slot first changes nothing else
      have hswap : ({ w with covered := j :: w.covered } : Walk Q).visitSlot t
          (InlineChunk.entryFor chunk j t) =
          { w.visitSlot t (InlineChunk.entryFor chunk j t) with
            covered := j :: w.covered } := by
        unfold Walk.visitSlot
        dsimp only
        split
        · rfl
        · split <;> rfl
      show WalkStep r tids visited w (Walk.visitSlot _ t _)
      rw [hswap]
      refine ⟨⟨hinv.perm, hinv.nodup, hinv.targets, fun i hi u hiu huv => ?_, hinv.entries⟩, hmono⟩
      obtain rfl | hi := List.mem_cons.mp hi
      · rw [ht] at hiu
        obtain rfl := Option.some.inj hiu
        exact hvis huv
      · exact hmono u (h.covered i hi u hiu huv)

theorem WalkStep.trans {r : Relation V Q} {tids visited : List Tid} {w w' w'' : Walk Q}
    (h : WalkStep r tids visited w w') (h' : WalkStep r tids visited w' w'') :
    WalkStep r tids visited w w'' :=
  ⟨h'.inv, fun u hu => h'.mono u (h.mono u hu)⟩

theorem WalkInv.walkChunk {r : Relation V Q} {tids visited : List Tid} {w : Walk Q}
    (h : WalkInv r tids visited w) (chunk : InlineChunk Q)
    (hchunk : ∀ e ∈ chunk.entries, Relation.HasEntry r e) :
    WalkStep r tids visited w (walkChunk tids w chunk) := by
  unfold Scan.walkChunk
  generalize List.range' chunk.start _ = js
  induction js generalizing w with
  | nil => exact ⟨h, fun _ => id⟩
  | cons j js ih =>
    have hstep := h.walkSlot chunk hchunk j
    exact hstep.trans (ih hstep.inv)

/-- The chain walk ends wherever the chain does, whatever fuel is left. -/
theorem WalkInv.walkChain {S : Stream V Q D} {tids visited : List Tid} {w : Walk Q}
    (h : WalkInv S.index tids visited w) {t : Tid} {k : Nat}
    (hends : Relation.ChainEnds S.index t k) :
    ∃ w', (∀ fuel > k, walkChain S tids fuel t w = some w') ∧
      WalkStep S.index tids visited w w' := by
  induction hends generalizing w with
  | last ht =>
    refine ⟨w, fun fuel hfuel => ?_, h, fun _ => id⟩
    obtain ⟨n, rfl⟩ := Nat.exists_eq_add_of_lt hfuel
    simp [Scan.walkChain, ht]
  | @broken t x hx hcont =>
    refine ⟨w, fun fuel hfuel => ?_, h, fun _ => id⟩
    obtain ⟨n, rfl⟩ := Nat.exists_eq_add_of_lt hfuel
    have hvalid := (Relation.isValid_of_item hx).1
    cases x with
    | element e => simp [Scan.walkChain, hvalid, hx]
    | neighbor m => simp [Scan.walkChain, hvalid, hx]
    | cont c => exact absurd rfl (hcont c)
  | @cons t c k hc hends ih =>
    have hvalid := (Relation.isValid_of_item hc).1
    have hstep := h.walkChunk c fun e he => .cont hc he
    obtain ⟨w', hw', hstep'⟩ := ih hstep.inv
    refine ⟨w', fun fuel hfuel => ?_, hstep.trans hstep'⟩
    obtain ⟨n, rfl⟩ := Nat.exists_eq_add_of_lt hfuel
    simp only [Scan.walkChain, hvalid, hc]
    exact hw' _ (by omega)

/-- After the slots no chunk covered, every valid slot's target is visited. -/
theorem WalkInv.walkRest {r : Relation V Q} {tids visited : List Tid} {w : Walk Q}
    (h : WalkInv r tids visited w) :
    WalkInv r tids visited (walkRest tids w) ∧
      ∀ t, t ∈ (walkRest tids w).visited ↔ t ∈ visited ∨ t ∈ validTids tids := by
  -- processing the slots `js` visits their targets and keeps what was visited
  have hfold : ∀ (js : List Nat) (w : Walk Q), WalkInv r tids visited w →
      WalkStep r tids visited w (js.foldl (fun w j => if j ∈ w.covered then w
        else w.visitSlot (tids[j]?.getD Tid.invalid) none) w) ∧
      ∀ j ∈ js, ∀ t, tids[j]? = some t → t.isValid = true →
        t ∈ (js.foldl (fun w j => if j ∈ w.covered then w
          else w.visitSlot (tids[j]?.getD Tid.invalid) none) w).visited := by
    intro js
    induction js with
    | nil => exact fun w hw => ⟨⟨hw, fun _ => id⟩, by simp⟩
    | cons j js ih =>
      intro w hw
      rw [List.foldl_cons]
      by_cases hcov : j ∈ w.covered
      · rw [if_pos hcov]
        obtain ⟨hstep, hvis⟩ := ih w hw
        refine ⟨hstep, fun i hi t ht htv => ?_⟩
        obtain rfl | hi := List.mem_cons.mp hi
        · exact hstep.mono t (hw.covered i hcov t ht htv)
        · exact hvis i hi t ht htv
      · rw [if_neg hcov]
        have hslot := hw.visitSlot (tids[j]?.getD Tid.invalid) none
          (fun hv => by
            cases hj : tids[j]? with
            | none => simp [hj] at hv
            | some t => exact List.mem_of_getElem? hj) (by simp)
        obtain ⟨hinv, hmono, -, htarget⟩ := hslot
        obtain ⟨hstep, hvis⟩ := ih _ hinv
        refine ⟨⟨hstep.inv, fun u hu => hstep.mono u (hmono u hu)⟩, fun i hi t ht htv => ?_⟩
        obtain rfl | hi := List.mem_cons.mp hi
        · rw [ht, Option.getD_some] at htarget hstep
          rw [ht, Option.getD_some]
          exact hstep.mono t (htarget htv)
        · exact hvis i hi t ht htv
  obtain ⟨hstep, hvis⟩ := hfold (List.range tids.length) w h
  refine ⟨hstep.inv, fun t => ⟨hstep.inv.sub, fun ht => ?_⟩⟩
  rcases ht with ht | ht
  · exact hstep.inv.perm.mem_iff.mpr (List.mem_append_right _ ht)
  · obtain ⟨hmem, hvalid⟩ := mem_validTids.mp ht
    obtain ⟨j, hj, rfl⟩ := List.getElem_of_mem hmem
    exact hvis j (List.mem_range.mpr hj) _ (List.getElem?_eq_getElem hj) hvalid

/-- A valid entry that names an element is a genuine discovery of it. -/
theorem genuine_ofEntry {S : Stream V Q D} (hS : Serves S) (base : Tid) {entry : InlineEntry Q}
    {e : ElementTuple V} (hon : S.inlineOn = true) (h : Relation.HasEntry S.index entry)
    (hv : entry.valid = true) (he : S.index.element entry.indextid = some e) :
    Genuine S base (Discovery.ofEntry S entry) e := by
  obtain ⟨hnbr, hlevel, hfval, hdel⟩ := (hS.inline hon).1.entries h hv he
  refine ⟨he, .entry hon h hv, hfval, fun _ => ⟨hnbr, hlevel⟩, hdel, fun hap => ?_⟩
  simp [Stream.approx, hon] at hap

end Walk

section Expand
variable {V Q D : Type} [CDouble D] {H : PairingHeap}

/-- Queueing the walk's candidates, by induction on them. -/
theorem pushCands_spec {S : Stream V Q D} (hS : Serves S) (hon : S.inlineOn = true) (base : Tid)
    (s : State H D) (cs : List (Tid × Option (InlineEntry Q)))
    (hcs : ∀ c ∈ cs, (∃ e, S.index.element c.1 = some e) ∧
      ∀ e, c.2 = some e → Relation.HasEntry S.index e ∧ e.valid = true ∧ e.indextid = c.1) :
    ∃ ds s', cs.foldlM (pushCand S) s = some s' ∧ Pushed S ds s s' ∧ s'.visited = s.visited ∧
      ds.map Discovery.indextid = cs.map Prod.fst ∧ ∀ d ∈ ds, ∃ e, Genuine S base d e := by
  induction cs generalizing s with
  | nil => exact ⟨[], s, rfl, Pushed.nil S s s.visited, rfl, rfl, by simp⟩
  | cons c cs ih =>
    obtain ⟨t, oe⟩ := c
    obtain ⟨⟨e, he⟩, hentry⟩ := hcs (t, oe) (by simp)
    have hone : ∃ d, pushCand S s (t, oe) = some (push S s d) ∧ d.indextid = t ∧
        Genuine S base d e := by
      cases oe with
      | some entry =>
        obtain ⟨hhas, hv, rfl⟩ := hentry entry rfl
        exact ⟨_, rfl, rfl, genuine_ofEntry hS base hon hhas hv he⟩
      | none =>
        obtain ⟨d, hd, hid, hgen⟩ := genuine_loadNode base he
          (.inr (by rw [(hS.inline hon).2]; rfl)) true
        exact ⟨d, by simp only [pushCand, hd, Option.map_some], hid, hgen⟩
    obtain ⟨d, hd, hid, hgen⟩ := hone
    obtain ⟨ds, s', hs', hpushed, hvis, hmap, hgens⟩ := ih (push S s d) fun c hc =>
      hcs c (List.mem_cons_of_mem _ hc)
    refine ⟨d :: ds, s', ?_, (Pushed.single S s d).trans hpushed, by rw [hvis, visited_push], ?_,
      fun d' hd' => ?_⟩
    · rw [List.foldlM_cons, hd]
      exact hs'
    · rw [List.map_cons, List.map_cons, hmap, hid]
    · obtain rfl | hd' := List.mem_cons.mp hd'
      · exact ⟨e, hgen⟩
      · exact hgens d' hd'

/-- `acorn_t2_stream_expand_inline` discovers the layer-0 neighbors, given fuel
for the longest chain. -/
theorem t2StreamExpandInline_spec {S : Stream V Q D} (hS : Serves S) (hon : S.inlineOn = true) :
    ∃ bound, ∀ {base : Tid} (s : State H D) {ce : Elem D} {e : ElementTuple V},
      Candidate S base ce e →
      ∃ ds s', (∀ fuel > bound, t2StreamExpandInline S fuel s ce = some s') ∧
        Discovers S base (S.index.layerNeighbors 0 ce.indextid) ds s s' := by
  obtain ⟨bound, hchains⟩ := (hS.inline hon).1.chains
  refine ⟨bound, fun {base} s {ce e} hc => ?_⟩
  obtain ⟨n, hn, hcount⟩ := hS.index.neighbors hc.element
  obtain ⟨chunk, hchunk⟩ := (hS.inline hon).1.chunk hc.element hn
  obtain ⟨k, hk, hends⟩ := hchains hc.element hn hchunk
  have htids : slotRange n.tids (hnswNeighborStart S.m (t2LevelFromCount n.count S.m S.payloadM) 0)
      (t2L0Width S.m S.payloadM) =
      some (layerSlots S.m S.payloadM e.level 0 n.tids) := by
    rw [hcount, hS.m, hS.payloadM, t2LevelFromCount_totalSlots hS.index.m_pos]
    exact Relation.slotRange_layer hcount (Nat.zero_le _)
  have hlayer : S.index.layerNeighbors 0 ce.indextid =
      validTids (layerSlots S.m S.payloadM e.level 0 n.tids) := by
    rw [Relation.layerNeighbors_eq hc.element hn, hS.m, hS.payloadM]
  generalize htidsdef : layerSlots S.m S.payloadM e.level 0 n.tids = tids at htids hlayer
  have hstart := WalkInv.start S.index tids s.visited
  have hfirst := hstart.walkChunk chunk fun e he => .primary hn hchunk he
  obtain ⟨w, hw, hchain⟩ := hfirst.inv.walkChain hends
  obtain ⟨hinv, hvisited⟩ := hchain.inv.walkRest
  have hcands : ∀ c ∈ (walkRest tids w).cands, (∃ e, S.index.element c.1 = some e) ∧
      ∀ e, c.2 = some e → Relation.HasEntry S.index e ∧ e.valid = true ∧ e.indextid = c.1 := by
    intro c hcmem
    have htarget : c.1 ∈ S.index.layerNeighbors 0 ce.indextid := by
      rw [hlayer]
      exact hinv.targets c hcmem
    obtain ⟨e', he', -⟩ := hS.index.targets hc.element (Nat.zero_le _) htarget
    exact ⟨⟨e', he'⟩, hinv.entries c hcmem⟩
  obtain ⟨ds, s', hs', hpushed, hvis, hmap, hgen⟩ := pushCands_spec hS hon base
    { s with visited := (walkRest tids w).visited } (walkRest tids w).cands hcands
  refine ⟨ds, s', ?_, ?_⟩
  · intro fuel hfuel
    rw [t2StreamExpandInline, candidateNbr_eq hc.element hc.nbr]
    simp only [Option.bind_eq_bind, Option.bind_some, hn, htids, hchunk, hw fuel (by omega)]
    exact hs'
  · refine ⟨(Pushed.nil S s _).trans hpushed, ?_, fun hnd => ?_, fun t => ?_, hgen⟩
    · rw [hvis, hmap]
      exact hinv.perm
    · rw [hvis]
      exact hinv.nodup hnd
    · rw [hvis, hlayer]
      exact hvisited t

end Expand

end PgAcorn.Scan
