import PgAcorn.Build.ReadBack
import PgAcorn.Build.Survives
import PgAcorn.Scan.Inline

/-! The chain of inline chunks.

The chunks of a neighbor tuple tile its layer-0 slots, so that their entries are one array
(`slotEntries`). What a scan collects on the chain is what it would collect on one chunk
that holds the array (`walk_tiled`), and `acorn_t2_inline_write_entry` sets one place of it
(`TiledChain.write`). No operation of an insert breaks such a chain (`survives_tiled`). -/
namespace PgAcorn.Build
open Library

section
variable {I V Q D : Type}

/-! ### Chunks and slots -/

/-- The chunks of a neighbor tuple, the primary one first. -/
def ChunkChain (r : Relation V Q) (t : Tid) : List (InlineChunk Q) → Prop
  | [] => False
  | c :: cs => (r.item t).bind IndexTuple.chunk? = some c ∧ Chain r c.next cs

/-- The entries of all chunks. -/
def slotEntries (cs : List (InlineChunk Q)) : List (InlineEntry Q) := cs.flatMap InlineChunk.entries

/-- Chunks of a node's neighbor tuple that tile its layer-0 slots. -/
structure TiledChain (b : BuildParams) (level : Nat) (r : Relation V Q) (t : Tid)
    (cs : List (InlineChunk Q)) : Prop where
  count : ∃ n, r.neighbor t = some n ∧ n.count = t2TotalSlots level b.mEff b.payloadM
  chain : ChunkChain r t cs
  spans : cs.map chunkSpan = chunks b level

/-- Where a chain has a slot: whether that is the neighbor tuple, the tuple and its chunk. -/
def locate (slot : Nat) : Bool → Tid → List (InlineChunk Q) → Option (Bool × Tid × InlineChunk Q)
  | _, _, [] => none
  | primary, t, c :: cs =>
    if covers (chunkSpan c) slot then some (primary, t, c) else locate slot false c.next cs

/-- The chunk with the entry of a slot rewritten, if it covers the slot. -/
def putEntry (slot : Nat) (entry : InlineEntry Q) (c : InlineChunk Q) : InlineChunk Q :=
  if covers (chunkSpan c) slot then { c with entries := c.entries.set (slot - c.start) entry } else c

section
variable {r : Relation V Q} {t u : Tid} {cs : List (InlineChunk Q)} {c : InlineChunk Q}
  {slot a stop : Nat} {primary first : Bool} {entry : InlineEntry Q}

theorem covers_chunkSpan : covers (chunkSpan c) slot ↔
    c.start ≤ slot ∧ slot < c.start + c.entries.length := covers_iff

theorem tiles_chunkSpan : Tiles stop a ((c :: cs).map chunkSpan) ↔
    c.start = a ∧ Tiles stop (a + c.entries.length) (cs.map chunkSpan) := tiles_cons

/-- The chunks after those that end before a slot. -/
theorem not_covers_of_tiles (h : Tiles stop a (cs.map chunkSpan)) (hlt : slot < a) :
    ∀ c ∈ cs, ¬ covers (chunkSpan c) slot := by
  intro c hc hcovers
  have hstart := (h.mem_le (List.mem_map.mpr ⟨c, hc, rfl⟩)).1
  have hle := (covers_chunkSpan.mp hcovers).1
  change a ≤ c.start at hstart
  omega

theorem length_slotEntries (h : Tiles stop a (cs.map chunkSpan)) :
    (slotEntries cs).length = stop - a := by
  induction cs generalizing a with
  | nil =>
    cases h
    simp [slotEntries]
  | cons c cs ih =>
    obtain ⟨-, hrest⟩ := tiles_chunkSpan.mp h
    have hle := hrest.le
    have hlength : (slotEntries (c :: cs)).length = c.entries.length + (slotEntries cs).length :=
      List.length_append
    rw [hlength, ih hrest]
    omega

/-- **The entries of a chunk** are those of its slots. -/
theorem slotEntries_get (h : Tiles stop a (cs.map chunkSpan)) (hc : c ∈ cs)
    (hcovers : covers (chunkSpan c) slot) : (slotEntries cs)[slot - a]? = c.entries[slot - c.start]? := by
  induction cs generalizing a with
  | nil => cases hc
  | cons c' cs ih =>
    obtain ⟨rfl, hrest⟩ := tiles_chunkSpan.mp h
    obtain ⟨hstart, hend⟩ := covers_chunkSpan.mp hcovers
    show (c'.entries ++ slotEntries cs)[slot - c'.start]? = _
    by_cases hlt : slot < c'.start + c'.entries.length
    · obtain rfl | hc := List.mem_cons.mp hc
      · rw [List.getElem?_append_left (by omega)]
      · exact absurd hcovers (not_covers_of_tiles hrest hlt c hc)
    · obtain rfl | hc := List.mem_cons.mp hc
      · omega
      · rw [List.getElem?_append_right (by omega), ← ih hrest hc]
        congr 1
        omega

theorem map_putEntry (h : ∀ c ∈ cs, ¬ covers (chunkSpan c) slot) :
    cs.map (putEntry slot entry) = cs :=
  (List.map_congr_left (g := id) fun c hc => if_neg (h c hc)).trans (List.map_id cs)

/-- **The entry of one slot** of the array. -/
theorem slotEntries_put (h : Tiles stop a (cs.map chunkSpan)) (ha : a ≤ slot) :
    slotEntries (cs.map (putEntry slot entry)) = (slotEntries cs).set (slot - a) entry := by
  induction cs generalizing a with
  | nil => rfl
  | cons c cs ih =>
    obtain ⟨rfl, hrest⟩ := tiles_chunkSpan.mp h
    show (putEntry slot entry c).entries ++ slotEntries (cs.map (putEntry slot entry)) =
      (c.entries ++ slotEntries cs).set (slot - c.start) entry
    by_cases hlt : slot < c.start + c.entries.length
    · rw [map_putEntry (not_covers_of_tiles hrest hlt), List.set_append_left _ _ (by omega)]
      unfold putEntry
      rw [if_pos (covers_chunkSpan.mpr ⟨ha, hlt⟩)]
    · have hnot : ¬ covers (chunkSpan c) slot := fun hc => hlt (covers_chunkSpan.mp hc).2
      have hoff : slot - c.start - c.entries.length = slot - (c.start + c.entries.length) := by omega
      rw [List.set_append_right _ _ (by omega), hoff, ← ih hrest (by omega)]
      unfold putEntry
      rw [if_neg hnot]

theorem chunkSpan_putEntry (c : InlineChunk Q) : chunkSpan (putEntry slot entry c) = chunkSpan c := by
  unfold putEntry
  split
  · exact Prod.ext rfl List.length_set
  · rfl

/-- **Every slot is somewhere.** -/
theorem locate_some (primary : Bool) (t : Tid) (h : Tiles stop a (cs.map chunkSpan)) (ha : a ≤ slot) (hlt : slot < stop) :
    ∃ first u c, locate slot primary t cs = some (first, u, c) := by
  induction cs generalizing a primary t with
  | nil =>
    cases h
    omega
  | cons c cs ih =>
    obtain ⟨rfl, hrest⟩ := tiles_chunkSpan.mp h
    unfold locate
    split
    · exact ⟨primary, t, c, rfl⟩
    · rename_i hnot
      rw [covers_chunkSpan] at hnot
      exact ih false c.next hrest (by omega)

/-! ### Writing an entry -/

theorem mem_of_locate (h : locate slot primary t cs = some (first, u, c)) :
    c ∈ cs ∧ covers (chunkSpan c) slot := by
  induction cs generalizing primary t with
  | nil => cases h
  | cons c' cs ih =>
    unfold locate at h
    split at h
    · cases h
      exact ⟨List.mem_cons_self, ‹_›⟩
    · obtain ⟨hmem, hcovers⟩ := ih h
      exact ⟨List.mem_cons_of_mem c' hmem, hcovers⟩

theorem chunk?_setEntry (idx : Nat) (x : IndexTuple V Q) : (setEntry idx entry x).chunk? =
    x.chunk?.map fun c => { c with entries := c.entries.set idx entry } := by
  cases x <;> rfl

theorem ChunkChain.of_chain (h : Chain r t (c :: cs)) : ChunkChain r t (c :: cs) := by
  obtain _ | ⟨hitem, hrest⟩ := h
  refine ⟨?_, hrest⟩
  rw [hitem]
  rfl

/-- The tuple a slot is in. -/
theorem item_of_locate (hchain : ChunkChain r t cs)
    (h : locate slot primary t cs = some (first, u, c)) :
    (r.item u).bind IndexTuple.chunk? = some c := by
  induction cs generalizing primary t with
  | nil => cases h
  | cons c' cs ih =>
    unfold locate at h
    split at h
    · cases h
      exact hchain.1
    · cases cs with
      | nil => cases h
      | cons c'' cs => exact ih (.of_chain hchain.2) h

/-- **The walk of `acorn_t2_inline_write_entry`** ends at the slot and writes its entry. -/
theorem t2InlineWriteEntry_located {s : Disk I V Q} (hchain : ChunkChain s.relation t cs)
    (h : locate slot primary t cs = some (first, u, c)) {fuel : Nat} (hfuel : cs.length ≤ fuel) :
    (t2InlineWriteEntry fuel t slot entry).exec s =
      some ((), s.withRelation (s.relation.update u (setEntry (slot - c.start) entry))) := by
  induction cs generalizing primary t fuel with
  | nil => cases h
  | cons c' cs ih =>
    obtain ⟨hitem, hrest⟩ := hchain
    obtain ⟨fuel, rfl⟩ : ∃ n, fuel = n + 1 := ⟨fuel - 1, by rw [List.length_cons] at hfuel; omega⟩
    have hread : (readChunk t : Prog (Disk I V Q) (InlineChunk Q)).exec s = some (c', s) :=
      Prog.exec_read hitem
    unfold t2InlineWriteEntry
    rw [Prog.bind_eq, Prog.exec_bind, hread, Option.bind_some]
    dsimp only
    unfold locate at h
    split at h
    · rename_i hcovers
      cases h
      rw [covers_chunkSpan] at hcovers
      rw [if_pos hcovers]
      apply Prog.exec_lift
      rw [hitem]
      dsimp only
      rw [if_pos (by omega)]
    · rename_i hcovers
      rw [covers_chunkSpan] at hcovers
      rw [if_neg hcovers]
      cases cs with
      | nil => cases h
      | cons c'' cs =>
        have hvalid : c'.next.isValid = true := by
          obtain _ | ⟨hnext, -⟩ := hrest
          exact (Relation.isValid_of_item hnext).1
        rw [hvalid]
        exact ih (.of_chain hrest) h (Nat.le_of_succ_le_succ hfuel)

/-- Continuations other than the tuple that is updated. -/
theorem Chain.update {f : IndexTuple V Q → IndexTuple V Q} (h : Chain r t cs)
    (hne : ∀ c ∈ cs, (r.item u).bind IndexTuple.chunk? ≠ some c) : Chain (r.update u f) t cs := by
  induction h with
  | nil ht => exact .nil ht
  | @cons t c cs hitem _ ih =>
    refine .cons ?_ (ih fun c' hc' => hne c' (List.mem_cons_of_mem c hc'))
    rw [Relation.item_update, if_neg]
    · exact hitem
    · rintro rfl
      apply hne c List.mem_cons_self
      rw [hitem]
      rfl

/-- The continuations of the chunk that is updated. -/
theorem Chain.after {f : IndexTuple V Q → IndexTuple V Q} (h : Chain r c.next cs)
    (hitem : (r.item u).bind IndexTuple.chunk? = some c) (hcovers : covers (chunkSpan c) slot)
    (hafter : ∀ c ∈ cs, ¬ covers (chunkSpan c) slot) : Chain (r.update u f) c.next cs := by
  apply h.update
  intro c' hc' heq
  rw [hitem] at heq
  exact hafter c' hc' (Option.some.inj heq ▸ hcovers)

/-- A chunk that does not have the slot is another tuple than the one that does. -/
theorem ne_of_not_covers {c' : InlineChunk Q} (hchunk : (r.item t).bind IndexTuple.chunk? = some c')
    (hitem : (r.item u).bind IndexTuple.chunk? = some c) (hcovers : covers (chunkSpan c) slot)
    (hnot : ¬ covers (chunkSpan c') slot) : t ≠ u := by
  rintro rfl
  rw [hchunk] at hitem
  exact hnot (Option.some.inj hitem ▸ hcovers)

/-- Only the chunk with the slot gets the entry. -/
theorem map_putEntry_cons (hcovers : covers (chunkSpan c) slot)
    (hafter : ∀ c ∈ cs, ¬ covers (chunkSpan c) slot) : (c :: cs).map (putEntry slot entry) =
      { c with entries := c.entries.set (slot - c.start) entry } :: cs := by
  rw [List.map_cons, map_putEntry hafter, putEntry, if_pos hcovers]

/-- The continuations after an entry of one of them is written. -/
theorem Chain.write (h : Chain r t cs) (htiles : Tiles stop a (cs.map chunkSpan))
    (hlocate : locate slot primary t cs = some (first, u, c)) :
    Chain (r.update u (setEntry (slot - c.start) entry)) t (cs.map (putEntry slot entry)) := by
  induction h generalizing primary a with
  | nil => cases hlocate
  | @cons t c' cs hitem hrest ih =>
    obtain ⟨rfl, htail⟩ := tiles_chunkSpan.mp htiles
    have hbind := item_of_locate (.of_chain (.cons hitem hrest)) hlocate
    unfold locate at hlocate
    split at hlocate
    · rename_i hcovers
      cases hlocate
      have hafter := not_covers_of_tiles htail (covers_chunkSpan.mp hcovers).2
      rw [map_putEntry_cons hcovers hafter]
      refine .cons ?_ (hrest.after hbind hcovers hafter)
      rw [Relation.item_update, if_pos rfl, hitem]
      rfl
    · rename_i hcovers
      have hput : putEntry slot entry c' = c' := if_neg hcovers
      have hchunk : (r.item t).bind IndexTuple.chunk? = some c' := by rw [hitem]; rfl
      have hne := ne_of_not_covers hchunk hbind (mem_of_locate hlocate).2 hcovers
      rw [List.map_cons, hput]
      refine .cons ?_ (ih htail hlocate)
      rw [Relation.item_update, if_neg hne]
      exact hitem

/-- **The chain after an entry is written** is the chain with that entry. -/
theorem ChunkChain.write (h : ChunkChain r t cs) (htiles : Tiles stop a (cs.map chunkSpan))
    (hlocate : locate slot primary t cs = some (first, u, c)) :
    ChunkChain (r.update u (setEntry (slot - c.start) entry)) t (cs.map (putEntry slot entry)) := by
  cases cs with
  | nil => cases hlocate
  | cons c' cs =>
    obtain ⟨rfl, htail⟩ := tiles_chunkSpan.mp htiles
    have hbind := item_of_locate h hlocate
    unfold locate at hlocate
    split at hlocate
    · rename_i hcovers
      cases hlocate
      have hafter := not_covers_of_tiles htail (covers_chunkSpan.mp hcovers).2
      rw [map_putEntry_cons hcovers hafter]
      refine ⟨?_, h.2.after hbind hcovers hafter⟩
      rw [Relation.item_update, if_pos rfl, Option.bind_map]
      obtain ⟨x, hx, hchunk⟩ := Option.bind_eq_some_iff.mp hbind
      rw [hx, Option.bind_some, Function.comp_apply, chunk?_setEntry, hchunk]
      rfl
    · rename_i hcovers
      have hput : putEntry slot entry c' = c' := if_neg hcovers
      have hne := ne_of_not_covers h.1 hbind (mem_of_locate hlocate).2 hcovers
      rw [List.map_cons, hput]
      refine ⟨?_, h.2.write htail hlocate⟩
      rw [Relation.item_update, if_neg hne]
      exact h.1

/-- The neighbor tuple itself, after an entry is written somewhere. -/
theorem neighbor_setEntry {n : NeighborTuple Q} (u : Tid) (idx : Nat) (entry : InlineEntry Q)
    (h : r.neighbor t = some n) :
    ∃ n', (r.update u (setEntry idx entry)).neighbor t = some n' ∧ n'.tids = n.tids := by
  rw [Relation.neighbor_some] at h
  by_cases hu : t = u
  · subst hu
    refine ⟨{ n with
      inline? := n.inline?.map fun c => { c with entries := c.entries.set idx entry } }, ?_, rfl⟩
    rw [Relation.neighbor_some, Relation.item_update, if_pos rfl, h]
    rfl
  · refine ⟨n, ?_, rfl⟩
    rw [Relation.neighbor_some, Relation.item_update, if_neg hu, h]

/-! ### Tiled chains -/

variable {b : BuildParams} {level : Nat}

/-- How many slots the chunks have: all of layer 0, if one entry fits a continuation. -/
theorem inlineCovered_eq (hentry : inlineContSize 1 (inlineEntrySize b.dims) ≤ hnswMaxSize)
    (level : Nat) : inlineCovered b level = t2L0Width b.mEff b.payloadM := by
  have hpos : 0 < inlineEntrySize b.dims := by
    unfold inlineEntrySize maxAlign
    omega
  have hcap : 0 < t2InlineContCap (inlineEntrySize b.dims) := by
    unfold inlineContSize at hentry
    exact Nat.div_pos (by omega) hpos
  unfold inlineCovered
  dsimp only
  rw [if_pos hcap]

theorem TiledChain.tiles (h : TiledChain b level r t cs) :
    Tiles (inlineCovered b level) 0 (cs.map chunkSpan) := h.spans ▸ tiles_chunks b level

/-- **An entry is written** to its place in the array. -/
theorem TiledChain.write {s : Disk I V Q} (h : TiledChain b level s.relation t cs)
    (hslot : slot < inlineCovered b level) (entry : InlineEntry Q) :
    ∃ first u c, locate slot true t cs = some (first, u, c) ∧
      (∀ fuel ≥ cs.length, (t2InlineWriteEntry fuel t slot entry).exec s =
        some ((), s.withRelation (s.relation.update u (setEntry (slot - c.start) entry)))) ∧
      TiledChain b level (s.relation.update u (setEntry (slot - c.start) entry)) t
        (cs.map (putEntry slot entry)) ∧
      slotEntries (cs.map (putEntry slot entry)) = (slotEntries cs).set slot entry := by
  obtain ⟨first, u, c, hlocate⟩ := locate_some true t h.tiles (Nat.zero_le slot) hslot
  refine ⟨first, u, c, hlocate, fun fuel hfuel => t2InlineWriteEntry_located h.chain hlocate hfuel,
    ⟨?_, h.chain.write h.tiles hlocate, ?_⟩, slotEntries_put h.tiles (Nat.zero_le slot)⟩
  · obtain ⟨n, hn, hcount⟩ := h.count
    obtain ⟨n', hn', htids⟩ := neighbor_setEntry u (slot - c.start) entry hn
    refine ⟨n', hn', ?_⟩
    rw [← hcount, NeighborTuple.count, NeighborTuple.count, htids]
  · rw [← h.spans, List.map_map]
    exact List.map_congr_left fun c _ => chunkSpan_putEntry c

end

/-! ### Reading the entries -/

section
open Scan
variable {S : Stream V Q D} {tids : List Tid} {t : Tid} {c : InlineChunk Q}
  {cs : List (InlineChunk Q)} {w : Scan.Walk Q}

/-- One chunk with all entries. -/
def wholeChunk (cs : List (InlineChunk Q)) : InlineChunk Q := ⟨0, Tid.invalid, slotEntries cs⟩

/-- A slot is read alike from chunks that have the same entry for it. -/
theorem walkSlot_congr {c' : InlineChunk Q} {j : Nat}
    (h : c.entries[j - c.start]? = c'.entries[j - c'.start]?) :
    walkSlot tids c w j = walkSlot tids c' w j := by
  unfold walkSlot InlineChunk.entryFor
  rw [h]

/-- The walk from a tuple on, chunk by chunk. -/
theorem walkChain_eq (h : Chain S.index t cs) {fuel : Nat} (hfuel : cs.length < fuel) :
    walkChain S tids fuel t w = some (cs.foldl (walkChunk tids) w) := by
  induction h generalizing fuel w with
  | nil ht =>
    obtain ⟨fuel, rfl⟩ : ∃ n, fuel = n + 1 := ⟨fuel - 1, by omega⟩
    rw [walkChain, ht]
    rfl
  | @cons t c cs hitem _ ih =>
    obtain ⟨fuel, rfl⟩ : ∃ n, fuel = n + 1 := ⟨fuel - 1, by omega⟩
    rw [walkChain, (Relation.isValid_of_item hitem).1, hitem]
    exact ih (Nat.lt_of_succ_lt_succ hfuel)

/-- **The chunks are walked like one chunk** with all entries. -/
theorem foldl_walkChunk {stop : Nat} (h : Tiles stop 0 (cs.map chunkSpan))
    (hlength : stop ≤ tids.length) :
    cs.foldl (walkChunk tids) w = walkChunk tids w (wholeChunk cs) := by
  -- each chunk walks its slots as the whole one does
  have hchunk : ∀ c ∈ cs, ∀ w : Scan.Walk Q, walkChunk tids w c =
      (List.range' (chunkSpan c).1 (chunkSpan c).2).foldl (walkSlot tids (wholeChunk cs)) w := by
    intro c hc w
    have hend : c.start + c.entries.length ≤ stop := (h.mem_le (List.mem_map.mpr ⟨c, hc, rfl⟩)).2
    have hlen : min (c.start + c.entries.length) tids.length - c.start = c.entries.length := by
      omega
    unfold walkChunk
    rw [hlen]
    apply List.foldl_ext
    intro w j hj
    have hcovers : covers (chunkSpan c) j := covers_chunkSpan.mpr (List.mem_range'_1.mp hj)
    exact walkSlot_congr (slotEntries_get h hc hcovers).symm
  have hwhole : walkChunk tids w (wholeChunk cs) =
      (List.range' 0 (stop - 0)).foldl (walkSlot tids (wholeChunk cs)) w := by
    have hlen : min (0 + (slotEntries cs).length) tids.length - 0 = stop - 0 := by
      rw [length_slotEntries h]
      omega
    show (List.range' 0 (min (0 + (slotEntries cs).length) tids.length - 0)).foldl _ w = _
    rw [hlen]
  rw [hwhole, ← h.positions, List.flatMap_map, List.foldl_flatMap]
  exact List.foldl_ext _ _ _ fun w c hc => hchunk c hc w

theorem covered_visitSlot (w : Scan.Walk Q) (t : Tid) (e : Option (InlineEntry Q)) :
    (w.visitSlot t e).covered = w.covered := by
  unfold Walk.visitSlot
  split
  · rfl
  · dsimp only
    split <;> rfl

theorem covered_walkSlot (c : InlineChunk Q) (w : Scan.Walk Q) (i j : Nat) :
    i ∈ (walkSlot tids c w j).covered ↔ i = j ∨ i ∈ w.covered := by
  unfold walkSlot
  split
  · rename_i hj
    exact ⟨.inr, fun h => h.elim (fun heq => heq ▸ hj) id⟩
  · dsimp only
    split
    · rw [covered_visitSlot, List.mem_cons]
    · exact List.mem_cons

theorem covered_foldl (c : InlineChunk Q) (js : List Nat) (w : Scan.Walk Q) (i : Nat) :
    i ∈ (js.foldl (walkSlot tids c) w).covered ↔ i ∈ js ∨ i ∈ w.covered := by
  induction js generalizing w with
  | nil => simp
  | cons j js ih =>
    rw [List.foldl_cons, ih, covered_walkSlot, List.mem_cons]
    tauto

/-- No slot is left over once all are covered. -/
theorem walkRest_eq (h : ∀ j < tids.length, j ∈ w.covered) : walkRest tids w = w := by
  unfold walkRest
  have hall : ∀ j ∈ List.range tids.length, j ∈ w.covered := fun j hj => h j (List.mem_range.mp hj)
  generalize List.range tids.length = js at hall ⊢
  induction js with
  | nil => rfl
  | cons j js ih =>
    rw [List.foldl_cons, if_pos (hall j List.mem_cons_self)]
    exact ih fun i hi => hall i (List.mem_cons_of_mem j hi)

/-- **What a scan collects** is what one chunk with all entries gives. -/
theorem walk_tiled (hchain : ChunkChain S.index t (c :: cs))
    (htiles : Tiles tids.length 0 ((c :: cs).map chunkSpan)) (visited : List Tid) {fuel : Nat}
    (hfuel : cs.length < fuel) :
    ∃ w, walkChain S tids fuel c.next (walkChunk tids ⟨visited, [], []⟩ c) = some w ∧
      walkRest tids w = w ∧ w = walkChunk tids ⟨visited, [], []⟩ (wholeChunk (c :: cs)) := by
  refine ⟨_, walkChain_eq hchain.2 hfuel, ?_, foldl_walkChunk htiles (Nat.le_refl _)⟩
  apply walkRest_eq
  intro j hj
  show j ∈ ((c :: cs).foldl (walkChunk tids) ⟨visited, [], []⟩).covered
  rw [foldl_walkChunk htiles (Nat.le_refl _)]
  unfold walkChunk
  rw [covered_foldl, List.mem_range'_1]
  have hlength := length_slotEntries htiles
  change 0 ≤ j ∧ j < 0 + (min (0 + (slotEntries (c :: cs)).length) tids.length - 0) ∨ _
  omega

/-- **An expansion over a tiled chain.** -/
theorem t2StreamExpandInline_tiled [CDouble D] {H : PairingHeap} {b : BuildParams} {level : Nat}
    (h : TiledChain b level S.index t cs)
    (hentry : inlineContSize 1 (inlineEntrySize b.dims) ≤ hnswMaxSize) (hm : S.m = b.mEff)
    (hpayload : S.payloadM = b.payloadM) (hpos : 0 < b.mEff) (s : State H D) {ce : Elem D} {x : Nat}
    (hnbr : candidateNbr S ce = some (x, t)) :
    ∃ n ∈ S.index.neighbor t, ∃ tids ∈ slotRange n.tids (hnswNeighborStart b.mEff level 0)
        (t2L0Width b.mEff b.payloadM), ∀ fuel ≥ cs.length, t2StreamExpandInline S fuel s ce =
      (walkChunk tids ⟨s.visited, [], []⟩ (wholeChunk cs)).cands.foldlM (pushCand S)
        { s with visited := (walkChunk tids ⟨s.visited, [], []⟩ (wholeChunk cs)).visited } := by
  obtain ⟨n, hn, hcount⟩ := h.count
  have hwidth : t2L0Width b.mEff b.payloadM = t2LayerM 0 b.mEff b.payloadM := rfl
  have hlength : level * b.mEff + t2L0Width b.mEff b.payloadM ≤ n.tids.length := by
    have hend := layer_end_le (Nat.zero_le level) b.mEff b.payloadM
    rw [← hcount, Nat.sub_zero] at hend
    exact hend
  have hstart : hnswNeighborStart b.mEff level 0 = ((level * b.mEff : Nat) : Int) := by
    have heq := hnswNeighborStart_eq (Nat.zero_le level) b.mEff
    rwa [Nat.cast_zero] at heq
  have hrange := slotRange_eq hlength
  rw [← hstart] at hrange
  refine ⟨n, hn, _, hrange, fun fuel hfuel => ?_⟩
  cases cs with
  | nil => exact h.chain.elim
  | cons c cs =>
    have hinline : n.inline? = some c := by
      have hitem := h.chain.1
      rw [Relation.neighbor_some.mp hn] at hitem
      exact hitem
    have htids : ((n.tids.drop (level * b.mEff)).take (t2L0Width b.mEff b.payloadM)).length =
        t2L0Width b.mEff b.payloadM := by
      rw [List.length_take, List.length_drop]
      omega
    have htiles := h.tiles
    rw [inlineCovered_eq hentry, ← htids] at htiles
    obtain ⟨w, hw, hrest, hwhole⟩ := walk_tiled h.chain htiles s.visited
      (Nat.lt_of_succ_le hfuel)
    rw [← hwhole]
    unfold t2StreamExpandInline
    rw [hnbr, hm, hpayload]
    simp only [Option.bind_eq_bind, Option.bind_some, hn, hcount,
      t2LevelFromCount_totalSlots hpos, hrange, hinline, hw, hrest]

end

/-! ### Chains survive -/

section
variable {b : BuildParams} {level : Nat} {r r' : Relation V Q} {t : Tid} {c : InlineChunk Q}
  {cs : List (InlineChunk Q)}

theorem Chain.imp (h : Chain r t cs) (himp : ∀ t c, r.item t = some (.cont c) →
    r'.item t = some (.cont c)) : Chain r' t cs := by
  induction h with
  | nil ht => exact .nil ht
  | cons hitem _ ih => exact .cons (himp _ _ hitem) ih

/-- The chain after an append. -/
theorem TiledChain.appended {x : IndexTuple V Q} {u : Tid} (h : TiledChain b level r t cs)
    (ha : Relation.Appended r r' x u) : TiledChain b level r' t cs where
  count := by
    obtain ⟨n, hn, hcount⟩ := h.count
    exact ⟨n, ha.neighbor_of_neighbor hn, hcount⟩
  chain := by
    cases cs with
    | nil => exact h.chain
    | cons c cs =>
      obtain ⟨hitem, hrest⟩ := h.chain
      refine ⟨?_, hrest.imp fun t c => ha.item_of_item⟩
      obtain ⟨y, hy, hchunk⟩ := Option.bind_eq_some_iff.mp hitem
      rw [ha.item_of_item hy]
      exact hchunk
  spans := h.spans

/-- Rewrites that keep the links and spans of chunks, and the width of slot arrays. -/
structure KeepsChunks (f : IndexTuple V Q → IndexTuple V Q) : Prop where
  cont : ∀ c, ∃ c', f (.cont c) = .cont c' ∧ chunkSpan c' = chunkSpan c ∧ c'.next = c.next
  neighbor : ∀ n, ∃ n', f (.neighbor n) = .neighbor n' ∧ n'.count = n.count ∧
    ∀ c ∈ n.inline?, ∃ c' ∈ n'.inline?, chunkSpan c' = chunkSpan c ∧ c'.next = c.next

theorem keepsChunks_setSlot (k : Nat) (e : Tid) :
    KeepsChunks (setSlot k e : IndexTuple V Q → IndexTuple V Q) where
  cont c := ⟨c, rfl, rfl, rfl⟩
  neighbor n := ⟨{ n with tids := n.tids.set k e }, rfl, List.length_set,
    fun c hc => ⟨c, hc, rfl, rfl⟩⟩

theorem keepsChunks_setEntry (idx : Nat) (entry : InlineEntry Q) :
    KeepsChunks (setEntry idx entry : IndexTuple V Q → IndexTuple V Q) where
  cont c := ⟨_, rfl, Prod.ext rfl List.length_set, rfl⟩
  neighbor n := by
    refine ⟨_, rfl, rfl, fun c hc => ?_⟩
    rw [Option.mem_def] at hc
    dsimp only
    rw [hc]
    exact ⟨_, rfl, Prod.ext rfl List.length_set, rfl⟩

theorem Chain.rewrite {f : IndexTuple V Q → IndexTuple V Q} (hf : KeepsChunks f) (u : Tid)
    (h : Chain r t cs) : ∃ cs', Chain (r.update u f) t cs' ∧ cs'.map chunkSpan = cs.map chunkSpan := by
  induction h with
  | nil ht => exact ⟨[], .nil ht, rfl⟩
  | @cons t c cs hitem _ ih =>
    obtain ⟨cs', hcs', hspans⟩ := ih
    obtain ⟨c', hc', hspan, hnext⟩ : ∃ c', (r.update u f).item t = some (.cont c') ∧
        chunkSpan c' = chunkSpan c ∧ c'.next = c.next := by
      rw [Relation.item_update]
      split
      · rename_i heq
        obtain ⟨c', hc', hkeeps⟩ := hf.cont c
        rw [← heq, hitem, Option.map_some, hc']
        exact ⟨c', rfl, hkeeps⟩
      · exact ⟨c, hitem, rfl, rfl⟩
    refine ⟨c' :: cs', .cons hc' (hnext ▸ hcs'), ?_⟩
    rw [List.map_cons, List.map_cons, hspan, hspans]

/-- The chain after a rewrite. -/
theorem TiledChain.rewrite {f : IndexTuple V Q → IndexTuple V Q} (hf : KeepsChunks f) (u : Tid)
    (h : TiledChain b level r t cs) : ∃ cs', TiledChain b level (r.update u f) t cs' := by
  obtain ⟨n, hn, hcount⟩ := h.count
  cases cs with
  | nil => exact h.chain.elim
  | cons c cs =>
    obtain ⟨hitem, hrest⟩ := h.chain
    obtain ⟨cs', hcs', hspans⟩ := hrest.rewrite hf u
    rw [Relation.neighbor_some] at hn
    rw [hn] at hitem
    obtain ⟨n', hn', hcount', c', hc', hspan, hnext⟩ : ∃ n',
        (r.update u f).item t = some (.neighbor n') ∧ n'.count = n.count ∧
          ∃ c' ∈ n'.inline?, chunkSpan c' = chunkSpan c ∧ c'.next = c.next := by
      rw [Relation.item_update]
      split
      · rename_i heq
        obtain ⟨n', hn', hcount', hchunk⟩ := hf.neighbor n
        rw [← heq, hn, Option.map_some, hn']
        exact ⟨n', rfl, hcount', hchunk c hitem⟩
      · exact ⟨n, hn, rfl, c, hitem, rfl, rfl⟩
    refine ⟨c' :: cs', ⟨n', Relation.neighbor_some.mpr hn', hcount'.trans hcount⟩, ⟨?_, ?_⟩, ?_⟩
    · rw [hn']
      exact hc'
    · rw [hnext]
      exact hcs'
    · rw [← h.spans, List.map_cons, List.map_cons, hspan, hspans]

/-- **No operation of an insert breaks a chain.** -/
theorem survives_tiled (b : BuildParams) (level : Nat) (t : Tid) :
    Survives fun r : Relation V Q => ∃ cs, TiledChain b level r t cs where
  append ha h := h.imp fun _ h => h.appended ha
  slot u k e h := h.elim fun _ h => h.rewrite (keepsChunks_setSlot k e) u
  entry u idx entry h := h.elim fun _ h => h.rewrite (keepsChunks_setEntry idx entry) u
  metaPage p h := h.imp fun cs h => by
    refine ⟨h.count, ?_, h.spans⟩
    cases cs with
    | nil => exact h.chain
    | cons c cs => exact ⟨h.chain.1, h.chain.2.imp fun _ _ => id⟩

end

end

end PgAcorn.Build
