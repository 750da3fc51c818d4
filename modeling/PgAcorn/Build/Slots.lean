import PgAcorn.Build.Insert

/-! The new element's slots, as lists.

An insert writes each layer into its own range of one array. What a layer then
holds is what was written there; the two halves of layer 0 together name no
element twice, and the offers of an insert go to different elements. -/
namespace PgAcorn.Build
open Library

/-! ### Writing a range -/

theorem length_putSlots {ntids sel : List Tid} {start : Nat}
    (h : start + sel.length ≤ ntids.length) : (putSlots ntids start sel).length = ntids.length := by
  simp only [putSlots, List.length_append, List.length_take, List.length_drop]
  omega

theorem getElem?_putSlots {ntids sel : List Tid} {start : Nat}
    (h : start + sel.length ≤ ntids.length) (k : Nat) :
    (putSlots ntids start sel)[k]? =
      if start ≤ k ∧ k < start + sel.length then sel[k - start]? else ntids[k]? := by
  unfold putSlots
  rw [List.append_assoc, List.getElem?_append]
  simp only [List.length_take, Nat.min_eq_left (by omega : start ≤ ntids.length)]
  by_cases hlt : k < start
  · rw [if_pos hlt, if_neg (by omega), List.getElem?_take_of_lt hlt]
  · rw [if_neg hlt, List.getElem?_append]
    by_cases hin : k - start < sel.length
    · rw [if_pos hin, if_pos (by omega)]
    · rw [if_neg hin, if_neg (by omega), List.getElem?_drop]
      congr 1
      omega

/-- A range inside a layer, seen from the layer. -/
theorem layerSlots_putSlots {ntids sel : List Tid} {globalM payloadM level layer off : Nat}
    (hlen : ntids.length = t2TotalSlots level globalM payloadM) (hl : layer ≤ level)
    (hsel : off + sel.length ≤ t2LayerM layer globalM payloadM) :
    layerSlots globalM payloadM level layer
        (putSlots ntids ((level - layer) * globalM + off) sel) =
      putSlots (layerSlots globalM payloadM level layer ntids) off sel := by
  have hend := layer_end_le hl globalM payloadM
  have hlayer := Relation.length_layerSlots hlen hl
  apply List.ext_getElem?
  intro k
  rw [getElem?_putSlots (by omega)]
  unfold layerSlots
  simp only [List.getElem?_take, List.getElem?_drop]
  rw [getElem?_putSlots (by omega)]
  by_cases hk : k < t2LayerM layer globalM payloadM
  · simp only [if_pos hk]
    by_cases hin : off ≤ k ∧ k < off + sel.length
    · rw [if_pos (by omega), if_pos hin]
      congr 1
      omega
    · rw [if_neg (by omega), if_neg hin]
  · simp only [if_neg hk]
    rw [if_neg (by omega)]

/-- A slot of a range inside a layer is one of the layer's. -/
theorem mem_layerSlots_of_range {tids : List Tid} {u : Tid} {globalM payloadM level layer off len : Nat}
    (hlen : off + len ≤ t2LayerM layer globalM payloadM)
    (hu : u ∈ (tids.drop ((level - layer) * globalM + off)).take len) :
    u ∈ layerSlots globalM payloadM level layer tids := by
  unfold layerSlots
  obtain ⟨k, hk, hget⟩ := List.mem_take_iff_getElem.mp hu
  rw [List.getElem_drop] at hget
  refine List.mem_take_iff_getElem.mpr ⟨off + k, ?_, ?_⟩
  · rw [List.length_drop] at hk ⊢
    omega
  · rw [List.getElem_drop, ← hget]
    congr 1
    omega

/-- The other layers keep their slots. -/
theorem layerSlots_putSlots_of_ne {ntids sel : List Tid}
    {globalM payloadM level layer layer' off : Nat}
    (hlen : ntids.length = t2TotalSlots level globalM payloadM) (hl : layer ≤ level)
    (hl' : layer' ≤ level) (hne : layer' ≠ layer)
    (hsel : off + sel.length ≤ t2LayerM layer globalM payloadM) :
    layerSlots globalM payloadM level layer'
        (putSlots ntids ((level - layer) * globalM + off) sel) =
      layerSlots globalM payloadM level layer' ntids := by
  have hend := layer_end_le hl globalM payloadM
  apply List.ext_getElem?
  intro k
  unfold layerSlots
  simp only [List.getElem?_take, List.getElem?_drop]
  rw [getElem?_putSlots (by omega)]
  by_cases hk : k < t2LayerM layer' globalM payloadM
  · rw [if_pos hk, if_pos hk, if_neg]
    -- one of the two layers ends before the other starts
    obtain hlt | hlt := Nat.lt_or_gt_of_ne hne
    · have := layer_end_le_start hl hlt globalM payloadM
      omega
    · have := layer_end_le_start hl' hlt globalM payloadM
      omega
  · rw [if_neg hk, if_neg hk]

/-- The valid slots after a range was written. -/
theorem validTids_putSlots (ntids sel : List Tid) (start : Nat) :
    validTids (putSlots ntids start sel) = validTids (ntids.take start) ++ validTids sel ++
      validTids (ntids.drop (start + sel.length)) := by
  simp only [putSlots, validTids, List.filter_append]

theorem validTids_eq_self {tids : List Tid} (h : ∀ t ∈ tids, t.isValid = true) :
    validTids tids = tids := List.filter_eq_self.mpr h

/-- A range of slots that name nothing names nothing. -/
theorem validTids_sublist_nil {tids tids' : List Tid} (h : validTids tids = [])
    (hs : tids'.Sublist tids) : validTids tids' = [] :=
  List.sublist_nil.mp (h ▸ hs.filter _)

/-- One half of an empty layer written. -/
theorem validTids_put {slots sel : List Tid} (hempty : validTids slots = []) (off : Nat) :
    validTids (putSlots slots off sel) = validTids sel := by
  rw [validTids_putSlots, validTids_sublist_nil hempty (List.take_sublist _ _),
    validTids_sublist_nil hempty (List.drop_sublist _ _), List.nil_append, List.append_nil]

/-- Both halves of an empty layer written, the second behind the first. -/
theorem validTids_put_put {slots sel sel' : List Tid} {off : Nat} (hempty : validTids slots = [])
    (hsel : sel.length ≤ off) (hlen : off + sel'.length ≤ slots.length) :
    validTids (putSlots (putSlots slots 0 sel) off sel') = validTids sel ++ validTids sel' := by
  have hdrop : (putSlots slots 0 sel).drop (off + sel'.length) =
      slots.drop (off + sel'.length) := by
    apply List.ext_getElem?
    intro k
    rw [List.getElem?_drop, List.getElem?_drop, getElem?_putSlots (by omega), if_neg (by omega)]
  have htake : validTids ((putSlots slots 0 sel).take off) = validTids sel := by
    have hsplit : (putSlots slots 0 sel).take off =
        sel ++ (slots.drop sel.length).take (off - sel.length) := by
      rw [putSlots, List.take_zero, List.nil_append, Nat.zero_add, List.take_append,
        List.take_of_length_le hsel]
    rw [hsplit, validTids, List.filter_append]
    have : validTids ((slots.drop sel.length).take (off - sel.length)) = [] :=
      validTids_sublist_nil hempty ((List.take_sublist _ _).trans (List.drop_sublist _ _))
    rw [validTids] at this
    rw [this, List.append_nil]
    rfl
  rw [validTids_putSlots, hdrop, validTids_sublist_nil hempty (List.drop_sublist _ _), htake,
    List.append_nil]

/-! ### Backfill -/

theorem length_backfill (globals : List Tid) {pHalf : Nat} (cands : List Tid) {payload : List Tid}
    (h : payload.length ≤ pHalf) : (backfill globals pHalf cands payload).length ≤ pHalf := by
  induction cands generalizing payload with
  | nil => exact h
  | cons c cs ih =>
    rw [backfill]
    split
    · split
      · exact ih h
      · apply ih
        rw [List.length_append, List.length_singleton]
        omega
    · exact h

/-- Backfilled slots keep what was there and add candidates that neither half
names. -/
theorem backfill_spec {globals : List Tid} {pHalf : Nat} (cands payload : List Tid)
    (hnodup : (globals ++ payload).Nodup) (hlen : payload.length ≤ pHalf) :
    (globals ++ backfill globals pHalf cands payload).Nodup ∧
      (backfill globals pHalf cands payload).length ≤ pHalf ∧
      ∀ t ∈ backfill globals pHalf cands payload, t ∈ payload ∨ t ∈ cands := by
  refine and_left_comm.mpr ⟨length_backfill globals cands hlen, ?_⟩
  clear hlen
  induction cands generalizing payload with
  | nil => exact ⟨hnodup, fun t ht => .inl ht⟩
  | cons c cs ih =>
    rw [backfill]
    split
    · split
      · obtain ⟨hn, hmem⟩ := ih payload hnodup
        exact ⟨hn, fun t ht => (hmem t ht).imp_right (List.mem_cons_of_mem c)⟩
      · rename_i hroom hnew
        rw [not_or] at hnew
        have hc : c ∉ globals ++ payload := by
          rw [List.mem_append, not_or]
          exact hnew
        obtain ⟨hn, hmem⟩ := ih (payload ++ [c]) (by
          rw [← List.append_assoc]
          exact List.nodup_append.mpr ⟨hnodup, List.nodup_singleton c, by
            rintro a ha _ hb rfl
            exact hc (List.mem_singleton.mp hb ▸ ha)⟩)
        refine ⟨hn, fun t ht => ?_⟩
        obtain ht | ht := hmem t ht
        · obtain ht | ht := List.mem_append.mp ht
          · exact .inl ht
          · exact .inr (by simp [List.mem_singleton.mp ht])
        · exact .inr (List.mem_cons_of_mem c ht)
    · exact ⟨hnodup, fun t ht => .inl ht⟩

end PgAcorn.Build
