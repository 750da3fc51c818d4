import PgAcorn.Library.BestFirst
import PgAcorn.Library.Diversity

/-! What the diversity heuristic chooses.

`GreedyRule` says of each candidate, by those before it alone, whether it is kept;
the choice is then the kept ones followed by the others, cut to the room there is
(`diverse_eq`). Of one candidate more than there is room for, exactly the last of
those that were not kept is dropped (`exists_dropped`). Distances are totally ordered
and at most is not above; nothing else is asked of them. -/
namespace PgAcorn.Library

/-- Distances are totally ordered, and at most is not above. -/
structure Ordered (D : Type) [CDouble D] : Prop where
  total : TotalOrder D
  le_iff : ∀ a b : D, CDouble.le a b = !CDouble.lt b a

theorem ordered_int : Ordered Int where
  total := totalOrder_int
  le_iff a b := by
    show decide (a ≤ b) = !decide (b < a)
    by_cases h : a ≤ b
    · simp [h, not_lt.mpr h]
    · simp [h, not_le.mp h]

section
variable {κ D : Type} [CDouble D]

/-! ### The rule -/

/-- The rule by which candidates are kept: there is room, and the candidate is nearer
to the base than to all those kept before it. -/
structure GreedyRule (apart : κ → κ → D) (base : κ → D) (mMax : Nat) (cands : List κ)
    (keeps : κ → Bool) : Prop where
  iff : ∀ pre c post, cands = pre ++ c :: post → (keeps c = true ↔
    (pre.filter keeps).length < mMax ∧
      ∀ k ∈ pre.filter keeps, CDouble.lt (base c) (apart c k) = true)

/-- The kept ones, then the others, as far as there is room. -/
def refilled (mMax : Nat) (cands : List κ) (keeps : κ → Bool) : List κ :=
  (cands.filter keeps ++ cands.filter fun c => !keeps c).take mMax

variable (apart : κ → κ → D) (base : κ → D) (mMax : Nat)

/-- One candidate after the others. -/
def keepStep (kept : List κ) (c : κ) : List κ :=
  if kept.length < mMax ∧ (kept.any fun k => CDouble.le (apart c k) (base c)) = false then
    kept ++ [c]
  else kept

/-- Those kept among some candidates. -/
def keptOf (cands : List κ) : List κ := cands.foldl (keepStep apart base mMax) []

variable {apart base mMax}

theorem keptOf_concat (pre : List κ) (c : κ) :
    keptOf apart base mMax (pre ++ [c]) = keepStep apart base mMax (keptOf apart base mMax pre) c := by
  rw [keptOf, keptOf, List.foldl_append]
  rfl

/-- A step keeps what was kept and adds at most its candidate. -/
theorem keepStep_eq (kept : List κ) (c : κ) :
    keepStep apart base mMax kept c = kept ++ [c] ∨ keepStep apart base mMax kept c = kept := by
  unfold keepStep
  split
  · exact .inl rfl
  · exact .inr rfl

/-- More candidates only add to what is kept, from among themselves. -/
theorem foldl_keepStep (kept cs : List κ) :
    ∃ more, cs.foldl (keepStep apart base mMax) kept = kept ++ more ∧ more.Sublist cs := by
  induction cs generalizing kept with
  | nil => exact ⟨[], by simp, .slnil⟩
  | cons c cs ih =>
    rw [List.foldl_cons]
    obtain h | h := @keepStep_eq κ D _ apart base mMax kept c
    · obtain ⟨more, heq, hsub⟩ := ih (kept ++ [c])
      exact ⟨c :: more, by rw [h, heq, List.append_assoc, List.singleton_append], hsub.cons_cons c⟩
    · obtain ⟨more, heq, hsub⟩ := ih kept
      exact ⟨more, by rw [h, heq], hsub.cons c⟩

theorem keptOf_append (pre post : List κ) :
    ∃ more, keptOf apart base mMax (pre ++ post) = keptOf apart base mMax pre ++ more ∧
      more.Sublist post := by
  obtain ⟨more, heq, hsub⟩ :=
    @foldl_keepStep κ D _ apart base mMax (keptOf apart base mMax pre) post
  refine ⟨more, ?_, hsub⟩
  rw [keptOf, List.foldl_append]
  exact heq

theorem keptOf_sublist (cands : List κ) : (keptOf apart base mMax cands).Sublist cands := by
  obtain ⟨more, heq, hsub⟩ := @foldl_keepStep κ D _ apart base mMax [] cands
  rw [keptOf, heq]
  exact hsub

theorem length_keptOf_le (cands : List κ) : (keptOf apart base mMax cands).length ≤ mMax := by
  induction cands using List.reverseRecOn with
  | nil => exact Nat.zero_le _
  | append_singleton cands c ih =>
    rw [keptOf_concat]
    unfold keepStep
    split
    · rename_i h
      rw [List.length_append, List.length_singleton]
      omega
    · exact ih

open Classical in
/-- Of distinct candidates, those kept of a prefix are those of the prefix that are
kept in the end. -/
theorem filter_keptOf {cands pre post : List κ} (hnodup : cands.Nodup) (hsplit : cands = pre ++ post) :
    pre.filter (fun c => decide (c ∈ keptOf apart base mMax cands)) = keptOf apart base mMax pre := by
  subst hsplit
  induction pre using List.reverseRecOn generalizing post with
  | nil => rfl
  | append_singleton pre c ih =>
    have hassoc : pre ++ [c] ++ post = pre ++ (c :: post) := by simp
    rw [hassoc] at hnodup ⊢
    rw [List.filter_append, ih hnodup, keptOf_concat, List.filter_singleton]
    obtain ⟨more, heq, hsub⟩ := @keptOf_append κ D _ apart base mMax
      (pre ++ [c]) post
    rw [hassoc, keptOf_concat] at heq
    have hpre : c ∉ pre := fun hc => (List.disjoint_of_nodup_append hnodup) hc (by simp)
    have hpost : c ∉ post := (List.nodup_cons.mp (List.Nodup.of_append_right hnodup)).1
    have hnot : c ∉ keptOf apart base mMax pre := fun hc => hpre ((keptOf_sublist pre).subset hc)
    obtain h | h := @keepStep_eq κ D _ apart base mMax
      (keptOf apart base mMax pre) c
    · rw [h] at heq ⊢
      have hin : c ∈ keptOf apart base mMax (pre ++ c :: post) := by
        rw [heq]
        simp
      rw [decide_eq_true hin]
      rfl
    · rw [h] at heq ⊢
      have hout : c ∉ keptOf apart base mMax (pre ++ c :: post) := by
        rw [heq]
        intro hc
        obtain hc | hc := List.mem_append.mp hc
        · exact hnot hc
        · exact hpost (hsub.subset hc)
      rw [decide_eq_false hout]
      simp

open Classical in
/-- **The loop follows the rule.** -/
theorem greedyRule_keptOf (hD : Ordered D) {cands : List κ} (hnodup : cands.Nodup) :
    GreedyRule apart base mMax cands fun c => decide (c ∈ keptOf apart base mMax cands) := by
  refine ⟨fun pre c post hsplit => ?_⟩
  have hc : cands = (pre ++ [c]) ++ post := by simp [hsplit]
  have hpre : c ∉ keptOf apart base mMax pre := fun hmem => by
    rw [hsplit] at hnodup
    exact (List.disjoint_of_nodup_append hnodup) ((keptOf_sublist pre).subset hmem) (by simp)
  have hiff : c ∈ keptOf apart base mMax cands ↔ c ∈ keptOf apart base mMax (pre ++ [c]) := by
    rw [← filter_keptOf hnodup hc, List.mem_filter]
    simp
  rw [decide_eq_true_iff, hiff, keptOf_concat, filter_keptOf hnodup hsplit]
  have hany : ((keptOf apart base mMax pre).any fun k => CDouble.le (apart c k) (base c)) = false ↔
      ∀ k ∈ keptOf apart base mMax pre, CDouble.lt (base c) (apart c k) = true := by
    rw [List.any_eq_false]
    refine forall_congr' fun k => imp_congr_right fun _ => ?_
    rw [hD.le_iff]
    simp
  rw [← hany]
  unfold keepStep
  split
  · rename_i h
    simp [h]
  · rename_i h
    exact iff_of_false hpre h

/-! ### The heuristic by the rule -/

/-- A full choice takes no more. -/
theorem foldl_keepStep_full {kept : List κ} (h : ¬ kept.length < mMax) (cs : List κ) :
    cs.foldl (keepStep apart base mMax) kept = kept := by
  induction cs with
  | nil => rfl
  | cons c cs ih => rw [List.foldl_cons, keepStep, if_neg fun hc => h hc.1, ih]

theorem diverseLoop_fst (cs kept pruned : List κ) :
    (diverseLoop apart base mMax cs (kept, pruned)).1 = cs.foldl (keepStep apart base mMax) kept := by
  induction cs generalizing kept pruned with
  | nil => rfl
  | cons c cs ih =>
    rw [diverseLoop, List.foldl_cons]
    by_cases hroom : kept.length < mMax
    · rw [if_pos hroom]
      cases hany : kept.any fun k => CDouble.le (apart c k) (base c) with
      | true =>
        rw [if_pos rfl, ih, keepStep, if_neg fun hc => by rw [hany] at hc; cases hc.2]
      | false =>
        rw [if_neg Bool.false_ne_true, ih, keepStep, if_pos ⟨hroom, hany⟩]
    · rw [if_neg hroom, keepStep, if_neg fun hc => hroom hc.1]
      exact (foldl_keepStep_full hroom cs).symm

open Classical in
/-- While there is room everything that is not kept is pruned. -/
theorem diverseLoop_snd {cands : List κ} (hnodup : cands.Nodup) {pre cs : List κ}
    (hsplit : cands = pre ++ cs) (hroom : (keptOf apart base mMax cands).length < mMax)
    {pruned : List κ}
    (hpruned : pruned = pre.filter fun c => !decide (c ∈ keptOf apart base mMax cands)) :
    (diverseLoop apart base mMax cs (keptOf apart base mMax pre, pruned)).2 =
      cands.filter fun c => !decide (c ∈ keptOf apart base mMax cands) := by
  induction cs generalizing pre pruned with
  | nil =>
    rw [List.append_nil] at hsplit
    rw [diverseLoop, hpruned, hsplit]
  | cons c cs ih =>
    have hnext : cands = (pre ++ [c]) ++ cs := by simp [hsplit]
    have hlen : (keptOf apart base mMax pre).length < mMax := by
      obtain ⟨more, heq, -⟩ := @keptOf_append κ D _ apart base mMax pre (c :: cs)
      rw [hsplit, heq, List.length_append] at hroom
      omega
    have hkept := @filter_keptOf κ D _ apart base mMax _ _ _ hnodup hnext
    rw [List.filter_append, filter_keptOf hnodup hsplit, List.filter_singleton, keptOf_concat] at hkept
    rw [diverseLoop, if_pos hlen]
    cases hany : (keptOf apart base mMax pre).any fun k => CDouble.le (apart c k) (base c) with
    | true =>
      rw [if_pos rfl]
      have hstep : keptOf apart base mMax (pre ++ [c]) = keptOf apart base mMax pre := by
        rw [keptOf_concat, keepStep, if_neg fun hc => by rw [hany] at hc; cases hc.2]
      have hout : decide (c ∈ keptOf apart base mMax cands) = false := by
        by_contra hin
        rw [Bool.not_eq_false] at hin
        rw [hin, ← keptOf_concat, hstep] at hkept
        exact absurd (congrArg List.length hkept) (by simp)
      rw [← hstep]
      refine ih hnext ?_
      rw [hpruned, List.filter_append, List.filter_singleton, hout]
      rfl
    | false =>
      rw [if_neg Bool.false_ne_true]
      have hstep : keptOf apart base mMax (pre ++ [c]) = keptOf apart base mMax pre ++ [c] := by
        rw [keptOf_concat, keepStep, if_pos ⟨hlen, hany⟩]
      have hin : decide (c ∈ keptOf apart base mMax cands) = true := by
        by_contra hout
        rw [Bool.not_eq_true] at hout
        rw [hout, ← keptOf_concat, hstep] at hkept
        exact absurd (congrArg List.length hkept) (by simp)
      rw [← hstep]
      refine ih hnext ?_
      rw [hpruned, List.filter_append, List.filter_singleton, hin]
      simp

open Classical in
/-- **The choice of the heuristic**, of more candidates than there is room for. -/
theorem diverse_eq {cands : List κ} (hnodup : cands.Nodup) (hmany : mMax < cands.length) :
    diverse apart base mMax cands =
      refilled mMax cands fun c => decide (c ∈ keptOf apart base mMax cands) := by
  have hfst : (diverseLoop apart base mMax cands ([], [])).1 = keptOf apart base mMax cands :=
    diverseLoop_fst cands [] []
  have hkept : cands.filter (fun c => decide (c ∈ keptOf apart base mMax cands)) =
      keptOf apart base mMax cands := filter_keptOf hnodup (List.append_nil cands).symm
  rw [diverse, if_neg (by omega), refilled, hkept]
  dsimp only
  rw [hfst]
  by_cases hroom : (keptOf apart base mMax cands).length < mMax
  · have hsnd := @diverseLoop_snd κ D _ apart base mMax _ hnodup _ _ (List.nil_append cands).symm hroom [] rfl
    rw [show keptOf apart base mMax ([] : List κ) = [] from rfl] at hsnd
    rw [hsnd]
  · -- nothing is left to refill
    have hlen := @length_keptOf_le κ D _ apart base mMax cands
    rw [List.take_append_of_le_length (by omega), List.take_append_of_le_length (by omega)]

/-- The general rule on no more candidates than there is room for chooses all. -/
theorem refilled_perm {cands : List κ} (keeps : κ → Bool) (hfew : cands.length ≤ mMax) :
    (refilled mMax cands keeps).Perm cands := by
  have hperm := List.filter_append_perm keeps cands
  rw [refilled, List.take_of_length_le (by rw [hperm.length_eq]; exact hfew)]
  exact hperm

/-- What a choice of up to `mMax` candidates owes. -/
structure DiverseSelection (apart : κ → κ → D) (base : κ → D) (mMax : Nat) (cands chosen : List κ) :
    Prop where
  length : chosen.length = min cands.length mMax
  nodup : chosen.Nodup
  sub : ∀ c ∈ chosen, c ∈ cands
  /-- The greedy rule, with refill; without need for a choice, up to the order. -/
  rule : ∃ keeps, GreedyRule apart base mMax cands keeps ∧
    (mMax < cands.length → chosen = refilled mMax cands keeps) ∧
      (cands.length ≤ mMax → chosen.Perm (refilled mMax cands keeps))

/-- **The heuristic meets its specification.** -/
theorem diverse_selection (hD : Ordered D) {cands : List κ} (hnodup : cands.Nodup) :
    DiverseSelection apart base mMax cands (diverse apart base mMax cands) := by
  have hsub := @diverse_subperm κ D _ apart base mMax cands
  refine ⟨(length_diverse cands).trans (Nat.min_comm _ _), nodup_of_subperm hsub hnodup,
    fun c hc => hsub.subset hc, ?_⟩
  classical
  refine ⟨_, greedyRule_keptOf hD hnodup, diverse_eq hnodup, fun hfew => ?_⟩
  rw [diverse, if_pos hfew]
  exact (refilled_perm _ hfew).symm

/-! ### One too many -/

/-- A candidate the heuristic itself pruned: there was room when it was looked at. -/
def Pruned (mMax : Nat) (cands : List κ) (keeps : κ → Bool) (c : κ) : Prop :=
  keeps c = false ∧ ∃ pre post, cands = pre ++ c :: post ∧ (pre.filter keeps).length < mMax

/-- What becomes of one candidate too many. -/
structure Dropped (mMax : Nat) (base : κ → D) (cands : List κ) (keeps : κ → Bool) (dropped : κ) :
    Prop where
  mem : dropped ∈ cands
  /-- It alone is not chosen. -/
  chosen : ∀ c, c ∈ refilled mMax cands keeps ↔ c ∈ cands ∧ c ≠ dropped
  nodup : (refilled mMax cands keeps).Nodup
  length : (refilled mMax cands keeps).length = mMax
  /-- It is the furthest of those pruned. -/
  pruned : (∃ c, Pruned mMax cands keeps c) → Pruned mMax cands keeps dropped ∧
    ∀ c, Pruned mMax cands keeps c → CDouble.lt (base dropped) (base c) = false
  /-- If none was pruned, it is the furthest of all. -/
  furthest : (¬ ∃ c, Pruned mMax cands keeps c) →
    ∀ c ∈ cands, CDouble.lt (base dropped) (base c) = false
  /-- The nearest is chosen. -/
  nearest : ∃ c cs, cands = c :: cs ∧ c ≠ dropped ∧ c ∈ refilled mMax cands keeps

/-- **Exactly one is dropped** of one candidate too many, the last that was not kept. -/
theorem GreedyRule.exists_dropped {cands : List κ} {keeps : κ → Bool}
    (h : GreedyRule apart base mMax cands keeps) (hpos : 1 ≤ mMax) (hnodup : cands.Nodup)
    (hsorted : cands.Pairwise fun a b => CDouble.lt (base b) (base a) = false)
    (hlen : cands.length = mMax + 1) (hkept : (cands.filter keeps).length ≤ mMax) :
    ∃ dropped, Dropped mMax base cands keeps dropped := by
  have hperm := List.filter_append_perm keeps cands
  have hcount := hperm.length_eq
  rw [List.length_append, hlen] at hcount
  -- the last of those that were not kept
  obtain ⟨init, dropped, hothers⟩ : ∃ init dropped,
      (cands.filter fun c => !keeps c) = init ++ [dropped] := by
    rcases List.eq_nil_or_concat' (cands.filter fun c => !keeps c) with hnil | hconcat
    · rw [hnil, List.length_nil] at hcount
      omega
    · exact hconcat
  have hrefilled : refilled mMax cands keeps = cands.filter keeps ++ init := by
    rw [hothers, List.length_append, List.length_singleton] at hcount
    rw [refilled, hothers, ← List.append_assoc, List.take_append_of_le_length (by
      rw [List.length_append]
      omega), List.take_of_length_le (by
      rw [List.length_append]
      omega)]
  have hsplit : (refilled mMax cands keeps ++ [dropped]).Perm cands := by
    rw [hrefilled, List.append_assoc, ← hothers]
    exact hperm
  have hsplitNodup := hsplit.nodup_iff.mpr hnodup
  have hmem : ∀ c ∈ cands, keeps c = false → c ∈ init ++ [dropped] := fun c hc hk => by
    rw [← hothers]
    exact List.mem_filter.mpr ⟨hc, by simp [hk]⟩
  have hdropped : dropped ∈ cands ∧ keeps dropped = false := by
    have : dropped ∈ cands.filter fun c => !keeps c := by simp [hothers]
    obtain ⟨hin, hk⟩ := List.mem_filter.mp this
    exact ⟨hin, by simpa using hk⟩
  -- no one that was not kept is further
  have hfurthest : ∀ c ∈ cands, keeps c = false → CDouble.lt (base dropped) (base c) = false := by
    intro c hc hk
    have hlast : (init ++ [dropped]).Pairwise fun a b => CDouble.lt (base b) (base a) = false := by
      rw [← hothers]
      exact hsorted.sublist List.filter_sublist
    obtain hin | hin := List.mem_append.mp (hmem c hc hk)
    · exact (List.pairwise_append.mp hlast).2.2 c hin dropped (by simp)
    · rw [List.mem_singleton.mp hin]
      exact CDouble.irrefl _
  have hchosen : ∀ c, c ∈ refilled mMax cands keeps ↔ c ∈ cands ∧ c ≠ dropped := by
    intro c
    have hnot : dropped ∉ refilled mMax cands keeps := fun hin =>
      (List.disjoint_of_nodup_append hsplitNodup) hin (by simp)
    rw [← hsplit.mem_iff, List.mem_append, List.mem_singleton]
    constructor
    · intro hc
      exact ⟨.inl hc, fun heq => hnot (heq ▸ hc)⟩
    · rintro ⟨hc | hc, hne⟩
      · exact hc
      · exact absurd hc hne
  obtain ⟨first, rest, hfirst⟩ : ∃ c cs, cands = c :: cs :=
    List.exists_cons_of_length_pos (by omega)
  have hfirstKept : keeps first = true := (h.iff [] first rest hfirst).mpr ⟨hpos, by simp⟩
  have hfirstNe : first ≠ dropped := by
    rintro rfl
    rw [hfirstKept] at hdropped
    cases hdropped.2
  refine ⟨dropped, hdropped.1, hchosen, (List.nodup_append.mp hsplitNodup).1, ?_, ?_, ?_, first, rest,
    hfirst, hfirstNe, (hchosen first).mpr ⟨by simp [hfirst], hfirstNe⟩⟩
  · have := hsplit.length_eq
    rw [List.length_append, List.length_singleton, hlen] at this
    omega
  · rintro ⟨p, hp, pre, post, hpsplit, hproom⟩
    refine ⟨⟨hdropped.2, ?_⟩, fun c hc => ?_⟩
    · by_cases hfull : (cands.filter keeps).length < mMax
      · obtain ⟨pre', post', heq⟩ := List.append_of_mem hdropped.1
        refine ⟨pre', post', heq, lt_of_le_of_lt ?_ hfull⟩
        rw [heq, List.filter_append, List.length_append]
        omega
      · -- only one was not kept
        rw [hothers, List.length_append, List.length_singleton] at hcount
        obtain rfl : init = [] := List.eq_nil_of_length_eq_zero (by omega)
        have hpd : p = dropped := by
          have := hmem p (by simp [hpsplit]) hp
          simpa using this
        subst hpd
        exact ⟨pre, post, hpsplit, hproom⟩
    · obtain ⟨hk, pre', post', heq, -⟩ := hc
      exact hfurthest c (by simp [heq]) hk
  · intro hnone c hc
    have hroom : ¬ (cands.filter keeps).length < mMax := fun hlt => by
      obtain ⟨pre', post', heq⟩ := List.append_of_mem hdropped.1
      refine hnone ⟨dropped, hdropped.2, pre', post', heq, lt_of_le_of_lt ?_ hlt⟩
      rw [heq, List.filter_append, List.length_append]
      omega
    -- all that were kept come first, so the other one is the last candidate
    obtain ⟨pre', post', heq⟩ := List.append_of_mem hdropped.1
    have hpre : ¬ (pre'.filter keeps).length < mMax := fun hlt =>
      hnone ⟨dropped, hdropped.2, pre', post', heq, hlt⟩
    have hle := List.length_filter_le keeps pre'
    rw [heq, List.length_append, List.length_cons] at hlen
    obtain rfl : post' = [] := List.eq_nil_of_length_eq_zero (by omega)
    rw [heq] at hsorted hc
    obtain hc | hc := List.mem_append.mp hc
    · exact (List.pairwise_append.mp hsorted).2.2 c hc dropped (by simp)
    · rw [List.mem_singleton.mp hc]
      exact CDouble.irrefl _

/-! ### Insertion sort -/

/-- What is in front of an inserted candidate is not further than it. -/
theorem rdropWhile_not_further (hD : TotalOrder D) {xs : List κ} (x : κ)
    (hsorted : xs.Pairwise fun a b => CDouble.lt (base b) (base a) = false) :
    ∀ y ∈ xs.rdropWhile (fun y => CDouble.lt (base x) (base y)),
      CDouble.lt (base x) (base y) = false := by
  intro y hy
  have hsub : (xs.rdropWhile fun y => CDouble.lt (base x) (base y)).Sublist xs :=
    (List.rdropWhile_prefix _ _).sublist
  have hlast := List.rdropWhile_last_not (fun y => CDouble.lt (base x) (base y)) xs
    (List.ne_nil_of_mem hy)
  rw [Bool.not_eq_true] at hlast
  rcases List.eq_nil_or_concat' (xs.rdropWhile fun y => CDouble.lt (base x) (base y)) with
    hnil | ⟨init, last, heq⟩
  · rw [hnil] at hy
    cases hy
  · simp only [heq, List.getLast_append_singleton] at hlast
    have hpair := hsorted.sublist hsub
    rw [heq] at hy hpair
    obtain hy | hy := List.mem_append.mp hy
    · exact hD.not_lt hlast ((List.pairwise_append.mp hpair).2.2 y hy last (by simp))
    · rw [List.mem_singleton.mp hy]
      exact hlast

theorem insertAscending_sorted (hD : TotalOrder D) {xs : List κ} (x : κ)
    (hsorted : xs.Pairwise fun a b => CDouble.lt (base b) (base a) = false) :
    (insertAscending base xs x).Pairwise fun a b => CDouble.lt (base b) (base a) = false := by
  have hfront := rdropWhile_not_further hD x hsorted
  have hback : ∀ y ∈ xs.rtakeWhile (fun y => CDouble.lt (base x) (base y)),
      CDouble.lt (base y) (base x) = false := by
    intro y hy
    have hfurther := List.mem_rtakeWhile_imp hy
    exact CDouble.asymm hfurther
  unfold insertAscending
  refine List.pairwise_append.mpr ⟨hsorted.sublist (List.rdropWhile_prefix _ _).sublist,
    List.pairwise_cons.mpr ⟨hback, hsorted.sublist (List.rtakeWhile_suffix _ _).sublist⟩, ?_⟩
  intro y hy z hz
  obtain rfl | hz := List.mem_cons.mp hz
  · exact hfront y hy
  · exact hD.not_lt (hback z hz) (hfront y hy)

/-- **Sorted candidates**, nearest first. -/
theorem sortAscending_sorted (hD : TotalOrder D) (xs : List κ) :
    (sortAscending base xs).Pairwise fun a b => CDouble.lt (base b) (base a) = false := by
  have hfold : ∀ ys : List κ, (ys.Pairwise fun a b => CDouble.lt (base b) (base a) = false) →
      (xs.foldl (insertAscending base) ys).Pairwise fun a b => CDouble.lt (base b) (base a) = false := by
    induction xs with
    | nil => exact fun ys h => h
    | cons x xs ih => exact fun ys h => ih _ (insertAscending_sorted hD x h)
  exact hfold [] .nil

end

/-! ### Corresponding candidates -/

section
variable {κ κ' D : Type} [CDouble D] (f : κ → κ') {apart : κ → κ → D} {apart' : κ' → κ' → D}
  {base : κ → D} {base' : κ' → D} {mMax : Nat}

/-- The loop sees candidates only through their distances. -/
theorem diverseLoop_map (hapart : ∀ a b, apart' (f a) (f b) = apart a b)
    (hbase : ∀ a, base' (f a) = base a) (cs kept pruned : List κ) :
    diverseLoop apart' base' mMax (cs.map f) (kept.map f, pruned.map f) =
      ((diverseLoop apart base mMax cs (kept, pruned)).1.map f,
        (diverseLoop apart base mMax cs (kept, pruned)).2.map f) := by
  induction cs generalizing kept pruned with
  | nil => rfl
  | cons c cs ih =>
    have hany : ((kept.map f).any fun k => CDouble.le (apart' (f c) k) (base' (f c))) =
        kept.any fun k => CDouble.le (apart c k) (base c) := by
      rw [List.any_map]
      congr 1
      funext k
      simp only [Function.comp, hapart, hbase]
    rw [List.map_cons, diverseLoop, diverseLoop, List.length_map, hany]
    split
    · split
      · have h := ih kept (pruned ++ [c])
        rwa [List.map_append] at h
      · have h := ih (kept ++ [c]) pruned
        rwa [List.map_append] at h
    · rfl

/-- **Corresponding candidates give corresponding choices.** -/
theorem diverse_map (hapart : ∀ a b, apart' (f a) (f b) = apart a b)
    (hbase : ∀ a, base' (f a) = base a) (cands : List κ) :
    diverse apart' base' mMax (cands.map f) = (diverse apart base mMax cands).map f := by
  have hloop := @diverseLoop_map κ κ' D _ f apart apart' base base' mMax hapart hbase cands [] []
  unfold diverse
  rw [List.length_map]
  split
  · rfl
  · dsimp only
    rw [List.map_nil] at hloop
    rw [hloop, ← List.map_append, List.map_take]

theorem insertAscending_map (hbase : ∀ a, base' (f a) = base a) (xs : List κ) (x : κ) :
    insertAscending base' (xs.map f) (f x) = (insertAscending base xs x).map f := by
  have hp : (fun y => CDouble.lt (base' (f x)) (base' y)) ∘ f =
      fun y => CDouble.lt (base x) (base y) := by
    funext y
    simp only [Function.comp, hbase]
  unfold insertAscending
  rw [List.map_append, List.map_cons]
  congr 1
  · rw [List.rdropWhile, List.rdropWhile, ← List.map_reverse, List.dropWhile_map, hp, List.map_reverse]
  · congr 1
    rw [List.rtakeWhile, List.rtakeWhile, ← List.map_reverse, List.takeWhile_map, hp, List.map_reverse]

theorem sortAscending_map (hbase : ∀ a, base' (f a) = base a) (xs : List κ) :
    sortAscending base' (xs.map f) = (sortAscending base xs).map f := by
  have hfold : ∀ ys : List κ, (xs.map f).foldl (insertAscending base') (ys.map f) =
      (xs.foldl (insertAscending base) ys).map f := by
    induction xs with
    | nil => exact fun ys => rfl
    | cons x xs ih =>
      intro ys
      rw [List.map_cons, List.foldl_cons, List.foldl_cons, insertAscending_map f hbase, ih]
  exact hfold []

end

end PgAcorn.Library
