import PgAcorn.Library.Greedy

/-! Ranges of slots that are never widened: offers to them, one after another.

An element that is offered to a range takes its first empty slot; in a full range the
policy names the occupant that gives way, if one does. `offer_cases` lists what an offer
can do. Two policies follow: the furthest occupant gives way to a nearer element, so that
the range keeps the nearest of all it was offered (`offers_nearest`), and occupants that
are not members give way before those that are, so that members never become fewer
(`membersKept_offer`). -/
namespace PgAcorn.Library

section
variable {κ : Type} [DecidableEq κ]

/-- What the slots hold, in order. -/
def occupants (slots : List (Option κ)) : List κ := slots.filterMap fun slot => slot

/-- The slot that an offered element gets; `victim` speaks for a full range. -/
def offeredSlot (victim : List κ → κ → Option Nat) (slots : List (Option κ)) (x : κ) : Option Nat :=
  if some x ∈ slots then none
  else (slots.findIdx? fun slot => slot.isNone).or (victim (occupants slots) x)

def offer (victim : List κ → κ → Option Nat) (slots : List (Option κ)) (x : κ) :
    List (Option κ) :=
  match offeredSlot victim slots x with
  | none => slots
  | some j => slots.set j (some x)

def offers (victim : List κ → κ → Option Nat) (slots : List (Option κ)) (xs : List κ) :
    List (Option κ) := xs.foldl (offer victim) slots

variable {victim : List κ → κ → Option Nat} {slots : List (Option κ)} {x : κ}

omit [DecidableEq κ] in
theorem mem_occupants : x ∈ occupants slots ↔ some x ∈ slots := by
  simp [occupants]

omit [DecidableEq κ] in
@[simp] theorem occupants_map_some (occ : List κ) : occupants (occ.map some) = occ := by
  simp [occupants]

omit [DecidableEq κ] in
theorem length_occupants_le : (occupants slots).length ≤ slots.length := List.length_filterMap_le _ _

omit [DecidableEq κ] in
/-- Without an empty slot the slots are their occupants. -/
theorem eq_map_some (h : ∀ slot ∈ slots, slot.isNone = false) : slots = (occupants slots).map some := by
  induction slots with
  | nil => rfl
  | cons slot slots ih =>
    cases slot with
    | none => exact absurd (h none (by simp)) (by simp)
    | some y =>
      show some y :: slots = some y :: (occupants slots).map some
      rw [← ih fun slot hslot => h slot (List.mem_cons_of_mem _ hslot)]

omit [DecidableEq κ] in
/-- An empty slot that is filled. -/
theorem occupants_set_free {j : Nat} (h : slots[j]? = some none) :
    (occupants (slots.set j (some x))).Perm (x :: occupants slots) := by
  induction slots generalizing j with
  | nil => cases h
  | cons slot slots ih =>
    cases j with
    | zero =>
      obtain rfl := Option.some.inj h
      rfl
    | succ j =>
      have ih := ih (j := j) (by simpa using h)
      cases slot with
      | none => exact ih
      | some y => exact (ih.cons y).trans (List.Perm.swap x y _)

omit [DecidableEq κ] in
/-- An occupant that is replaced. -/
theorem set_perm {occ : List κ} {j : Nat} {y : κ} (h : occ[j]? = some y) :
    (y :: occ.set j x).Perm (x :: occ) := by
  obtain ⟨hlt, rfl⟩ := List.getElem?_eq_some_iff.mp h
  have hset := List.set_perm_cons_eraseIdx hlt x
  have hget := List.getElem_cons_eraseIdx_perm hlt
  exact ((hset.cons _).trans (List.Perm.swap _ _ _)).trans (hget.cons x)

/-- **What an offer can do**: nothing, if the element is there; fill the first empty slot;
or what the policy says of a full range. -/
theorem offer_cases (victim : List κ → κ → Option Nat) (slots : List (Option κ)) (x : κ) :
    (x ∈ occupants slots ∧ offer victim slots x = slots) ∨
    (x ∉ occupants slots ∧ ∃ j, slots[j]? = some none ∧ offer victim slots x = slots.set j (some x)) ∨
    (x ∉ occupants slots ∧ slots = (occupants slots).map some ∧
      offer victim slots x = match victim (occupants slots) x with
        | none => slots
        | some j => slots.set j (some x)) := by
  unfold offer offeredSlot
  by_cases hmem : some x ∈ slots
  · left
    rw [if_pos hmem]
    exact ⟨mem_occupants.mpr hmem, rfl⟩
  rw [if_neg hmem]
  have hnot : x ∉ occupants slots := fun h => hmem (mem_occupants.mp h)
  cases hfree : slots.findIdx? fun slot => slot.isNone with
  | some j =>
    right; left
    obtain ⟨hlt, hnone, -⟩ := List.findIdx?_eq_some_iff_getElem.mp hfree
    refine ⟨hnot, j, ?_, rfl⟩
    rw [List.getElem?_eq_getElem hlt, Option.isNone_iff_eq_none.mp hnone]
  | none =>
    right; right
    exact ⟨hnot, eq_map_some (List.findIdx?_eq_none_iff.mp hfree), rfl⟩

/-- The slot is one of the range's, if the policy names an occupant. -/
theorem offeredSlot_lt (hv : ∀ j, victim (occupants slots) x = some j → j < (occupants slots).length)
    {j : Nat} (h : offeredSlot victim slots x = some j) : j < slots.length := by
  unfold offeredSlot at h
  split at h
  · cases h
  · obtain h | ⟨-, h⟩ := Option.or_eq_some_iff.mp h
    · exact (List.findIdx?_eq_some_iff_getElem.mp h).1
    · exact (hv j h).trans_le length_occupants_le

@[simp] theorem length_offer : (offer victim slots x).length = slots.length := by
  unfold offer
  split
  · rfl
  · exact List.length_set

@[simp] theorem length_offers (xs : List κ) : (offers victim slots xs).length = slots.length := by
  induction xs generalizing slots with
  | nil => rfl
  | cons x xs ih => exact ih.trans length_offer

theorem offers_concat (xs : List κ) (x : κ) :
    offers victim slots (xs ++ [x]) = offer victim (offers victim slots xs) x := List.foldl_concat ..

/-- What a run puts in comes from its start and its offers. -/
theorem occupants_offer_subset {y : κ} (h : y ∈ occupants (offer victim slots x)) :
    y = x ∨ y ∈ occupants slots := by
  rw [mem_occupants] at h ⊢
  unfold offer at h
  split at h
  · exact .inr h
  · exact (List.mem_or_eq_of_mem_set h).symm.imp_left Option.some.inj

theorem occupants_offers_subset {xs : List κ} {y : κ} (h : y ∈ occupants (offers victim slots xs)) :
    y ∈ occupants slots ∨ y ∈ xs := by
  induction xs using List.reverseRecOn with
  | nil => exact .inl h
  | append_singleton xs x ih =>
    rw [offers_concat] at h
    rw [List.mem_append, List.mem_singleton]
    obtain rfl | h := occupants_offer_subset h
    · exact .inr (.inr rfl)
    · exact (ih h).imp_right .inl

/-- **Corresponding ranges** take corresponding offers. -/
theorem offer_map {κ' : Type} [DecidableEq κ'] (f : κ → κ') {victim' : List κ' → κ' → Option Nat}
    (hinj : ∀ y ∈ occupants slots, f y = f x → y = x)
    (hv : victim' ((occupants slots).map f) (f x) = victim (occupants slots) x) :
    offer victim' (slots.map (Option.map f)) (f x) = (offer victim slots x).map (Option.map f) := by
  have hmem : some (f x) ∈ slots.map (Option.map f) ↔ some x ∈ slots := by
    rw [List.mem_map]
    constructor
    · rintro ⟨slot, hslot, heq⟩
      obtain ⟨y, rfl, hy⟩ := Option.map_eq_some_iff.mp heq
      rwa [← hinj y (mem_occupants.mpr hslot) hy]
    · exact fun h => ⟨some x, h, rfl⟩
  have hfree : (slots.map (Option.map f)).findIdx? (fun slot => slot.isNone) =
      slots.findIdx? fun slot => slot.isNone := by
    rw [List.findIdx?_map]
    congr 1
    funext slot
    exact Option.isNone_map
  have hocc : occupants (slots.map (Option.map f)) = (occupants slots).map f := by
    rw [occupants, occupants, List.filterMap_map, List.map_filterMap]
    rfl
  have hslot : offeredSlot victim' (slots.map (Option.map f)) (f x) = offeredSlot victim slots x := by
    unfold offeredSlot
    rw [hfree, hocc, hv]
    exact if_congr hmem rfl rfl
  rw [offer, offer, hslot]
  cases offeredSlot victim slots x with
  | none => rfl
  | some j =>
    show (slots.map (Option.map f)).set j (Option.map f (some x)) = (slots.set j (some x)).map _
    exact List.map_set.symm

end

/-! ### The nearest -/

section
variable {κ D : Type} [CDouble D]

/-- The furthest occupant gives way to an element that is nearer. -/
def furthestVictim (d : κ → D) (occ : List κ) (x : κ) : Option Nat :=
  let (j, dj) := furthest (occ.map fun y => (true, d y))
  if CDouble.lt (d x) dj then j else none

/-- Distances none of which is not-a-number: any of them lies on one side of a gap
between two others. -/
def Comparable (ds : List D) : Prop :=
  ∀ a ∈ ds, ∀ b ∈ ds, ∀ c ∈ ds, CDouble.lt a c = true → CDouble.lt a b = true ∨ CDouble.lt b c = true

/-- An element below `-DBL_MAX`, offered to a full range, finds an occupant above it. -/
def Clears (d : κ → D) (slots : List (Option κ)) (x : κ) : Prop :=
  none ∉ slots → CDouble.lt (d x) CDouble.negDblMax = true →
    ∃ y ∈ occupants slots, CDouble.lt CDouble.negDblMax (d y) = true

instance [DecidableEq κ] (d : κ → D) (slots : List (Option κ)) (x : κ) : Decidable (Clears d slots x) :=
  inferInstanceAs (Decidable (_ → _ → _))

/-- The `n` nearest of `all`, all of them while they fit. -/
structure Nearest (d : κ → D) (n : Nat) (all kept : List κ) : Prop where
  length : kept.length = min n all.length
  rest : ∃ rest, (kept ++ rest).Perm all ∧ ∀ y ∈ rest, ∀ z ∈ kept, CDouble.lt (d y) (d z) = false

variable {d : κ → D} {x : κ}

theorem Comparable.mono {ds ds' : List D} (h : Comparable ds') (hsub : ∀ a ∈ ds, a ∈ ds') :
    Comparable ds :=
  fun a ha b hb c hc => h a (hsub a ha) b (hsub b hb) c (hsub c hc)

/-- Not above one that is not above a third. -/
theorem Comparable.not_lt {ds : List D} (h : Comparable ds) {a b c : D} (ha : a ∈ ds) (hb : b ∈ ds)
    (hc : c ∈ ds) (hab : CDouble.lt a b = false) (hbc : CDouble.lt b c = false) :
    CDouble.lt a c = false := by
  by_contra hac
  rcases h a ha b hb c hc (by simpa using hac) with hlt | hlt
  · exact absurd (hlt.symm.trans hab) (by simp)
  · exact absurd (hlt.symm.trans hbc) (by simp)

/-- **Who gives way**: the furthest, which is further than the element; if nobody does,
nobody is further. -/
theorem furthestVictim_spec {occ : List κ}
    (hcomp : Comparable (CDouble.negDblMax :: (x :: occ).map d))
    (hclears : CDouble.lt (d x) CDouble.negDblMax = true →
      ∃ y ∈ occ, CDouble.lt CDouble.negDblMax (d y) = true) :
    (∃ j y, furthestVictim d occ x = some j ∧ occ[j]? = some y ∧ CDouble.lt (d x) (d y) = true ∧
      ∀ z ∈ occ, CDouble.lt (d y) (d z) = false) ∨
    (furthestVictim d occ x = none ∧ ∀ z ∈ occ, CDouble.lt (d x) (d z) = false) := by
  have hmem : ∀ {z}, z ∈ occ → d z ∈ (CDouble.negDblMax :: (x :: occ).map d) := fun hz => by
    simp only [List.map_cons, List.mem_cons, List.mem_map]
    exact .inr (.inr ⟨_, hz, rfl⟩)
  have hx : d x ∈ (CDouble.negDblMax :: (x :: occ).map d) := by simp
  unfold furthestVictim
  rcases furthest_spec (occ.map fun y => (true, d y)) with ⟨heq, hall⟩ | ⟨j, dj, hj, heq, -, hall⟩
  · right
    rw [heq]
    refine ⟨by dsimp only; split <;> rfl, fun z hz => ?_⟩
    have hnone : ∀ z ∈ occ, CDouble.lt CDouble.negDblMax (d z) = false := fun z hz =>
      hall (true, d z) (List.mem_map.mpr ⟨z, hz, rfl⟩) rfl
    have hbelow : CDouble.lt (d x) CDouble.negDblMax = false := by
      by_contra hlt
      obtain ⟨y, hy, hlt⟩ := hclears (by simpa using hlt)
      exact absurd (hlt.symm.trans (hnone y hy)) (by simp)
    exact hcomp.not_lt hx (by simp) (hmem hz) hbelow (hnone z hz)
  · rw [heq]
    dsimp only
    obtain ⟨y, hy, hdj⟩ : ∃ y, occ[j]? = some y ∧ d y = dj := by
      rw [List.getElem?_map] at hj
      obtain ⟨y, hy, hdj⟩ := Option.map_eq_some_iff.mp hj
      exact ⟨y, hy, (Prod.mk.inj hdj).2⟩
    subst hdj
    have hmax : ∀ z ∈ occ, CDouble.lt (d y) (d z) = false := fun z hz =>
      hall (true, d z) (List.mem_map.mpr ⟨z, hz, rfl⟩) rfl
    cases hlt : CDouble.lt (d x) (d y) with
    | true => exact .inl ⟨j, y, by rw [if_pos rfl], hy, hlt, hmax⟩
    | false =>
      refine .inr ⟨by rw [if_neg Bool.false_ne_true], fun z hz => ?_⟩
      exact hcomp.not_lt hx (hmem (List.mem_of_getElem? hy)) (hmem hz) hlt (hmax z hz)

variable [DecidableEq κ] {slots : List (Option κ)} {all : List κ}

/-- **One offer**: the nearest are kept, and only something further gives way. -/
theorem Nearest.offer (h : Nearest d slots.length all (occupants slots)) (hx : x ∉ occupants slots)
    (hcomp : Comparable (CDouble.negDblMax :: (x :: occupants slots).map d))
    (hclears : Clears d slots x) :
    Nearest d slots.length (all ++ [x]) (occupants (offer (furthestVictim d) slots x)) ∧
      ∀ y ∈ occupants slots, y ∉ occupants (offer (furthestVictim d) slots x) →
        CDouble.lt (d x) (d y) = true := by
  obtain ⟨rest, hperm, hrest⟩ := h.rest
  have hlen := h.length
  have hall := hperm.length_eq
  rw [List.length_append] at hall
  rcases offer_cases (furthestVictim d) slots x with ⟨hmem, -⟩ | ⟨-, j, hj, heq⟩ | ⟨-, hfull, heq⟩
  · exact absurd hmem hx
  · -- an empty slot: so far everything fits
    have hset := occupants_set_free (x := x) hj
    have hroom : (occupants (slots.set j (some x))).length ≤ (slots.set j (some x)).length :=
      length_occupants_le
    rw [hset.length_eq, List.length_cons, List.length_set] at hroom
    obtain rfl : rest = [] := List.eq_nil_of_length_eq_zero (by omega)
    rw [heq]
    refine ⟨⟨?_, [], ?_, by simp⟩, fun y hy hnot => absurd (hset.mem_iff.mpr (by simp [hy])) hnot⟩
    · rw [hset.length_eq, List.length_cons, List.length_append, List.length_singleton]
      omega
    · rw [List.append_nil] at hperm ⊢
      exact hset.trans ((hperm.cons x).trans (List.perm_append_singleton x all).symm)
  · have hcount : (occupants slots).length = slots.length := by
      conv_rhs => rw [hfull]
      rw [List.length_map]
    have hnone : none ∉ slots := by
      rw [hfull]
      simp
    rw [heq]
    rcases furthestVictim_spec hcomp (hclears hnone) with
      ⟨j, y, hv, hj, hlt, hmax⟩ | ⟨hv, hnearer⟩
    · -- the furthest gives way and joins the rest
      rw [hv]
      dsimp only
      have hocc : occupants (slots.set j (some x)) = (occupants slots).set j x := by
        conv_lhs => rw [hfull]
        rw [← List.map_set, occupants_map_some]
      have hset := set_perm (x := x) hj
      rw [hocc]
      refine ⟨⟨?_, y :: rest, ?_, ?_⟩, ?_⟩
      · rw [List.length_set, List.length_append, List.length_singleton]
        omega
      · have hswap : ((occupants slots).set j x ++ y :: rest).Perm
            (y :: (occupants slots).set j x ++ rest) := List.perm_middle
        exact hswap.trans ((hset.append_right rest).trans
          ((hperm.cons x).trans (List.perm_append_singleton x all).symm))
      · intro r hr z hz
        have hz : z = x ∨ z ∈ occupants slots := (List.mem_or_eq_of_mem_set hz).symm
        obtain rfl | hr := List.mem_cons.mp hr
        · obtain rfl | hz := hz
          · exact CDouble.asymm hlt
          · exact hmax z hz
        · obtain rfl | hz := hz
          · -- nearer than the element would be nearer than the furthest
            cases hrx : CDouble.lt (d r) (d z) with
            | false => rfl
            | true =>
              have hry := hrest r hr y (List.mem_of_getElem? hj)
              exact absurd ((CDouble.trans hrx hlt).symm.trans hry) (by simp)
          · exact hrest r hr z hz
      · intro z hz hnot
        obtain rfl | hz := List.mem_cons.mp (hset.mem_iff.mpr (List.mem_cons_of_mem x hz))
        · exact hlt
        · exact absurd hz hnot
    · rw [hv]
      dsimp only
      refine ⟨⟨?_, x :: rest, ?_, ?_⟩, fun y hy hnot => absurd hy hnot⟩
      · rw [List.length_append, List.length_singleton]
        omega
      · exact List.perm_middle.trans ((hperm.cons x).trans (List.perm_append_singleton x all).symm)
      · intro r hr z hz
        obtain rfl | hr := List.mem_cons.mp hr
        · exact hnearer z hz
        · exact hrest r hr z hz

/-- An element below `-DBL_MAX` only comes while fewer than `n` are not above it. -/
def LeavesRoom (d : κ → D) (n : Nat) (start xs : List κ) : Prop :=
  ∀ pre x post, xs = pre ++ x :: post → CDouble.lt (d x) CDouble.negDblMax = true →
    (start ++ pre).countP (fun y => !CDouble.lt CDouble.negDblMax (d y)) < n

omit [DecidableEq κ] in
/-- A full range with the nearest then has an occupant above it. -/
theorem Nearest.clears {n : Nat} (h : Nearest d n all (occupants slots)) (hn : slots.length = n)
    (hroom : CDouble.lt (d x) CDouble.negDblMax = true →
      all.countP (fun y => !CDouble.lt CDouble.negDblMax (d y)) < n) :
    Clears d slots x := by
  intro hnone hlt
  by_contra hall
  push Not at hall
  have hfull : slots = (occupants slots).map some :=
    eq_map_some fun slot hslot => by
      cases slot with
      | none => exact absurd hslot hnone
      | some y => rfl
  obtain ⟨rest, hperm, -⟩ := h.rest
  have hcount : (occupants slots).countP (fun y => !CDouble.lt CDouble.negDblMax (d y)) =
      (occupants slots).length :=
    List.countP_eq_length.mpr fun y hy => by simpa using hall y hy
  have hlen : (occupants slots).length = slots.length := by
    conv_rhs => rw [hfull]
    rw [List.length_map]
  have hle := hperm.countP_eq fun y => !CDouble.lt CDouble.negDblMax (d y)
  rw [List.countP_append] at hle
  have := hroom hlt
  omega

/-- A run over a range, by what the range holds after each of its offers: always the nearest
of all so far, and what gives way is further than what it gives way to. -/
structure NearestRun (d : κ → D) (n : Nat) (start xs : List κ) (after : List κ → List (Option κ)) :
    Prop where
  length : ∀ pre, (after pre).length = n
  nearest : ∀ pre post, xs = pre ++ post → Nearest d n (start ++ pre) (occupants (after pre))
  further : ∀ pre x post, xs = pre ++ x :: post → ∀ y ∈ occupants (after pre),
    y ∉ occupants (after (pre ++ [x])) → CDouble.lt (d x) (d y) = true

/-- **A run of offers of new elements** keeps the nearest. -/
theorem offers_nearest {xs : List κ} (hnodup : (occupants slots ++ xs).Nodup)
    (hcomp : Comparable (CDouble.negDblMax :: (occupants slots ++ xs).map d))
    (hroom : LeavesRoom d slots.length (occupants slots) xs) :
    NearestRun d slots.length (occupants slots) xs (offers (furthestVictim d) slots) := by
  -- one more offer to what holds the nearest
  have hstep : ∀ pre x post, xs = pre ++ x :: post →
      Nearest d slots.length (occupants slots ++ pre)
        (occupants (offers (furthestVictim d) slots pre)) →
      Nearest d slots.length (occupants slots ++ (pre ++ [x]))
          (occupants (offers (furthestVictim d) slots (pre ++ [x]))) ∧
        ∀ y ∈ occupants (offers (furthestVictim d) slots pre),
          y ∉ occupants (offers (furthestVictim d) slots (pre ++ [x])) →
            CDouble.lt (d x) (d y) = true := by
    rintro pre x post rfl h
    have hlen : (offers (furthestVictim d) slots pre).length = slots.length := length_offers pre
    have hsub : ∀ y ∈ occupants (offers (furthestVictim d) slots pre), y ∈ occupants slots ++ pre :=
      fun y hy => List.mem_append.mpr (occupants_offers_subset hy)
    have hx : x ∉ occupants (offers (furthestVictim d) slots pre) := fun hmem => by
      rw [← List.append_assoc] at hnodup
      exact List.disjoint_of_nodup_append hnodup (hsub x hmem) (by simp)
    have hcomp' : Comparable
        (CDouble.negDblMax :: (x :: occupants (offers (furthestVictim d) slots pre)).map d) := by
      refine hcomp.mono fun a ha => ?_
      obtain rfl | ha := List.mem_cons.mp ha
      · exact List.mem_cons_self
      · obtain ⟨y, hy, rfl⟩ := List.mem_map.mp ha
        refine List.mem_cons_of_mem _ (List.mem_map.mpr ⟨y, ?_, rfl⟩)
        obtain rfl | hy := List.mem_cons.mp hy
        · simp
        · rw [← List.append_assoc]
          exact List.mem_append_left _ (hsub y hy)
    have hclears := h.clears hlen (hroom pre x post rfl)
    rw [← hlen] at h
    rw [offers_concat, ← List.append_assoc, ← hlen]
    exact h.offer hx hcomp' hclears
  have hnearest : ∀ pre post, xs = pre ++ post → Nearest d slots.length (occupants slots ++ pre)
      (occupants (offers (furthestVictim d) slots pre)) := by
    intro pre
    induction pre using List.reverseRecOn with
    | nil =>
      intro post _
      refine ⟨?_, [], by simp [offers], by simp⟩
      rw [List.append_nil]
      exact (Nat.min_eq_right length_occupants_le).symm
    | append_singleton pre x ih =>
      intro post h
      rw [List.append_assoc] at h
      exact (hstep pre x post h (ih _ h)).1
  exact ⟨length_offers, hnearest, fun pre x post h => (hstep pre x post h (hnearest _ _ h)).2⟩

end

/-! ### Members -/

section
variable {κ : Type}

/-- What a range may undergo whose members matter: they do not become fewer, and one of them
gives way only where all slots are taken and by members. -/
structure MembersKept (member : κ → Bool) (slots slots' : List (Option κ)) : Prop where
  count : (occupants slots).countP member ≤ (occupants slots').countP member
  replaced : ∀ (i : Nat) (y : κ), slots[i]? = some (some y) → member y = true →
    slots'[i]? ≠ some (some y) → none ∉ slots ∧ ∀ z ∈ occupants slots, member z = true

theorem MembersKept.refl (member : κ → Bool) (slots : List (Option κ)) :
    MembersKept member slots slots :=
  ⟨le_rfl, fun _ _ hy _ hne => absurd hy hne⟩

variable [DecidableEq κ] {member : κ → Bool} {victim : List κ → κ → Option Nat}
  {slots : List (Option κ)} {x : κ}

/-- **A member that is offered** leaves the members as they are or adds to them, if the policy
names one of them only among members. -/
theorem membersKept_offer (hx : member x = true)
    (hv : some x ∉ slots → none ∉ slots → ∀ (j : Nat) (y : κ), victim (occupants slots) x = some j →
      (occupants slots)[j]? = some y → member y = true → ∀ z ∈ occupants slots, member z = true) :
    MembersKept member slots (offer victim slots x) := by
  rcases offer_cases victim slots x with ⟨-, heq⟩ | ⟨-, j, hj, heq⟩ | ⟨hnew, hfull, heq⟩
  · rw [heq]
    exact .refl member slots
  · -- an empty slot is filled
    rw [heq]
    refine ⟨?_, fun i y hi _ hne => absurd ?_ hne⟩
    · rw [(occupants_set_free hj).countP_eq, List.countP_cons]
      exact Nat.le_add_right _ _
    · have hij : j ≠ i := by
        rintro rfl
        rw [hj] at hi
        cases hi
      rw [List.getElem?_set_ne hij, hi]
  · have hnone : none ∉ slots := by
      rw [hfull]
      simp
    rw [heq]
    cases hvictim : victim (occupants slots) x with
    | none => exact .refl member slots
    | some j =>
      dsimp only
      have hocc : occupants (slots.set j (some x)) = (occupants slots).set j x := by
        conv_lhs => rw [hfull]
        rw [← List.map_set, occupants_map_some]
      cases hy : (occupants slots)[j]? with
      | none =>
        -- no occupant is named
        have hlen : slots.length ≤ j := by
          rw [hfull, List.length_map]
          exact List.getElem?_eq_none_iff.mp hy
        rw [List.set_eq_of_length_le hlen]
        exact .refl member slots
      | some y =>
        refine ⟨?_, fun i z hi hz hne => ⟨hnone, hv (mt mem_occupants.mpr hnew) hnone j y hvictim hy ?_⟩⟩
        · have hcount := (set_perm (x := x) hy).countP_eq member
          rw [List.countP_cons, List.countP_cons, if_pos hx] at hcount
          rw [hocc]
          split at hcount <;> omega
        · -- the slot that changed is the one that is named
          by_cases hij : j = i
          · subst hij
            have hz' : (occupants slots)[j]? = some z := by
              rw [hfull, List.getElem?_map] at hi
              obtain ⟨w, hw, hwz⟩ := Option.map_eq_some_iff.mp hi
              rw [hw, Option.some.inj hwz]
            rw [hz'] at hy
            rwa [← Option.some.inj hy]
          · exact absurd ((List.getElem?_set_ne hij).trans hi) hne

end

section
variable {κ D : Type} [CDouble D] {member : κ → Bool} {d : κ → D} {occ : List κ}

/-- If there are strangers, one of them is above `-DBL_MAX`. -/
def StrangersSeen (member : κ → Bool) (d : κ → D) (occ : List κ) : Prop :=
  (∃ y ∈ occ, member y = false) →
    ∃ z ∈ occ, member z = false ∧ CDouble.lt CDouble.negDblMax (d z) = true

instance (member : κ → Bool) (d : κ → D) (occ : List κ) : Decidable (StrangersSeen member d occ) :=
  inferInstanceAs (Decidable (_ → _))

/-- A search for the furthest stranger that finds none is right about it. -/
theorem StrangersSeen.members (h : StrangersSeen member d occ)
    (hnone : (furthest (occ.map fun y => (!member y, d y))).1 = none) :
    ∀ y ∈ occ, member y = true := by
  rcases furthest_spec (occ.map fun y => (!member y, d y)) with ⟨-, hall⟩ | ⟨j, e, -, heq, -⟩
  · intro y hy
    by_contra hstranger
    obtain ⟨z, hz, hzs, habove⟩ := h ⟨y, hy, by simpa using hstranger⟩
    have hbelow := hall (!member z, d z) (List.mem_map.mpr ⟨z, hz, rfl⟩) (by simp [hzs])
    exact absurd (habove.symm.trans hbelow) (by simp)
  · rw [heq] at hnone
    cases hnone

/-- **Strangers first**: a policy that looks for the furthest stranger before anything else
names a member only among members. -/
theorem StrangersSeen.first (h : StrangersSeen member d occ) {rest : Option Nat} {j : Nat} {y : κ}
    (hv : (furthest (occ.map fun y => (!member y, d y))).1.or rest = some j) (hy : occ[j]? = some y)
    (hmember : member y = true) : ∀ z ∈ occ, member z = true := by
  rcases furthest_spec (occ.map fun y => (!member y, d y)) with ⟨heq, -⟩ | ⟨k, e, hk, heq, -⟩
  · exact h.members (by rw [heq])
  · -- a stranger was found, and it is not the member
    rw [heq, Option.some_or] at hv
    obtain rfl := Option.some.inj hv
    rw [List.getElem?_map, hy] at hk
    have hflag := congrArg Prod.fst (Option.some.inj hk)
    dsimp only at hflag
    rw [hmember] at hflag
    cases hflag

end

end PgAcorn.Library
