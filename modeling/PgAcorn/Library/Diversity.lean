import PgAcorn.Library.Double
import Mathlib.Data.List.DropRight
import Mathlib.Data.List.Perm.Subperm

/-! Choosing among candidates around a base: the diversity heuristic with refill,
insertion by distance, and the furthest of some candidates.

`diverse` keeps a candidate that is nearer to the base than to every one kept so
far and refills from those it pruned, so it chooses as many as it can; which ones
it chooses is up to the distances, that they are distinct candidates is not. -/
namespace PgAcorn.Library

theorem subperm_map {α β : Type} {l l' : List α} (h : l.Subperm l') (f : α → β) :
    (l.map f).Subperm (l'.map f) := by
  obtain ⟨k, hk, hsub⟩ := h
  exact ⟨k.map f, hk.map f, hsub.map f⟩

theorem nodup_of_subperm {α : Type} {l l' : List α} (h : l.Subperm l') (hnodup : l'.Nodup) :
    l.Nodup := by
  obtain ⟨k, hk, hsub⟩ := h
  exact hk.nodup_iff.mp (hnodup.sublist hsub)

section
variable {κ D : Type} [CDouble D]

/-! ### The diversity heuristic -/

/-- Keeps or prunes one candidate after the other until `mMax` are kept. -/
def diverseLoop (apart : κ → κ → D) (base : κ → D) (mMax : Nat) :
    List κ → List κ × List κ → List κ × List κ
  | [], acc => acc
  | c :: cs, (kept, pruned) =>
    if kept.length < mMax then
      if kept.any fun k => CDouble.le (apart c k) (base c) then
        diverseLoop apart base mMax cs (kept, pruned ++ [c])
      else diverseLoop apart base mMax cs (kept ++ [c], pruned)
    else (kept, pruned)

/-- Up to `mMax` of the candidates, those pruned last. -/
def diverse (apart : κ → κ → D) (base : κ → D) (mMax : Nat) (cands : List κ) : List κ :=
  if cands.length ≤ mMax then cands
  else
    let r := diverseLoop apart base mMax cands ([], [])
    (r.1 ++ r.2).take mMax

variable {apart : κ → κ → D} {base : κ → D} {mMax : Nat}

/-- What was kept and pruned comes from the candidates, and either all of them
were looked at or enough were kept. -/
theorem diverseLoop_spec (apart : κ → κ → D) (base : κ → D) (mMax : Nat) (cs : List κ)
    (acc : List κ × List κ) :
    let r := diverseLoop apart base mMax cs acc
    (r.1 ++ r.2).Subperm (acc.1 ++ acc.2 ++ cs) ∧
      ((r.1 ++ r.2).length = (acc.1 ++ acc.2 ++ cs).length ∨ mMax ≤ r.1.length) := by
  induction cs generalizing acc with
  | nil =>
    simp only [diverseLoop, List.append_nil]
    exact ⟨List.Subperm.refl _, .inl trivial⟩
  | cons c cs ih =>
    obtain ⟨kept, pruned⟩ := acc
    have hpruned : (kept ++ (pruned ++ [c]) ++ cs).Perm (kept ++ pruned ++ c :: cs) := by simp
    have hkept : (kept ++ [c] ++ pruned ++ cs).Perm (kept ++ pruned ++ c :: cs) := by
      simp only [List.append_assoc, List.singleton_append]
      exact (List.perm_middle.symm).append_left kept
    dsimp only
    rw [diverseLoop]
    split
    · split
      · obtain ⟨hsub, hlen⟩ := ih (kept, pruned ++ [c])
        exact ⟨hsub.trans hpruned.subperm, hlen.imp_left fun h => h.trans hpruned.length_eq⟩
      · obtain ⟨hsub, hlen⟩ := ih (kept ++ [c], pruned)
        exact ⟨hsub.trans hkept.subperm, hlen.imp_left fun h => h.trans hkept.length_eq⟩
    · refine ⟨(List.sublist_append_left _ _).subperm, .inr ?_⟩
      exact Nat.le_of_not_lt ‹_›

/-- The chosen ones are among the candidates, each as often as there. -/
theorem diverse_subperm (cands : List κ) : (diverse apart base mMax cands).Subperm cands := by
  unfold diverse
  split
  · exact List.Subperm.refl _
  · obtain ⟨hsub, -⟩ := diverseLoop_spec apart base mMax cands ([], [])
    exact (List.take_sublist _ _).subperm.trans hsub

/-- As many are chosen as there can be. -/
theorem length_diverse (cands : List κ) :
    (diverse apart base mMax cands).length = min mMax cands.length := by
  unfold diverse
  split
  · omega
  · obtain ⟨-, hlen⟩ := diverseLoop_spec apart base mMax cands ([], [])
    simp only [List.nil_append] at hlen
    rw [List.length_take]
    obtain hlen | hlen := hlen
    · rw [hlen]
    · rw [List.length_append]
      omega

/-! ### Insertion by distance -/

/-- Puts `x` in front of those at the end that are further than it. -/
def insertAscending (base : κ → D) (xs : List κ) (x : κ) : List κ :=
  xs.rdropWhile (fun y => CDouble.lt (base x) (base y)) ++
    x :: xs.rtakeWhile fun y => CDouble.lt (base x) (base y)

/-- Insertion sort. -/
def sortAscending (base : κ → D) (xs : List κ) : List κ := xs.foldl (insertAscending base) []

theorem insertAscending_perm (xs : List κ) (x : κ) : (insertAscending base xs x).Perm (x :: xs) := by
  unfold insertAscending
  refine List.perm_middle.trans (List.Perm.cons x ?_)
  rw [List.rdropWhile, List.rtakeWhile, ← List.reverse_append, List.takeWhile_append_dropWhile,
    List.reverse_reverse]

theorem sortAscending_perm (xs : List κ) : (sortAscending base xs).Perm xs := by
  have hfold : ∀ ys : List κ, (xs.foldl (insertAscending base) ys).Perm (ys ++ xs) := by
    induction xs with
    | nil => simp
    | cons x xs ih =>
      intro ys
      refine (ih _).trans (((insertAscending_perm ys x).append_right xs).trans ?_)
      exact List.perm_middle.symm
  exact (hfold []).trans (by simp)

/-! ### The furthest one -/

/-- The last position so far whose distance is above all eligible ones before it. -/
def furthestFrom : Option Nat × D → Nat → List (Bool × D) → Option Nat × D
  | best, _, [] => best
  | best, j, (eligible, d) :: xs =>
    furthestFrom (if eligible && CDouble.lt best.2 d then (some j, d) else best) (j + 1) xs

/-- The furthest eligible distance above `-DBL_MAX`, with its position. -/
def furthest (xs : List (Bool × D)) : Option Nat × D :=
  furthestFrom (none, CDouble.negDblMax) 0 xs

theorem furthestFrom_lt {best : Option Nat × D} {j k : Nat} {xs : List (Bool × D)}
    (h : (furthestFrom best j xs).1 = some k) : best.1 = some k ∨ (j ≤ k ∧ k < j + xs.length) := by
  induction xs generalizing best j with
  | nil => exact .inl h
  | cons x xs ih =>
    obtain ⟨eligible, d⟩ := x
    rw [furthestFrom] at h
    rw [List.length_cons]
    obtain hbest | hrange := ih h
    · split at hbest
      · obtain rfl := Option.some.inj hbest
        exact .inr (by omega)
      · exact .inl hbest
    · exact .inr (by omega)

/-- The furthest one is one of them. -/
theorem furthest_lt {xs : List (Bool × D)} {k : Nat} (h : (furthest xs).1 = some k) :
    k < xs.length := by
  obtain h | h := furthestFrom_lt h
  · cases h
  · omega

/-- The best so far remains, and nothing eligible is above it, or it gives way to one of
those that follow, the furthest of the eligible ones. -/
theorem furthestFrom_spec (best : Option Nat × D) (j : Nat) (xs : List (Bool × D)) :
    (furthestFrom best j xs = best ∧ ∀ x ∈ xs, x.1 = true → CDouble.lt best.2 x.2 = false) ∨
    ∃ k d, xs[k]? = some (true, d) ∧ furthestFrom best j xs = (some (j + k), d) ∧
      CDouble.lt best.2 d = true ∧ ∀ x ∈ xs, x.1 = true → CDouble.lt d x.2 = false := by
  induction xs generalizing best j with
  | nil => exact .inl ⟨rfl, by simp⟩
  | cons x xs ih =>
    obtain ⟨eligible, d⟩ := x
    rw [furthestFrom]
    split
    · rename_i hx
      obtain ⟨rfl, hlt⟩ := Bool.and_eq_true_iff.mp hx
      right
      rcases ih (some j, d) (j + 1) with ⟨heq, hall⟩ | ⟨k, d', hk, heq, hlt', hall⟩
      · refine ⟨0, d, rfl, heq, hlt, fun x hx he => ?_⟩
        obtain rfl | hx := List.mem_cons.mp hx
        · exact CDouble.irrefl d
        · exact hall x hx he
      · refine ⟨k + 1, d', hk, by rw [heq]; congr 2; omega, CDouble.trans hlt hlt', fun x hx he => ?_⟩
        obtain rfl | hx := List.mem_cons.mp hx
        · exact CDouble.asymm hlt'
        · exact hall x hx he
    · rename_i hx
      have hself : eligible = true → CDouble.lt best.2 d = false := by
        rintro rfl
        simpa using hx
      rcases ih best (j + 1) with ⟨heq, hall⟩ | ⟨k, d', hk, heq, hlt', hall⟩
      · refine .inl ⟨heq, fun x hx he => ?_⟩
        obtain rfl | hx := List.mem_cons.mp hx
        · exact hself he
        · exact hall x hx he
      · refine .inr ⟨k + 1, d', hk, by rw [heq]; congr 2; omega, hlt', fun x hx he => ?_⟩
        obtain rfl | hx := List.mem_cons.mp hx
        · -- otherwise it would be above the best
          cases hd : CDouble.lt d' d with
          | false => rfl
          | true => exact absurd (CDouble.trans hlt' hd) (by rw [hself he]; simp)
        · exact hall x hx he

/-- **The furthest one**: none is above `-DBL_MAX`, or it is above that and none is above it. -/
theorem furthest_spec (xs : List (Bool × D)) :
    (furthest xs = (none, CDouble.negDblMax) ∧
      ∀ x ∈ xs, x.1 = true → CDouble.lt CDouble.negDblMax x.2 = false) ∨
    ∃ k d, xs[k]? = some (true, d) ∧ furthest xs = (some k, d) ∧
      CDouble.lt CDouble.negDblMax d = true ∧ ∀ x ∈ xs, x.1 = true → CDouble.lt d x.2 = false := by
  have h := furthestFrom_spec ((none, CDouble.negDblMax) : Option Nat × D) 0 xs
  simpa only [furthest, Nat.zero_add] using h

end

end PgAcorn.Library
