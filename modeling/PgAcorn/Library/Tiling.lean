import Mathlib.Data.List.Flatten
import Mathlib.Data.List.Range

/-! Consecutive pieces of a range.

A piece is where it starts and how long it is. Pieces tile a range if each starts
where the one before it ends (`Tiles`). Tiles go through the positions in order
(`Tiles.positions`), and every position is in exactly one of them (`Tiles.countP`);
pieces of a fixed size tile what they are cut from (`tiles_cut`). Records of one width,
one after the other, are read and overwritten by where they begin (`read_record`,
`overwrite_record`). -/
namespace PgAcorn.Library

/-- The pieces, in order, from `a` to `stop`. -/
inductive Tiles (stop : Nat) : Nat → List (Nat × Nat) → Prop
  | nil : Tiles stop stop []
  | cons {a n : Nat} {ps : List (Nat × Nat)} (h : Tiles stop (a + n) ps) :
      Tiles stop a ((a, n) :: ps)

/-- Whether a piece has a position. -/
def covers (p : Nat × Nat) (j : Nat) : Bool := decide (p.1 ≤ j ∧ j < p.1 + p.2)

@[simp] theorem covers_iff {p : Nat × Nat} {j : Nat} : covers p j ↔ p.1 ≤ j ∧ j < p.1 + p.2 :=
  decide_eq_true_iff

/-- `n` in pieces of `cap` at most, from `first` on. -/
def cut (first n cap : Nat) : List (Nat × Nat) :=
  (List.range ((n + cap - 1) / cap)).map fun c => (first + c * cap, min (n - c * cap) cap)

section
variable {stop a : Nat} {ps : List (Nat × Nat)}

theorem Tiles.le (h : Tiles stop a ps) : a ≤ stop := by
  induction h with
  | nil => exact Nat.le_refl _
  | cons _ ih => omega

theorem Tiles.mem_le (h : Tiles stop a ps) {p : Nat × Nat} (hp : p ∈ ps) :
    a ≤ p.1 ∧ p.1 + p.2 ≤ stop := by
  induction h with
  | nil => cases hp
  | cons h ih =>
    obtain rfl | hp := List.mem_cons.mp hp
    · exact ⟨Nat.le_refl _, h.le⟩
    · have hrest := ih hp
      omega

/-- **Tiles go through the positions in order.** -/
theorem Tiles.positions (h : Tiles stop a ps) :
    ps.flatMap (fun p => List.range' p.1 p.2) = List.range' a (stop - a) := by
  induction h with
  | nil => simp
  | @cons a n ps h ih =>
    have hle := h.le
    have hlen : stop - a = n + (stop - (a + n)) := by omega
    rw [List.flatMap_cons, ih, hlen, List.range'_append_1]

/-- **Tiles of a list's positions cut the list.** -/
theorem Tiles.flatMap_take {α : Type} (h : Tiles stop a ps) (l : List α) :
    ps.flatMap (fun p => (l.drop p.1).take p.2) = (l.drop a).take (stop - a) := by
  induction h with
  | nil => simp
  | @cons a n ps h ih =>
    have hle := h.le
    have hlen : stop - a = n + (stop - (a + n)) := by omega
    rw [List.flatMap_cons, ih, hlen, List.take_add, List.drop_drop]

/-- **Every position is in exactly one tile.** -/
theorem Tiles.countP (h : Tiles stop a ps) {j : Nat} (ha : a ≤ j) (hj : j < stop) :
    ps.countP (covers · j) = 1 := by
  induction h with
  | nil => omega
  | @cons a n ps h ih =>
    by_cases hjn : j < a + n
    · have hrest : ps.countP (covers · j) = 0 := by
        rw [List.countP_eq_zero]
        intro p hp hc
        have hstart := (h.mem_le hp).1
        have hpos := (covers_iff.mp hc).1
        omega
      have hfirst : covers (a, n) j := covers_iff.mpr ⟨ha, hjn⟩
      rw [List.countP_cons_of_pos (p := (covers · j)) hfirst, hrest]
    · have hfirst : ¬ covers (a, n) j := fun hc => hjn (covers_iff.mp hc).2
      rw [List.countP_cons_of_neg (p := (covers · j)) hfirst]
      exact ih (by omega)

/-- A first piece, and the others. -/
theorem tiles_cons {p : Nat × Nat} : Tiles stop a (p :: ps) ↔ p.1 = a ∧ Tiles stop (a + p.2) ps := by
  constructor
  · rintro (_ | h)
    exact ⟨rfl, h⟩
  · rintro ⟨rfl, h⟩
    exact .cons h

/-- **Pieces of a fixed size tile what they are cut from.** -/
theorem tiles_cut {cap : Nat} (hcap : 0 < cap) (first n : Nat) :
    Tiles (first + n) first (cut first n cap) := by
  induction n using Nat.strong_induction_on generalizing first with
  | _ n ih =>
    obtain rfl | hn := Nat.eq_zero_or_pos n
    · have hnone : (0 + cap - 1) / cap = 0 := Nat.div_eq_of_lt (by omega)
      unfold cut
      rw [hnone]
      exact .nil
    -- one piece, and what is cut from the rest
    have hcount : (n + cap - 1) / cap = (n - cap + cap - 1) / cap + 1 := by
      by_cases hle : cap ≤ n
      · have hsum : n + cap - 1 = n - cap + cap - 1 + cap := by omega
        rw [hsum, Nat.add_div_right _ hcap]
      · have hzero : n - cap + cap - 1 = cap - 1 := by omega
        have hone : n + cap - 1 = n - 1 + cap := by omega
        rw [hzero, hone, Nat.add_div_right _ hcap, Nat.div_eq_of_lt (by omega : n - 1 < cap),
          Nat.div_eq_of_lt (by omega : cap - 1 < cap)]
    have hcut : cut first n cap = (first, min n cap) :: cut (first + cap) (n - cap) cap := by
      unfold cut
      rw [hcount, List.range_succ_eq_map, List.map_cons, List.map_map]
      simp only [Nat.zero_mul, Nat.add_zero, Nat.sub_zero]
      congr 1
      apply List.map_congr_left
      intro c _
      simp only [Function.comp_apply, Nat.succ_mul, Prod.mk.injEq]
      omega
    rw [hcut]
    apply Tiles.cons
    by_cases hle : cap ≤ n
    · have hrest := ih (n - cap) (by omega) (first + cap)
      have hstop : first + cap + (n - cap) = first + n := by omega
      rw [hstop] at hrest
      rw [Nat.min_eq_right hle]
      exact hrest
    · have hnone : cut (first + cap) (n - cap) cap = [] := by
        have hzero : (n - cap + cap - 1) / cap = 0 := Nat.div_eq_of_lt (by omega)
        unfold cut
        rw [hzero]
        rfl
      rw [hnone, Nat.min_eq_left (by omega)]
      exact .nil

end

/-! ### Records -/

section
variable {α β : Type}

/-- `new` in the place of what begins at `off`. -/
def overwrite (l : List β) (off : Nat) (new : List β) : List β :=
  l.take off ++ new ++ l.drop (off + new.length)

theorem overwrite_append (front l : List β) (off : Nat) (new : List β) :
    overwrite (front ++ l) (front.length + off) new = front ++ overwrite l off new := by
  unfold overwrite
  rw [List.take_length_add_append, Nat.add_assoc, List.drop_length_add_append]
  simp only [List.append_assoc]

variable {enc : α → List β} {w : Nat}

theorem length_records (henc : ∀ x, (enc x).length = w) (l : List α) :
    (l.flatMap enc).length = l.length * w := by
  induction l with
  | nil => simp
  | cons x l ih => rw [List.flatMap_cons, List.length_append, henc, ih, List.length_cons, Nat.succ_mul,
      Nat.add_comm]

/-- **A record is read** where it begins. -/
theorem read_record (henc : ∀ x, (enc x).length = w) {l : List α} {i : Nat} {x : α}
    (h : l[i]? = some x) : ((l.flatMap enc).drop (i * w)).take w = enc x := by
  induction l generalizing i with
  | nil => cases h
  | cons y l ih =>
    rw [List.flatMap_cons]
    cases i with
    | zero =>
      cases h
      rw [Nat.zero_mul, List.drop_zero, ← henc x, List.take_left]
    | succ i =>
      have hoff : (i + 1) * w = (enc y).length + i * w := by rw [henc, Nat.succ_mul, Nat.add_comm]
      rw [hoff, List.drop_length_add_append]
      exact ih h

/-- **A record is overwritten** where it begins. -/
theorem overwrite_record (henc : ∀ x, (enc x).length = w) {l : List α} {i : Nat} (hi : i < l.length)
    (x : α) : overwrite (l.flatMap enc) (i * w) (enc x) = (l.set i x).flatMap enc := by
  induction l generalizing i with
  | nil => cases hi
  | cons y l ih =>
    rw [List.flatMap_cons]
    cases i with
    | zero =>
      have hdrop : (enc y ++ l.flatMap enc).drop (enc x).length = l.flatMap enc := by
        rw [henc, ← henc y, List.drop_left]
      unfold overwrite
      rw [Nat.zero_mul, Nat.zero_add, List.take_zero, hdrop]
      rfl
    | succ i =>
      have hoff : (i + 1) * w = (enc y).length + i * w := by rw [henc, Nat.succ_mul, Nat.add_comm]
      rw [hoff, overwrite_append, ih (Nat.lt_of_succ_lt_succ hi)]
      rfl

end

end PgAcorn.Library
