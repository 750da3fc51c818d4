import Mathlib.Data.BitVec
import Mathlib.Logic.Function.Basic

/-! Sequence locks: cells that are read without a lock while one writer at a time
changes them.

A cell has a version beside its fields. A writer makes the version odd, writes
fields, and makes the version even again, two above the old one. A reader takes an
even version, reads fields one by one, and accepts them if the version is still the
same. `Stamped` ties the version to the number of writes that have ended; `Reading`
is what a reader knows between two of its reads, kept by whatever the writers do;
`Reading.accept` is the guarantee: with fewer than `2 ^ 31` writes ended meanwhile,
all that was read was in the cell at one moment between writes. -/
namespace PgAcorn.Library

/-- A cell with its version. -/
structure SeqCell (φ ω : Type) where
  version : BitVec 32
  field : φ → ω

section
variable {φ ω : Type} [DecidableEq φ]

namespace SeqCell
variable (c : SeqCell φ ω)

/-- Makes the version odd. -/
def writeBegin : SeqCell φ ω := { c with version := c.version ||| 1#32 }

/-- Writes one field. -/
def write (f : φ) (x : ω) : SeqCell φ ω := { c with field := Function.update c.field f x }

/-- Makes the version even, two above the last even one. -/
def writeEnd : SeqCell φ ω := { c with version := (c.version &&& ~~~1#32) + 2#32 }

/-- `ends` writes of the cell have ended, and one is under way if it is `busy`. -/
def Stamped (ends : Nat) (busy : Bool) : Prop :=
  c.version = BitVec.ofNat 32 (2 * ends + busy.toNat)

end SeqCell

variable {c : SeqCell φ ω} {ends : Nat} {busy : Bool}

theorem getLsbD_zero_stamp (n : Nat) (b : Bool) :
    (BitVec.ofNat 32 (2 * n + b.toNat)).getLsbD 0 = b := by
  rw [BitVec.getLsbD_ofNat, Nat.testBit_zero]
  cases b with
  | false =>
    have : (2 * n + 0) % 2 = 0 := by omega
    simp
  | true =>
    have : (2 * n + 1) % 2 = 1 := by omega
    simp

theorem getLsbD_succ_stamp (n : Nat) (b : Bool) {i : Nat} (hi : i + 1 < 32) :
    (BitVec.ofNat 32 (2 * n + b.toNat)).getLsbD (i + 1) = n.testBit i := by
  have hhalf : (2 * n + b.toNat) / 2 = n := by
    have := b.toNat_le
    omega
  rw [BitVec.getLsbD_ofNat, Nat.testBit_succ, hhalf]
  simp [hi]

/-- Stamps that look alike are alike, within half a turn of the counter. -/
theorem stamp_inj {n m : Nat} {b : Bool} (hle : n ≤ m) (hlt : m < n + 2 ^ 31)
    (h : BitVec.ofNat 32 (2 * m + b.toNat) = BitVec.ofNat 32 (2 * n)) : m = n ∧ b = false := by
  have hmod := congrArg BitVec.toNat h
  simp only [BitVec.toNat_ofNat] at hmod
  cases b with
  | false =>
    simp only [Bool.toNat_false, Nat.add_zero] at hmod
    exact ⟨by omega, rfl⟩
  | true =>
    simp only [Bool.toNat_true] at hmod
    omega

omit [DecidableEq φ] in
theorem SeqCell.Stamped.writeBegin (h : c.Stamped ends false) : c.writeBegin.Stamped ends true := by
  unfold Stamped SeqCell.writeBegin at *
  dsimp only
  rw [h]
  apply BitVec.eq_of_getLsbD_eq
  intro i hi
  rw [BitVec.getLsbD_or, BitVec.getLsbD_one]
  cases i with
  | zero => rw [getLsbD_zero_stamp, getLsbD_zero_stamp]; simp
  | succ i => rw [getLsbD_succ_stamp _ _ hi, getLsbD_succ_stamp _ _ hi]; simp

omit [DecidableEq φ] in
theorem SeqCell.Stamped.writeEnd (h : c.Stamped ends true) :
    c.writeEnd.Stamped (ends + 1) false := by
  have hclear : BitVec.ofNat 32 (2 * ends + true.toNat) &&& ~~~1#32 =
      BitVec.ofNat 32 (2 * ends + false.toNat) := by
    apply BitVec.eq_of_getLsbD_eq
    intro i hi
    rw [BitVec.getLsbD_and, BitVec.getLsbD_not]
    cases i with
    | zero => rw [getLsbD_zero_stamp, getLsbD_zero_stamp]; simp
    | succ i => rw [getLsbD_succ_stamp _ _ hi, getLsbD_succ_stamp _ _ hi]; simp [hi]
  unfold Stamped SeqCell.writeEnd at *
  dsimp only
  rw [h, hclear]
  apply BitVec.eq_of_toNat_eq
  simp
  omega

omit [DecidableEq φ] in
/-- An even version is one between writes. -/
theorem SeqCell.Stamped.busy_eq (h : c.Stamped ends busy) :
    (c.version &&& 1#32 = 0) ↔ busy = false := by
  have hbit : (c.version &&& 1#32).getLsbD 0 = busy := by
    rw [BitVec.getLsbD_and, h, getLsbD_zero_stamp]
    simp
  constructor
  · intro h0
    rw [h0] at hbit
    simpa using hbit.symm
  · intro hb
    apply BitVec.eq_of_getLsbD_eq
    intro i hi
    cases i with
    | zero => rw [hbit, hb]; simp
    | succ i => rw [BitVec.getLsbD_and]; simp

/-! ### What a reader knows -/

/-- A reader has found version `v0`, not before `start` writes had ended, and has read
`got`. Its version was that of a moment between writes when the cell held what `P`
says; if no write of the cell has begun since, the cell still holds it, and so does
what was read. -/
def Reading (P : (φ → ω) → Prop) (start : Nat) (v0 : BitVec 32) (got : List (φ × ω))
    (c : SeqCell φ ω) (ends : Nat) (busy : Bool) : Prop :=
  ∃ at0 seen, v0 = BitVec.ofNat 32 (2 * at0) ∧ start ≤ at0 ∧ at0 ≤ ends ∧ P seen ∧
    (ends = at0 → busy = false → c.field = seen ∧ ∀ g ∈ got, g.2 = seen g.1)

variable {P P' : (φ → ω) → Prop} {start : Nat} {v0 : BitVec 32} {got : List (φ × ω)}

omit [DecidableEq φ] in
theorem Reading.begin (h : c.Stamped ends busy) (heven : c.version &&& 1#32 = 0) (hstart : start ≤ ends)
    (hP : P c.field) : Reading P start c.version [] c ends busy := by
  obtain rfl := h.busy_eq.mp heven
  exact ⟨ends, c.field, h, hstart, le_rfl, hP, fun _ _ => ⟨rfl, fun g hg => by cases hg⟩⟩

omit [DecidableEq φ] in
/-- The reader reads one more field. -/
theorem Reading.read (h : Reading P start v0 got c ends busy) (f : φ) :
    Reading P start v0 (got ++ [(f, c.field f)]) c ends busy := by
  obtain ⟨at0, seen, hv, hs, hle, hP, hsame⟩ := h
  refine ⟨at0, seen, hv, hs, hle, hP, fun hends hbusy => ?_⟩
  obtain ⟨hfield, hgot⟩ := hsame hends hbusy
  refine ⟨hfield, fun g hg => ?_⟩
  obtain hg | hg := List.mem_append.mp hg
  · exact hgot g hg
  · rw [List.mem_singleton.mp hg, hfield]

omit [DecidableEq φ] in
/-- The reader looks at the cell and keeps nothing. -/
theorem Reading.mono (hP : ∀ seen, P seen → P' seen) (h : Reading P start v0 got c ends busy) :
    Reading P' start v0 got c ends busy := by
  obtain ⟨at0, seen, hv, hs, hle, hp, hsame⟩ := h
  exact ⟨at0, seen, hv, hs, hle, hP seen hp, hsame⟩

omit [DecidableEq φ] in
/-- A writer is between beginning and ending a write; whatever it does to the cell. -/
theorem Reading.writing (h : Reading P start v0 got c ends busy) (c' : SeqCell φ ω) :
    Reading P start v0 got c' ends true := by
  obtain ⟨at0, seen, hv, hs, hle, hp, -⟩ := h
  exact ⟨at0, seen, hv, hs, hle, hp, fun _ hb => by cases hb⟩

omit [DecidableEq φ] in
/-- A writer has ended a write. -/
theorem Reading.written (h : Reading P start v0 got c ends busy) (c' : SeqCell φ ω) :
    Reading P start v0 got c' (ends + 1) false := by
  obtain ⟨at0, seen, hv, hs, hle, hp, -⟩ := h
  exact ⟨at0, seen, hv, hs, Nat.le_succ_of_le hle, hp, fun he _ => by omega⟩

omit [DecidableEq φ] in
/-- **A read whose version is confirmed is a snapshot**, with fewer than `2 ^ 31`
writes ended since it started. -/
theorem Reading.accept (h : Reading P start v0 got c ends busy) (hstamp : c.Stamped ends busy)
    (hsame : c.version = v0) (hfew : ends < start + 2 ^ 31) :
    P c.field ∧ ∀ g ∈ got, g.2 = c.field g.1 := by
  obtain ⟨at0, seen, hv, hs, hle, hp, hseen⟩ := h
  obtain ⟨rfl, rfl⟩ := stamp_inj hle (by omega) (hstamp.symm.trans (hsame.trans hv))
  obtain ⟨rfl, hgot⟩ := hseen rfl rfl
  exact ⟨hp, hgot⟩

end

end PgAcorn.Library
