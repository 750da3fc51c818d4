import PgAcorn.SharedCache.EvictToFit
import Mathlib.Algebra.BigOperators.Intervals
import Mathlib.Data.BitVec

/-! Copying an index into an area: the loop of `acorn_cc_load`.

The loop reads block after block. A page's array is allocated at its first element and
published once the page has been copied, so a turn copies a whole page or none of it
(`copyBlock_eq`). It ends early when the budget or the memory runs out, or with an error,
and then the blocks before are there and no others (`copyBlocks_spec`).

The directory's length is a 32-bit sum, and the loop does not look at it: a block beyond
it is written outside the directory, where the loop has no defined result
(`copyBlocks_stray`). -/
namespace PgAcorn.SharedCache
open Library
open CodeCache (CachePage Codec loadElement)

/-- How an error ends the statement: `PG_TRY` catches an ERROR and not a FATAL. -/
inductive Severity
  | error
  | fatal
  deriving DecidableEq

/-- What `dsa_allocate_extended` comes to. -/
inductive Allocation
  | done
  | noMemory
  | fails (s : Severity)

/-- A line pointer of a page: without storage, or with a tuple. `other` is a tuple of
another type, as the meta data. -/
inductive LinePointer (V Q : Type)
  | unused
  | tuple (t : IndexTuple V Q)
  | other

/-- What a turn of the loop meets: an interrupt or a failing read, or the page as it is
while locked, and the allocation of its array. -/
structure PageRead (V Q : Type) where
  fails : Option Severity
  items : List (LinePointer V Q)
  allocation : Allocation

/-- What the loop does not change. `other` is `other_bytes`. -/
structure Loading (V Q : Type) where
  codec : Codec V Q
  dim : Nat
  budget : BitVec 64
  other : BitVec 64
  nblocks : BitVec 32
  read : Nat → PageRead V Q

/-- Why the loop ends early: `final_state` is PARTIAL, or something is thrown. -/
inductive Stop
  | partialLoad
  | raised (s : Severity)

/-- The area's blocks, and the locals that the loop counts with. -/
structure Copy (Q : Type) where
  arena : Arena (CacheArray Q)
  bytes : BitVec 64
  nelems : Nat

/-- The locals of one turn: the array, which nobody else can reach yet, and `page_elems`. -/
structure PageCopy (Q : Type) where
  array : Option (CachePage Q)
  bytes : BitVec 64
  elems : Nat

/-- What a directory at `dp` has for a block: a page array, if its pointer names one. -/
def pageArray? {Q : Type} (arena : Arena (CacheArray Q)) (dp blkno : Nat) : Option (CachePage Q) :=
  match arena.get? dp with
  | some (.dir entries) =>
    (entries[blkno]?).bind fun p => match arena.get? p with
      | some (.page array) => some array
      | _ => none
  | _ => none

section
variable {V Q : Type}

/-! ### The loop -/

/-- The element tuple of a line pointer, if its vector has the index's dimension. -/
def LinePointer.element? (codec : Codec V Q) (dim : Nat) : LinePointer V Q → Option (ElementTuple V)
  | .tuple (.element e) => if codec.dim e.vec = dim then some e else none
  | _ => none

namespace Loading
variable (a : Loading V Q)

/-- `dir_blocks`: `ACORN_CC_DIR_GROW` of a `BlockNumber`. -/
def dirBlocks : BitVec 32 := a.nblocks + 64#32

/-- The bytes of the directory. -/
def dirBytes : BitVec 64 := BitVec.ofNat 64 (ccDirSize a.dirBlocks.toNat)

/-- `page_sz` of a page with so many line pointers. -/
def pageBytes (maxoff : Nat) : BitVec 64 := BitVec.ofNat 64 (ccPageSize maxoff a.dim)

/-- Why a page's array is not allocated while so many bytes are in use. -/
def refuses (r : PageRead V Q) (bytes : BitVec 64) : Option Stop :=
  if a.budget < a.other + bytes + a.pageBytes r.items.length then some .partialLoad
  else match r.allocation with
    | .done => none
    | .noMemory => some .partialLoad
    | .fails s => some (.raised s)

/-- The inner loop, from an offset on. -/
def copyItems (r : PageRead V Q) : List (LinePointer V Q) → Nat → PageCopy Q →
    PageCopy Q × Option Stop
  | [], _, p => (p, none)
  | item :: items, offno, p =>
    match item.element? a.codec a.dim with
    | none => copyItems r items (offno + 1) p
    | some e =>
      let entry := some (loadElement a.codec e)
      match p.array with
      | some array =>
        copyItems r items (offno + 1) ⟨array.set (offno - 1) entry, p.bytes, p.elems + 1⟩
      | none =>
        match a.refuses r p.bytes with
        | some stop => (p, some stop)
        | none =>
          let array := List.replicate r.items.length none
          copyItems r items (offno + 1)
            ⟨array.set (offno - 1) entry, p.bytes + a.pageBytes r.items.length, p.elems + 1⟩

/-- `blocks[blkno] = page_dp`, with the array in place; `none` is a write outside the
directory. -/
def publish (s : Copy Q) (blkno : Nat) (p : PageCopy Q) : Option (Copy Q) :=
  match p.array with
  | some array =>
    -- elements are only counted in an array
    if 0 < p.elems then
      if blkno < a.dirBlocks.toNat then
        some ⟨(s.arena.allocate (.page array)).modify 1 (CacheArray.setEntry blkno s.arena.next),
          p.bytes, s.nelems + p.elems⟩
      else none
    else some { s with bytes := p.bytes }
  | none => some { s with bytes := p.bytes }

/-- One turn. -/
def copyBlock (blkno : Nat) (s : Copy Q) : Option (Copy Q × Option Stop) :=
  let r := a.read blkno
  match r.fails with
  | some severity => some (s, some (.raised severity))
  | none =>
    match a.copyItems r r.items 1 ⟨none, s.bytes, 0⟩ with
    | (p, some (.raised severity)) =>
      some ({ s with bytes := p.bytes }, some (.raised severity))
    | (p, stop) => (a.publish s blkno p).map fun s => (s, stop)

/-- So many turns, from a block on. -/
def copyBlocks : Nat → Nat → Copy Q → Option (Copy Q × Option Stop)
  | 0, _, s => some (s, none)
  | n + 1, blkno, s =>
    (a.copyBlock blkno s).bind fun r => match r.2 with
      | none => copyBlocks n (blkno + 1) r.1
      | some stop => some (r.1, some stop)

/-- The directory, all zero, in a new area. -/
def start : Copy Q :=
  ⟨Arena.empty.allocate (.dir (List.replicate a.dirBlocks.toNat 0)), a.dirBytes, 0⟩

/-- The whole loop. -/
def copy : Option (Copy Q × Option Stop) := a.copyBlocks (a.nblocks.toNat - 1) 1 a.start

/-! ### What a page comes to -/

/-- The entry that a line pointer gets. -/
def entry (item : LinePointer V Q) : Option (Scan.CodeCacheHit Q) :=
  (item.element? a.codec a.dim).map (loadElement a.codec)

/-- Block `b` has an element to copy. -/
def holds (b : Nat) : Bool := (a.read b).items.any fun item => (a.entry item).isSome

/-- A page's array. -/
def array (b : Nat) : CachePage Q := (a.read b).items.map a.entry

/-- The bytes in use when the loop gets to block `b`. -/
def spent (b : Nat) : BitVec 64 :=
  a.dirBytes + ∑ c ∈ Finset.Ico 1 b, if a.holds c then a.pageBytes (a.read c).items.length else 0

/-- Why the loop ends at block `b`, if it gets there. -/
def stopAt (b : Nat) : Option Stop :=
  match (a.read b).fails with
  | some severity => some (.raised severity)
  | none => if a.holds b then a.refuses (a.read b) (a.spent b) else none

/-- The loop gets to block `b`. -/
def Reaches (b : Nat) : Prop := ∀ c, 1 ≤ c → c < b → a.stopAt c = none

/-- No array is written outside the directory. -/
def InDirectory : Prop :=
  ∀ b, 1 ≤ b → b < a.nblocks.toNat → a.Reaches (b + 1) → a.holds b = true → b < a.dirBlocks.toNat

/-! ### One turn -/

variable {a}

theorem entry_of_element {item : LinePointer V Q} {e : ElementTuple V}
    (h : item.element? a.codec a.dim = some e) : a.entry item = some (loadElement a.codec e) := by
  rw [entry, h]
  rfl

theorem entry_of_none {item : LinePointer V Q} (h : item.element? a.codec a.dim = none) :
    a.entry item = none := by
  rw [entry, h]
  rfl

variable (a)

/-- With the array allocated, the rest of the page is copied into it. -/
theorem copyItems_array (r : PageRead V Q) (before items : List (LinePointer V Q))
    (bytes : BitVec 64) (elems : Nat) :
    a.copyItems r items (before.length + 1)
        ⟨some (before.map a.entry ++ List.replicate items.length none), bytes, elems⟩ =
      (⟨some ((before ++ items).map a.entry), bytes,
        elems + items.countP fun item => (a.entry item).isSome⟩, none) := by
  induction items generalizing before elems with
  | nil => simp [copyItems]
  | cons item items ih =>
    have ih := ih (before ++ [item])
    rw [List.length_append, List.length_singleton, List.append_assoc, List.singleton_append] at ih
    rw [copyItems]
    cases he : item.element? a.codec a.dim with
    | none =>
      have hentry := entry_of_none he
      have harray : before.map a.entry ++ List.replicate (item :: items).length none =
          (before ++ [item]).map a.entry ++ List.replicate items.length none := by
        simp [hentry, List.replicate_succ]
      dsimp only
      rw [harray, ih, List.countP_cons, hentry]
      rfl
    | some e =>
      have hentry := entry_of_element he
      have harray : (before.map a.entry ++ List.replicate (item :: items).length none).set
          before.length (some (loadElement a.codec e)) =
          (before ++ [item]).map a.entry ++ List.replicate items.length none := by
        simp [hentry, List.replicate_succ]
      dsimp only
      rw [Nat.add_sub_cancel, harray, ih, List.countP_cons, hentry]
      simp [Nat.add_assoc, Nat.add_comm]

/-- Before the first element there is no array. -/
theorem copyItems_none (r : PageRead V Q) (before items : List (LinePointer V Q))
    (hr : r.items = before ++ items) (hbefore : ∀ item ∈ before, a.entry item = none)
    (bytes : BitVec 64) :
    a.copyItems r items (before.length + 1) ⟨none, bytes, 0⟩ =
      if items.any fun item => (a.entry item).isSome then
        match a.refuses r bytes with
        | some stop => (⟨none, bytes, 0⟩, some stop)
        | none => (⟨some (r.items.map a.entry), bytes + a.pageBytes r.items.length,
            r.items.countP fun item => (a.entry item).isSome⟩, none)
      else (⟨none, bytes, 0⟩, none) := by
  induction items generalizing before with
  | nil => simp [copyItems]
  | cons item items ih =>
    have ih := ih (before ++ [item])
    rw [List.length_append, List.length_singleton, List.append_assoc, List.singleton_append] at ih
    rw [copyItems]
    cases he : item.element? a.codec a.dim with
    | none =>
      have hentry := entry_of_none he
      dsimp only
      rw [ih hr (by simpa [or_imp, forall_and] using ⟨hbefore, hentry⟩), List.any_cons, hentry]
      rfl
    | some e =>
      have hentry := entry_of_element he
      rw [List.any_cons, hentry, Option.isSome_some, Bool.true_or, if_pos rfl]
      cases a.refuses r bytes with
      | some stop => rfl
      | none =>
        -- the first element: everything before it is a gap
        have hgap : before.map a.entry = List.replicate before.length none :=
          List.eq_replicate_iff.mpr ⟨by simp, by simpa using hbefore⟩
        have harray : (List.replicate r.items.length none).set before.length
            (some (loadElement a.codec e)) =
            (before ++ [item]).map a.entry ++ List.replicate items.length none := by
          rw [hr, List.length_append, List.length_cons, List.replicate_add, List.replicate_succ,
            List.map_append, List.map_singleton, hentry, hgap]
          simp
        have hcount : before.countP (fun item => (a.entry item).isSome) = 0 :=
          List.countP_eq_zero.mpr fun x hx => by simp [hbefore x hx]
        have hrest := a.copyItems_array r (before ++ [item]) items
          (bytes + a.pageBytes r.items.length) 1
        rw [List.length_append, List.length_singleton, List.append_assoc,
          List.singleton_append] at hrest
        dsimp only
        rw [Nat.add_sub_cancel, harray, Nat.zero_add, hrest, hr, List.countP_append,
          List.countP_cons, hcount, hentry]
        simp [Nat.add_comm]

/-- The area with block `b`'s array in place. -/
def published (s : Copy Q) (b : Nat) : Copy Q :=
  ⟨(s.arena.allocate (.page (a.array b))).modify 1 (CacheArray.setEntry b s.arena.next),
    s.bytes + a.pageBytes (a.read b).items.length,
    s.nelems + (a.read b).items.countP fun item => (a.entry item).isSome⟩

/-- **A turn** copies a whole page or none of it. -/
theorem copyBlock_eq {b : Nat} {s : Copy Q} (hbytes : s.bytes = a.spent b) :
    a.copyBlock b s = match a.stopAt b with
      | some stop => some (s, some stop)
      | none =>
        if a.holds b then
          if b < a.dirBlocks.toNat then some (a.published s b, none) else none
        else some (s, none) := by
  unfold copyBlock stopAt
  dsimp only
  cases hfails : (a.read b).fails with
  | some severity => rfl
  | none =>
    have hitems := a.copyItems_none (a.read b) [] (a.read b).items rfl (by simp) s.bytes
    rw [List.length_nil, Nat.zero_add] at hitems
    dsimp only
    rw [hitems, ← hbytes]
    unfold holds
    by_cases hany : (a.read b).items.any fun item => (a.entry item).isSome
    · rw [if_pos hany, if_pos hany, if_pos hany]
      cases a.refuses (a.read b) s.bytes with
      | some stop => cases stop <;> rfl
      | none =>
        have hcount : 0 < (a.read b).items.countP fun item => (a.entry item).isSome := by
          obtain ⟨item, hmem, hitem⟩ := List.any_eq_true.mp hany
          exact List.countP_pos_iff.mpr ⟨item, hmem, hitem⟩
        show (publish ..).map _ = _
        unfold publish
        dsimp only
        rw [if_pos hcount]
        split <;> rfl
    · rw [if_neg hany, if_neg hany, if_neg hany]
      rfl

end Loading

/-! ### The directory -/

/-- A directory of a length at `dp`; its pointers are zero or lead to page arrays. -/
def IsDirectory (arena : Arena (CacheArray Q)) (dp n : Nat) : Prop :=
  ∃ entries, arena.get? dp = some (.dir entries) ∧ entries.length = n ∧
    ∀ p ∈ entries, p = 0 ∨ ∃ array, arena.get? p = some (.page array)

section
variable {arena : Arena (CacheArray Q)} {dp n b : Nat}

/-- A pointer stored in the directory leads to the array just allocated. -/
theorem get?_publish (hdir : IsDirectory arena dp n) (array : CachePage Q) :
    ∃ entries, arena.get? dp = some (.dir entries) ∧
      ((arena.allocate (.page array)).modify dp (CacheArray.setEntry b arena.next)).get? dp =
        some (.dir (entries.set b arena.next)) ∧
      ∀ p ≠ dp, ((arena.allocate (.page array)).modify dp (CacheArray.setEntry b arena.next)).get? p =
        if p = arena.next then some (.page array) else arena.get? p := by
  obtain ⟨entries, hget, -, -⟩ := hdir
  have hne : dp ≠ arena.next := by
    rintro rfl
    rw [Arena.get?_next] at hget
    cases hget
  refine ⟨entries, hget, ?_, fun p hp => ?_⟩
  · rw [Arena.get?_modify, if_pos rfl, Arena.get?_allocate, if_neg hne, hget]
    rfl
  · rw [Arena.get?_modify, if_neg (Ne.symm hp), Arena.get?_allocate]

/-- The next allocation gets a pointer that no directory has. -/
theorem ne_next_of_pointer {p : Nat} (h : p = 0 ∨ ∃ array, arena.get? p = some (.page array)) :
    p ≠ arena.next := by
  rintro rfl
  rcases h with h | ⟨array, h⟩
  · exact Nat.succ_ne_zero _ h
  · rw [Arena.get?_next] at h
    cases h

theorem IsDirectory.publish (hdir : IsDirectory arena dp n) (array : CachePage Q) :
    IsDirectory ((arena.allocate (.page array)).modify dp (CacheArray.setEntry b arena.next)) dp n := by
  obtain ⟨entries, hget, hself, hother⟩ := @get?_publish Q arena dp n b hdir array
  obtain ⟨entries', hget', hlength, hpointers⟩ := hdir
  obtain rfl : entries = entries' := by simpa [hget] using hget'
  refine ⟨_, hself, by rw [List.length_set, hlength], fun p hp => ?_⟩
  rcases List.mem_or_eq_of_mem_set hp with hp | rfl
  · refine (hpointers p hp).imp_right fun ⟨old, hold⟩ => ⟨old, ?_⟩
    have hne : p ≠ dp := by
      rintro rfl
      rw [hget] at hold
      cases hold
    rw [hother p hne, if_neg (ne_next_of_pointer (.inr ⟨old, hold⟩)), hold]
  · refine .inr ⟨array, ?_⟩
    have hne : arena.next ≠ dp := by
      rintro heq
      rw [← heq, Arena.get?_next] at hget
      cases hget
    rw [hother _ hne, if_pos rfl]

/-- **A publication** sets one block. -/
theorem pageArray?_publish (hdir : IsDirectory arena dp n) (hb : b < n) (array : CachePage Q)
    (c : Nat) :
    pageArray? ((arena.allocate (.page array)).modify dp (CacheArray.setEntry b arena.next)) dp c =
      if c = b then some array else pageArray? arena dp c := by
  obtain ⟨entries, hget, hself, hother⟩ := @get?_publish Q arena dp n b hdir array
  obtain ⟨entries', hget', rfl, hpointers⟩ := hdir
  obtain rfl : entries = entries' := by simpa [hget] using hget'
  have hne : arena.next ≠ dp := by
    rintro heq
    rw [← heq, Arena.get?_next] at hget
    cases hget
  unfold pageArray?
  rw [hself, hget]
  dsimp only
  rw [List.getElem?_set]
  by_cases hc : c = b
  · subst hc
    rw [if_pos rfl, if_pos rfl, if_pos hb, Option.bind_some, hother _ hne, if_pos rfl]
  · rw [if_neg (Ne.symm hc), if_neg hc]
    cases hp : entries[c]? with
    | none => rfl
    | some p =>
      have hp : p ∈ entries := List.mem_of_getElem? hp
      rw [Option.bind_some, Option.bind_some]
      by_cases hpd : p = dp
      · rw [hpd, hself, hget]
      · rw [hother p hpd, if_neg (ne_next_of_pointer (hpointers p hp))]

end

namespace Loading
variable (a : Loading V Q)

/-! ### The loop -/

/-- The arrays of the blocks before `b` are published, and no others. -/
structure Copied (b : Nat) (s : Copy Q) : Prop where
  bytes : s.bytes = a.spent b
  directory : IsDirectory s.arena 1 a.dirBlocks.toNat
  pages : ∀ c, pageArray? s.arena 1 c =
    if 1 ≤ c ∧ c < b ∧ a.holds c = true then some (a.array c) else none

theorem start_copied : a.Copied 1 a.start where
  bytes := by
    show a.dirBytes = _
    simp [spent]
  directory := ⟨_, rfl, List.length_replicate, fun _ hp => .inl (List.eq_of_mem_replicate hp)⟩
  pages c := by
    rw [if_neg (by omega)]
    show ((List.replicate a.dirBlocks.toNat 0)[c]?).bind _ = _
    rw [List.getElem?_replicate]
    split <;> rfl

variable {a}

theorem spent_succ {b : Nat} (hb : 1 ≤ b) : a.spent (b + 1) =
    a.spent b + if a.holds b then a.pageBytes (a.read b).items.length else 0 := by
  rw [spent, spent, Finset.sum_Ico_succ_top hb, BitVec.add_assoc]

/-- A block without an element changes nothing. -/
theorem Copied.skip {b : Nat} {s : Copy Q} (h : a.Copied b s) (hb : 1 ≤ b)
    (hholds : a.holds b = false) : a.Copied (b + 1) s where
  bytes := by
    rw [spent_succ hb, hholds, h.bytes]
    simp
  directory := h.directory
  pages c := by
    rw [h.pages]
    by_cases hc : c = b
    · subst hc
      rw [if_neg fun h => Nat.lt_irrefl c h.2.1, if_neg (by simp [hholds])]
    · exact if_congr (and_congr_right fun _ => and_congr_left fun _ => by omega) rfl rfl

/-- A block with one gets its array. -/
theorem Copied.publish {b : Nat} {s : Copy Q} (h : a.Copied b s) (hb : 1 ≤ b)
    (hholds : a.holds b = true) (hdir : b < a.dirBlocks.toNat) :
    a.Copied (b + 1) (a.published s b) where
  bytes := by
    rw [spent_succ hb, if_pos hholds, ← h.bytes]
    rfl
  directory := h.directory.publish _
  pages c := by
    show pageArray? (((s.arena.allocate _).modify 1 _)) 1 c = _
    rw [pageArray?_publish h.directory hdir, h.pages]
    by_cases hc : c = b
    · subst hc
      rw [if_pos rfl, if_pos ⟨hb, Nat.lt_succ_self c, hholds⟩]
    · rw [if_neg hc]
      exact if_congr (and_congr_right fun _ => and_congr_left fun _ => by omega) rfl rfl

variable (a)

/-- Where the loop stands when it has ended with `stop`: at block `b`. -/
def EndsAt (b : Nat) (stop : Option Stop) : Prop :=
  1 ≤ b ∧ a.Reaches b ∧
    (stop = none ∧ a.nblocks.toNat ≤ b ∧ b ≤ max a.nblocks.toNat 1 ∨
      b < a.nblocks.toNat ∧ stop.isSome = true ∧ stop = a.stopAt b)

variable {a}

theorem Reaches.succ {b : Nat} (h : a.Reaches b) (hstop : a.stopAt b = none) :
    a.Reaches (b + 1) := fun c hc hcb => by
  obtain rfl | hlt := Nat.eq_or_lt_of_le (Nat.lt_succ_iff.mp hcb)
  · exact hstop
  · exact h c hc hlt

/-- What the loop comes to from block `b` on: it ends at a block with everything before
it copied, or writes outside the directory. -/
def Runs (a : Loading V Q) (b : Nat) (r : Option (Copy Q × Option Stop)) : Prop :=
  (∃ b' s stop, r = some (s, stop) ∧ b ≤ b' ∧ a.Copied b' s ∧ a.EndsAt b' stop ∧
    ∀ c, b ≤ c → c < b' → a.holds c = true → c < a.dirBlocks.toNat) ∨
  (r = none ∧ ∃ c, 1 ≤ c ∧ c < a.nblocks.toNat ∧ a.Reaches (c + 1) ∧ a.holds c = true ∧
    a.dirBlocks.toNat ≤ c)

theorem Runs.succ {b : Nat} {r : Option (Copy Q × Option Stop)} (h : a.Runs (b + 1) r)
    (hdir : a.holds b = true → b < a.dirBlocks.toNat) : a.Runs b r := by
  refine h.imp_left fun ⟨b', s, stop, heq, hle, hs, hends, hin⟩ =>
    ⟨b', s, stop, heq, by omega, hs, hends, fun c hc hcb hholds => ?_⟩
  obtain rfl | hbc := Nat.eq_or_lt_of_le hc
  · exact hdir hholds
  · exact hin c hbc hcb hholds

/-- **The loop**, from a block that it gets to. -/
theorem copyBlocks_spec {n b : Nat} {s : Copy Q} (hn : b + n = max a.nblocks.toNat 1) (hb : 1 ≤ b)
    (hs : a.Copied b s) (hreach : a.Reaches b) : a.Runs b (a.copyBlocks n b s) := by
  induction n generalizing b s with
  | zero => exact .inl ⟨b, s, none, rfl, le_rfl, hs, ⟨hb, hreach, .inl ⟨rfl, by omega, by omega⟩⟩,
      fun c hc hcb => by omega⟩
  | succ n ih =>
    have hlt : b < a.nblocks.toNat := by omega
    have hn' : b + 1 + n = max a.nblocks.toNat 1 := by omega
    rw [copyBlocks, a.copyBlock_eq hs.bytes]
    cases hstop : a.stopAt b with
    | some stop =>
      exact .inl ⟨b, s, some stop, rfl, le_rfl, hs,
        ⟨hb, hreach, .inr ⟨hlt, rfl, hstop.symm⟩⟩, fun c hc hcb => by omega⟩
    | none =>
      have hreach' := hreach.succ hstop
      dsimp only
      by_cases hholds : a.holds b = true
      · rw [if_pos hholds]
        by_cases hdir : b < a.dirBlocks.toNat
        · rw [if_pos hdir]
          exact (ih hn' (by omega) (hs.publish hb hholds hdir) hreach').succ fun _ => hdir
        · rw [if_neg hdir]
          exact .inr ⟨rfl, b, hb, hlt, hreach', hholds, Nat.le_of_not_lt hdir⟩
      · rw [if_neg hholds]
        exact (ih hn' (by omega) (hs.skip hb (by simpa using hholds)) hreach').succ
          fun h => absurd h hholds

theorem copy_runs (a : Loading V Q) : a.Runs 1 a.copy :=
  copyBlocks_spec (by omega) le_rfl a.start_copied fun c hc hcb => by omega

/-- The loop inside the directory. -/
theorem copy_spec (h : a.InDirectory) : ∃ b s stop, a.copy = some (s, stop) ∧ a.Copied b s ∧
    a.EndsAt b stop ∧ ∀ c, 1 ≤ c → c < b → a.holds c = true → c < a.dirBlocks.toNat := by
  rcases a.copy_runs with
    ⟨b, s, stop, heq, -, hs, hends, hin⟩ | ⟨-, c, hc, hcn, hreach, hholds, hout⟩
  · exact ⟨b, s, stop, heq, hs, hends, hin⟩
  · have := h c hc hcn hreach hholds
    omega

/-- **Outside it**, the loop has no result. -/
theorem copy_stray (h : ¬ a.InDirectory) : a.copy = none := by
  unfold InDirectory at h
  push Not at h
  obtain ⟨c, hc, hcn, hreach, hholds, hout⟩ := h
  rcases a.copy_runs with ⟨b, s, stop, -, -, -, ⟨hb, -, hstop⟩, hin⟩ | ⟨heq, -⟩
  · -- it would have ended before block `c`, which it gets to
    have hbc : b ≤ c := by
      by_contra hlt
      have := hin c hc (by omega) hholds
      omega
    rcases hstop with ⟨-, hn, -⟩ | ⟨-, hsome, heq⟩
    · omega
    · rw [heq, hreach b hb (Nat.lt_succ_of_le hbc)] at hsome
      cases hsome
  · exact heq

/-- The loop stops where the first block that it gets to makes it stop. -/
theorem EndsAt.iff {b : Nat} {stop : Option Stop} (h : a.EndsAt b stop) (x : Stop) :
    stop = some x ↔ ∃ c, 1 ≤ c ∧ c < a.nblocks.toNat ∧ a.Reaches c ∧ a.stopAt c = some x := by
  obtain ⟨hb, hreach, ⟨rfl, hn, -⟩ | ⟨hn, hsome, rfl⟩⟩ := h
  · refine iff_of_false (Option.some_ne_none x).symm ?_
    rintro ⟨c, hc, hcn, -, hstop⟩
    rw [hreach c hc (by omega)] at hstop
    cases hstop
  · refine ⟨fun hx => ⟨b, hb, hn, hreach, hx⟩, ?_⟩
    rintro ⟨c, hc, -, hcreach, hstop⟩
    obtain hlt | rfl | hlt := Nat.lt_trichotomy c b
    · rw [hreach c hc hlt] at hstop
      cases hstop
    · exact hstop
    · rw [hcreach b hb hlt] at hsome
      cases hsome

/-- An index that the directory's length has room for. -/
theorem inDirectory_of_lt (h : a.nblocks.toNat + 64 < 2 ^ 32) : a.InDirectory :=
  fun b _ hb _ _ => by
    have : a.dirBlocks.toNat = a.nblocks.toNat + 64 := BitVec.toNat_add_of_lt h
    omega

end Loading

end

end PgAcorn.SharedCache
