import PgAcorn.CodeCache.Entries

/-! Reads of a code cache slot's entries against its writers.

`Sound` is the invariant: an entry between writes carries nothing to serve or a
completed write (`EntryOk`), the writer under the lock is where its job says
(`WriterOk`), and each reader knows what the sequence lock gives it (`ReaderOk`).
`Evolves` says what any step does to the entries of a published array; readers
survive it whatever the step was. `read_not_torn` is the result over whole runs. -/
namespace PgAcorn.CodeCache.Entries
open Library

/-! ### The invariant -/

/-- What an entry between two writes holds: nothing to serve, or a completed write. -/
def Coherent (dim : Nat) (completed : List Content) (field : Content) : Prop :=
  isPresent (field .flags) = true → isDeleted (field .flags) = false →
    ∃ c ∈ completed, ∀ f ∈ hitFields dim, field f = c f

theorem Coherent.mono {dim : Nat} {done done' : List Content} {field : Content}
    (h : Coherent dim done field) (hsub : done ⊆ done') : Coherent dim done' field := by
  intro hp hd
  obtain ⟨c, hc, hsame⟩ := h hp hd
  exact ⟨c, hsub hc, hsame⟩

/-- Whether the writer is writing the entry. -/
def WriterPc.writing : WriterPc → Nat → Nat → Bool
  | .write a o _ _, a', o' => a == a' && o == o'
  | _, _, _ => false

section
variable {W R : Type} {dim : Nat} {s s' : State W R}

/-- The entry is being written. -/
def State.busy (s : State W R) (a o : Nat) : Bool :=
  s.wlock.elim false fun w => (s.writers w).writing a o

/-- An entry of a published array. -/
structure EntryOk (dim : Nat) (s : State W R) (a o : Nat) : Prop where
  stamped : (s.entry a o).Stamped (s.ends a o) (s.busy a o)
  coherent : s.busy a o = false → Coherent dim (s.completed a o) (s.entry a o).field

/-- Offset `o` is one of the array's. -/
def InRange (s : State W R) (a o : Nat) : Prop := 1 ≤ o ∧ o ≤ (s.arrays a).nslots

/-- A new array that has parts `todo` still to copy from `src`. -/
structure Grown (dim : Nat) (s : State W R) (src : Option Nat) (dst : Nat)
    (todo : List (Nat × Part)) : Prop where
  fresh : s.published dst = false
  allocated : dst < s.next
  known : ∀ a ∈ src, s.published a = true
  version : ∀ a ∈ src, ∀ o, InRange s a o → (o, .version) ∉ todo →
    (s.entry dst o).version = (s.entry a o).version
  field : ∀ a ∈ src, ∀ o, InRange s a o → ∀ f ∈ hitFields dim, (o, .field f) ∉ todo →
    (s.entry dst o).field f = (s.entry a o).field f
  zeroed : ∀ o, (∀ a ∈ src, ¬ InRange s a o) → s.entry dst o = Entry.zero
  within : ∀ a ∈ src, ∀ p ∈ todo, InRange s a p.1

/-- What the writes still to do make of the entry. -/
def Job.Leaves (dim : Nat) (field : Content) (todo : List (Field × Word)) : Job → Prop
  | .insert c =>
    (∀ f ∈ hitFields dim, field f = insertContent c f ∨ (f, insertContent c f) ∈ todo) ∧
      ∀ p ∈ todo, p.2 = insertContent c p.1
  | .invalidate =>
    (isDeleted (field .flags) = true ∨ ∃ x, (Field.flags, x) ∈ todo) ∧
      ∀ p ∈ todo, p.1 = .flags ∧ isDeleted p.2 = true

/-- Where the writer under the lock may be. -/
def WriterOk (dim : Nat) (s : State W R) : WriterPc → Prop
  | .idle | .release => True
  | .ensurePage _ offno _ => 1 ≤ offno
  | .copy _ offno _ src dst todo =>
    (1 ≤ offno ∧ offno ≤ (s.arrays dst).nslots) ∧ Grown dim s (some src) dst todo
  | .publish _ offno _ src dst =>
    (1 ≤ offno ∧ offno ≤ (s.arrays dst).nslots) ∧ Grown dim s src dst []
  | .writeBegin a o _ => s.published a = true ∧ InRange s a o
  | .write a o job todo =>
    (s.published a = true ∧ InRange s a o) ∧ job.Leaves dim (s.entry a o).field todo

/-- The reader reads entry `o` of `a` since `start` writes of it had ended. -/
structure ReadsFrom (s : State W R) (a o start : Nat) : Prop where
  published : s.published a = true
  range : InRange s a o
  start : start ≤ s.ends a o

/-- What the reader with version `v0` and `got` knows. -/
def Knows (dim : Nat) (s : State W R) (a o start : Nat) (v0 : BitVec 32)
    (got : List (Field × Word)) : Prop :=
  Reading (Coherent dim (s.completed a o)) start v0 got (s.entry a o) (s.ends a o) (s.busy a o)

/-- What a reader may rely on. -/
def ReaderOk (dim : Nat) (s : State W R) : ReaderPc → Prop
  | .idle => True
  | .version a o start _ => ReadsFrom s a o start
  | .present a o start _ v0 => ReadsFrom s a o start ∧ Knows dim s a o start v0 []
  | .deleted a o start _ v0 =>
    ReadsFrom s a o start ∧
      ∃ w, isPresent w = true ∧ Knows dim s a o start v0 [(.flags, w)]
  | .recheck a o start _ _ => ReadsFrom s a o start
  | .copy a o start _ v0 todo got =>
    ReadsFrom s a o start ∧ got.map Prod.fst ++ todo = hitFields dim ∧
      ∃ w w', isPresent w = true ∧ isDeleted w' = false ∧
        Knows dim s a o start v0 ((.flags, w) :: (.flags, w') :: got)
  | .validate a o start _ v0 got =>
    ReadsFrom s a o start ∧ got.map Prod.fst = hitFields dim ∧
      ∃ w w', isPresent w = true ∧ isDeleted w' = false ∧
        Knows dim s a o start v0 ((.flags, w) :: (.flags, w') :: got)
  | .returned a o start fin hit =>
    ∀ got ∈ hit, s.published a = true ∧ (fin < start + 2 ^ 31 → ∃ c ∈ s.completed a o,
      got = (hitFields dim).map (fun f => (f, c f)) ∧
        isPresent (c .flags) = true ∧ isDeleted (c .flags) = false)

/-- **The invariant.** -/
structure Sound (dim : Nat) (s : State W R) : Prop where
  lock : ∀ w, s.writers w ≠ .idle → s.wlock = some w
  arrays : ∀ a, s.published a = true → a < s.next
  blocks : ∀ b a, s.blocks b = some a → s.published a = true
  entries : ∀ a o, s.published a = true → InRange s a o → EntryOk dim s a o
  writers : ∀ w, WriterOk dim s (s.writers w)
  readers : ∀ r, ReaderOk dim s (s.readers r)

/-! ### What a step does to published entries -/

/-- The entry is untouched, being written, or has just been written. -/
inductive Touch (s s' : State W R) (a o : Nat) : Prop
  | same (entry : s'.entry a o = s.entry a o) (ends : s'.ends a o = s.ends a o)
      (busy : s'.busy a o = s.busy a o)
  | writing (ends : s'.ends a o = s.ends a o) (busy : s'.busy a o = true)
  | written (ends : s'.ends a o = s.ends a o + 1) (busy : s'.busy a o = false)

/-- Published arrays stay, and their entries are only written. -/
structure Evolves (s s' : State W R) : Prop where
  published : ∀ a, s.published a = true → s'.published a = true
  nslots : ∀ a, s.published a = true → (s'.arrays a).nslots = (s.arrays a).nslots
  completed : ∀ a o, s.published a = true → s.completed a o ⊆ s'.completed a o
  touch : ∀ a o, s.published a = true → Touch s s' a o

namespace Evolves

theorem inRange (h : Evolves s s') {a o : Nat} (ha : s.published a = true) (hr : InRange s a o) :
    InRange s' a o := by
  unfold InRange
  rw [h.nslots a ha]
  exact hr

theorem ends_le (h : Evolves s s') {a o : Nat} (ha : s.published a = true) :
    s.ends a o ≤ s'.ends a o := by
  cases h.touch a o ha with
  | same _ he _ | writing he _ => exact he.ge
  | written he _ => omega

theorem readsFrom (h : Evolves s s') {a o start : Nat} (hr : ReadsFrom s a o start) :
    ReadsFrom s' a o start :=
  ⟨h.published a hr.published, h.inRange hr.published hr.range,
    hr.start.trans (h.ends_le hr.published)⟩

theorem knows (h : Evolves s s') {a o start : Nat} {v0 : BitVec 32} {got : List (Field × Word)}
    (ha : s.published a = true) (hk : Knows dim s a o start v0 got) :
    Knows dim s' a o start v0 got := by
  have hcoherent : ∀ seen, Coherent dim (s.completed a o) seen → Coherent dim (s'.completed a o) seen :=
    fun seen hs => hs.mono (h.completed a o ha)
  have hmono := Reading.mono hcoherent hk
  unfold Knows
  cases h.touch a o ha with
  | same hentry hends hbusy => rw [hentry, hends, hbusy]; exact hmono
  | writing hends hbusy => rw [hends, hbusy]; exact hmono.writing _
  | written hends hbusy => rw [hends, hbusy]; exact hmono.written _

/-- **Readers survive every step.** -/
theorem readerOk (h : Evolves s s') {pc : ReaderPc} (hok : ReaderOk dim s pc) :
    ReaderOk dim s' pc := by
  cases pc with
  | idle => trivial
  | version | recheck => exact h.readsFrom hok
  | present => exact ⟨h.readsFrom hok.1, h.knows hok.1.published hok.2⟩
  | deleted =>
    obtain ⟨hfrom, w, hw, hk⟩ := hok
    exact ⟨h.readsFrom hfrom, w, hw, h.knows hfrom.published hk⟩
  | copy | validate =>
    obtain ⟨hfrom, hfields, w, w', hw, hw', hk⟩ := hok
    exact ⟨h.readsFrom hfrom, hfields, w, w', hw, hw', h.knows hfrom.published hk⟩
  | returned a o start fin hit =>
    intro got hgot
    obtain ⟨ha, hc⟩ := hok got hgot
    refine ⟨h.published a ha, fun hfew => ?_⟩
    obtain ⟨c, hc, hsame⟩ := hc hfew
    exact ⟨c, h.completed a o ha hc, hsame⟩

end Evolves

/-! ### Readers -/

theorem readerOk_nextAttempt {a o start fin attempt : Nat} (h : ReadsFrom s a o start) :
    ReaderOk dim s (nextAttempt a o start fin attempt) := by
  unfold nextAttempt
  split
  · exact h
  · intro got hgot
    cases hgot

/-- A version that is confirmed makes what was copied one completed write. -/
theorem Knows.snapshot {a o start : Nat} {v0 : BitVec 32} {w w' : Word} {got : List (Field × Word)}
    (h : EntryOk dim s a o) (hk : Knows dim s a o start v0 ((.flags, w) :: (.flags, w') :: got))
    (hw : isPresent w = true) (hw' : isDeleted w' = false)
    (hfields : got.map Prod.fst = hitFields dim) (hv : (s.entry a o).version = v0)
    (hfew : s.ends a o < start + 2 ^ 31) :
    ∃ c ∈ s.completed a o, got = (hitFields dim).map (fun f => (f, c f)) ∧
      isPresent (c .flags) = true ∧ isDeleted (c .flags) = false := by
  obtain ⟨hcoherent, hread⟩ := Reading.accept hk h.stamped hv hfew
  have hp : w = (s.entry a o).field .flags := hread (.flags, w) (by simp)
  have hd : w' = (s.entry a o).field .flags := hread (.flags, w') (by simp)
  rw [hp] at hw
  rw [hd] at hw'
  obtain ⟨c, hc, hsame⟩ := hcoherent hw hw'
  have hflags : (s.entry a o).field .flags = c .flags := hsame .flags (by simp [hitFields])
  refine ⟨c, hc, ?_, hflags ▸ hw, hflags ▸ hw'⟩
  rw [← hfields, List.map_map]
  conv_lhs => rw [← List.map_id got]
  apply List.map_congr_left
  intro g hg
  have hmem : g.1 ∈ hitFields dim := hfields ▸ List.mem_map_of_mem hg
  have hval : g.2 = (s.entry a o).field g.1 :=
    hread g (List.mem_cons_of_mem _ (List.mem_cons_of_mem _ hg))
  exact Prod.ext rfl (hval.trans (hsame g.1 hmem))

/-- **A reader's access keeps what it relies on.** -/
theorem readerNext_ok (h : ∀ a o, s.published a = true → InRange s a o → EntryOk dim s a o)
    {pc pc' : ReaderPc} (hok : ReaderOk dim s pc) (hnext : readerNext dim s pc = some pc') :
    ReaderOk dim s pc' := by
  cases pc with
  | idle | returned => cases hnext
  | version a o start attempt =>
    simp only [readerNext] at hnext
    have hentry := h a o hok.published hok.range
    split at hnext
    · obtain rfl := Option.some.inj hnext
      refine ⟨hok, Reading.begin hentry.stamped ‹_› hok.start ?_⟩
      exact hentry.coherent (hentry.stamped.busy_eq.mp ‹_›)
    · obtain rfl := Option.some.inj hnext
      exact readerOk_nextAttempt hok
  | present a o start attempt v0 =>
    simp only [readerNext] at hnext
    split at hnext
    · obtain rfl := Option.some.inj hnext
      exact ⟨hok.1, _, ‹_›, hok.2.read .flags⟩
    · obtain rfl := Option.some.inj hnext
      exact hok.1
  | deleted a o start attempt v0 =>
    simp only [readerNext] at hnext
    obtain ⟨hfrom, w, hw, hk⟩ := hok
    split at hnext
    · obtain rfl := Option.some.inj hnext
      exact hfrom
    · rename_i hd
      obtain rfl := Option.some.inj hnext
      exact ⟨hfrom, rfl, w, _, hw, Bool.eq_false_iff.mpr hd, hk.read .flags⟩
  | recheck a o start attempt v0 =>
    simp only [readerNext] at hnext
    split at hnext
    · obtain rfl := Option.some.inj hnext
      intro got hgot
      cases hgot
    · obtain rfl := Option.some.inj hnext
      exact readerOk_nextAttempt hok
  | copy a o start attempt v0 todo got =>
    obtain ⟨hfrom, hfields, w, w', hw, hw', hk⟩ := hok
    cases todo with
    | nil =>
      obtain rfl := Option.some.inj hnext
      rw [List.append_nil] at hfields
      exact ⟨hfrom, hfields, w, w', hw, hw', hk⟩
    | cons f todo =>
      obtain rfl := Option.some.inj hnext
      refine ⟨hfrom, ?_, w, w', hw, hw', hk.read f⟩
      rw [List.map_append, List.append_assoc]
      exact hfields
  | validate a o start attempt v0 got =>
    simp only [readerNext] at hnext
    obtain ⟨hfrom, hfields, w, w', hw, hw', hk⟩ := hok
    split at hnext
    · obtain rfl := Option.some.inj hnext
      intro got' hgot'
      obtain rfl := Option.mem_some_iff.mp hgot'
      refine ⟨hfrom.published, fun hfew => ?_⟩
      exact hk.snapshot (h a o hfrom.published hfrom.range) hw hw' hfields ‹_› hfew
    · obtain rfl := Option.some.inj hnext
      exact readerOk_nextAttempt hfrom

/-! ### Growth -/

namespace State

@[simp] theorem setEntry_nslots (a o : Nat) (e : Entry) (a' : Nat) :
    ((s.setEntry a o e).arrays a').nslots = (s.arrays a').nslots := by
  by_cases h : a' = a
  · subst h; simp [setEntry]
  · simp [setEntry, h]

theorem setEntry_entry_self (a o : Nat) (e : Entry) : (s.setEntry a o e).entry a o = e := by
  simp [setEntry, entry]

theorem setEntry_arrays_of_ne {a a' : Nat} (o : Nat) (e : Entry) (h : a' ≠ a) :
    (s.setEntry a o e).arrays a' = s.arrays a' := by
  simp [setEntry, h]

theorem setEntry_entry_of_ne {a o a' o' : Nat} (e : Entry) (h : a' ≠ a ∨ o' ≠ o) :
    (s.setEntry a o e).entry a' o' = s.entry a' o' := by
  by_cases ha : a' = a
  · subst ha
    simp [setEntry, entry, h.resolve_left (not_not_intro rfl)]
  · simp [setEntry, entry, ha]

end State

theorem mem_copyParts {nslots o : Nat} {part : Part} :
    (o, part) ∈ copyParts dim nslots ↔
      (1 ≤ o ∧ o ≤ nslots) ∧ (part = .version ∨ ∃ f ∈ hitFields dim, part = .field f) := by
  simp only [copyParts, List.mem_flatMap, List.mem_range, List.mem_cons, List.mem_map,
    Prod.mk.injEq]
  constructor
  · rintro ⟨i, hi, ⟨rfl, rfl⟩ | ⟨f, hf, rfl, rfl⟩⟩
    · exact ⟨by omega, .inl rfl⟩
    · exact ⟨by omega, .inr ⟨f, hf, rfl⟩⟩
  · rintro ⟨ho, rfl | ⟨f, hf, rfl⟩⟩
    · exact ⟨o - 1, by omega, .inl ⟨by omega, rfl⟩⟩
    · exact ⟨o - 1, by omega, .inr ⟨f, hf, by omega, rfl⟩⟩

namespace Grown

theorem array_ne {a dst : Nat} {todo : List (Nat × Part)} (h : Grown dim s (some a) dst todo) :
    a ≠ dst := by
  rintro rfl
  exact absurd (h.known a rfl) (by simp [h.fresh])

/-- The next part is copied. -/
theorem copyPart {a dst o : Nat} {part : Part} {todo : List (Nat × Part)}
    (h : Grown dim s (some a) dst ((o, part) :: todo)) :
    Grown dim (s.setEntry dst o ((s.entry dst o).copyPart (s.entry a o) part)) (some a) dst todo where
  fresh := h.fresh
  allocated := h.allocated
  known := h.known
  version a' ha' o' hr hdone := by
    obtain rfl := Option.mem_some_iff.mp ha'
    rw [State.setEntry_entry_of_ne _ (.inl h.array_ne)]
    unfold InRange at hr
    rw [State.setEntry_nslots] at hr
    by_cases ho : o' = o
    · subst ho
      rw [State.setEntry_entry_self]
      cases part with
      | version => rfl
      | field f => exact h.version a rfl o' hr (by simp [hdone])
    · rw [State.setEntry_entry_of_ne _ (.inr ho)]
      exact h.version a rfl o' hr (by simp [hdone, ho])
  field a' ha' o' hr f hf hdone := by
    obtain rfl := Option.mem_some_iff.mp ha'
    rw [State.setEntry_entry_of_ne _ (.inl h.array_ne)]
    unfold InRange at hr
    rw [State.setEntry_nslots] at hr
    by_cases ho : o' = o
    · subst ho
      rw [State.setEntry_entry_self]
      cases part with
      | version => exact h.field a rfl o' hr f hf (by simp [hdone])
      | field g =>
        by_cases hg : f = g
        · subst hg
          simp [Entry.copyPart, SeqCell.write]
        · rw [← h.field a rfl o' hr f hf (by simp [hdone, hg])]
          simp [Entry.copyPart, SeqCell.write, hg]
    · rw [State.setEntry_entry_of_ne _ (.inr ho)]
      exact h.field a rfl o' hr f hf (by simp [hdone, ho])
  zeroed o' hout := by
    have hrange := h.within a rfl (o, part) List.mem_cons_self
    have ho : o' ≠ o := by
      rintro rfl
      apply hout a rfl
      unfold InRange
      rw [State.setEntry_nslots]
      exact hrange
    rw [State.setEntry_entry_of_ne _ (.inr ho)]
    apply h.zeroed
    intro a' ha' hr
    apply hout a' ha'
    unfold InRange
    rw [State.setEntry_nslots]
    exact hr
  within a' ha' p hp := by
    unfold InRange
    rw [State.setEntry_nslots]
    exact h.within a' ha' p (List.mem_cons_of_mem _ hp)

end Grown

/-! ### Writers -/

/-- Published arrays are left alone. -/
structure Quiet (s s' : State W R) : Prop where
  published : s'.published = s.published
  blocks : s'.blocks = s.blocks
  next : s.next ≤ s'.next
  arrays : ∀ a, s.published a = true → s'.arrays a = s.arrays a
  ends : s'.ends = s.ends
  completed : s'.completed = s.completed
  busy : ∀ a o, s'.busy a o = s.busy a o

namespace Quiet

theorem entry_eq (h : Quiet s s') {a : Nat} (ha : s.published a = true) (o : Nat) :
    s'.entry a o = s.entry a o := by
  unfold State.entry
  rw [h.arrays a ha]

theorem evolves (h : Quiet s s') : Evolves s s' where
  published a ha := by rw [h.published, ha]
  nslots a ha := by rw [h.arrays a ha]
  completed a o _ := by rw [h.completed]; exact List.Subset.refl _
  touch a o ha := .same (h.entry_eq ha o) (by rw [h.ends]) (h.busy a o)

theorem entryOk (h : Quiet s s') {a o : Nat} (ha : s.published a = true) (hok : EntryOk dim s a o) :
    EntryOk dim s' a o where
  stamped := by rw [h.entry_eq ha, h.ends, h.busy]; exact hok.stamped
  coherent := by rw [h.entry_eq ha, h.completed, h.busy]; exact hok.coherent

end Quiet

namespace Sound

theorem alone (h : Sound dim s) {w w' : W} (hw : s.writers w ≠ .idle) (hne : w' ≠ w) :
    s.writers w' = .idle := by
  by_contra hw'
  have hsame := (h.lock w' hw').symm.trans (h.lock w hw)
  exact hne (Option.some.inj hsame)

theorem alone_of_unlocked (h : Sound dim s) (hlock : s.wlock = none) (w : W) :
    s.writers w = .idle := by
  by_contra hw
  have := h.lock w hw
  rw [hlock] at this
  cases this

end Sound

theorem busy_eq {w : W} (hw : s.wlock = some w) (a o : Nat) :
    s.busy a o = (s.writers w).writing a o := by
  simp [State.busy, hw]

theorem busy_unlocked (hw : s.wlock = none) (a o : Nat) : s.busy a o = false := by
  simp [State.busy, hw]
variable [DecidableEq W]

/-- Only `w` moves, to `pc`, and it keeps the lock until it is done. -/
structure Moves (s s' : State W R) (w : W) (pc : WriterPc) : Prop where
  alone : ∀ w', w' ≠ w → s.writers w' = .idle
  writers : s'.writers = Function.update s.writers w pc
  readers : s'.readers = s.readers
  lock : s'.wlock = some w ∨ pc = .idle

namespace Sound

/-- **The step rule for writers.** -/
theorem move (h : Sound dim s) {w : W} {pc : WriterPc} (hmove : Moves s s' w pc)
    (hev : Evolves s s') (harrays : ∀ a, s'.published a = true → a < s'.next)
    (hblocks : ∀ b a, s'.blocks b = some a → s'.published a = true)
    (hentries : ∀ a o, s'.published a = true → InRange s' a o → EntryOk dim s' a o)
    (hpc : WriterOk dim s' pc) : Sound dim s' where
  lock w' hw' := by
    rw [hmove.writers] at hw'
    by_cases hsame : w' = w
    · subst hsame
      rw [Function.update_self] at hw'
      exact hmove.lock.resolve_right hw'
    · rw [Function.update_of_ne hsame, hmove.alone w' hsame] at hw'
      exact absurd rfl hw'
  arrays := harrays
  blocks := hblocks
  entries := hentries
  writers w' := by
    rw [hmove.writers]
    by_cases hsame : w' = w
    · subst hsame
      rw [Function.update_self]
      exact hpc
    · rw [Function.update_of_ne hsame, hmove.alone w' hsame]
      trivial
  readers r := by
    rw [hmove.readers]
    exact hev.readerOk (h.readers r)

/-- A writer's step that leaves published arrays alone. -/
theorem quiet (h : Sound dim s) {w : W} {pc : WriterPc} (hmove : Moves s s' w pc)
    (hq : Quiet s s') (hpc : WriterOk dim s' pc) : Sound dim s' := by
  apply h.move hmove hq.evolves
  · intro a ha
    rw [hq.published] at ha
    exact (h.arrays a ha).trans_le hq.next
  · intro b a hb
    rw [hq.blocks] at hb
    rw [hq.published]
    exact h.blocks b a hb
  · intro a o ha hr
    rw [hq.published] at ha
    unfold InRange at hr
    rw [hq.arrays a ha] at hr
    exact hq.entryOk ha (h.entries a o ha hr)
  · exact hpc

end Sound

theorem Grown.setWriter {src : Option Nat} {dst : Nat} {todo : List (Nat × Part)}
    (h : Grown dim s src dst todo) (w : W) (pc : WriterPc) :
    Grown dim (s.setWriter w pc) src dst todo :=
  ⟨h.fresh, h.allocated, h.known, h.version, h.field, h.zeroed, h.within⟩

/-- The new array of `acorn_cc_ensure_page`. -/
theorem Sound.grown (h : Sound dim s) (offno : Nat) (src : Option Nat)
    (hsrc : ∀ a ∈ src, s.published a = true) (w : W) (pc : WriterPc) :
    Grown dim ({ s with
      arrays := Function.update s.arrays s.next ⟨pageGrow offno, fun _ => Entry.zero⟩
      next := s.next + 1 }.setWriter w pc) src s.next
      (src.elim [] fun a => copyParts dim (s.arrays a).nslots) := by
  have hold : ∀ a ∈ src, a ≠ s.next := fun a ha => (h.arrays a (hsrc a ha)).ne
  have hslots : ∀ a ∈ src, (Function.update s.arrays s.next
      ⟨pageGrow offno, fun _ => Entry.zero⟩ a).nslots = (s.arrays a).nslots := by
    intro a ha
    rw [Function.update_of_ne (hold a ha)]
  constructor
  · apply Bool.eq_false_iff.mpr
    intro hp
    exact absurd (h.arrays s.next hp) (lt_irrefl _)
  · exact Nat.lt_succ_self _
  · exact hsrc
  · rintro a ha o ⟨h1, h2⟩ hdone
    rw [State.setWriter, hslots a ha] at h2
    subst ha
    exact absurd (mem_copyParts.mpr ⟨⟨h1, h2⟩, .inl rfl⟩) hdone
  · rintro a ha o ⟨h1, h2⟩ f hf hdone
    rw [State.setWriter, hslots a ha] at h2
    subst ha
    exact absurd (mem_copyParts.mpr ⟨⟨h1, h2⟩, .inr ⟨f, hf, rfl⟩⟩) hdone
  · intro o _
    simp [State.entry, State.setWriter]
  · rintro a ha ⟨o, part⟩ hp
    unfold InRange
    rw [State.setWriter, hslots a ha]
    subst ha
    exact (mem_copyParts.mp hp).1

/-! ### Writer steps -/

/-- The writer writes no entry. -/
def WriterPc.apart : WriterPc → Bool
  | .write _ _ _ _ => false
  | _ => true

theorem WriterPc.writing_eq_false {pc : WriterPc} (h : pc.apart = true) (a o : Nat) :
    pc.writing a o = false := by
  cases pc <;> first | rfl | cases h

omit [DecidableEq W] in
theorem busy_apart {w : W} (hlock : s.wlock = some w) (h : (s.writers w).apart = true) (a o : Nat) :
    s.busy a o = false := by
  rw [busy_eq hlock, WriterPc.writing_eq_false h]

theorem busy_setWriter {w : W} {pc : WriterPc} (hlock : s.wlock = some w) (h : pc.apart = true)
    (a o : Nat) : (s.setWriter w pc).busy a o = false := by
  have hlock' : (s.setWriter w pc).wlock = some w := hlock
  apply busy_apart hlock'
  simp [State.setWriter, h]

/-- The writer goes on, nothing else. -/
theorem Sound.setWriter (h : Sound dim s) {w : W} {pc : WriterPc} (hidle : s.writers w ≠ .idle)
    (happ : (s.writers w).apart = true) (happ' : pc.apart = true)
    (hpc : WriterOk dim (s.setWriter w pc) pc) : Sound dim (s.setWriter w pc) := by
  have hlock := h.lock w hidle
  refine h.quiet ⟨fun w' hw' => h.alone hidle hw', rfl, rfl, .inl hlock⟩ ?_ hpc
  exact ⟨rfl, rfl, le_rfl, fun _ _ => rfl, rfl, rfl, fun a o => by
    rw [busy_apart hlock happ, busy_setWriter hlock happ']⟩

/-- `acorn_cc_ensure_page` keeps the invariant. -/
theorem ensurePage_ok (h : Sound dim s) {w : W} {blkno offno : Nat} {c : Content}
    (hw : s.writers w = .ensurePage blkno offno c) :
    Sound dim (ensurePage dim s w blkno offno c) := by
  have hidle : s.writers w ≠ .idle := by rw [hw]; exact WriterPc.noConfusion
  have hlock := h.lock w hidle
  have happ : (s.writers w).apart = true := by rw [hw]; rfl
  have hoff : 1 ≤ offno := by
    have := h.writers w
    rwa [hw] at this
  have hfits : offno ≤ pageGrow offno := Nat.le_add_right _ _
  -- A new array is not published, so making it is quiet.
  have hfresh : ∀ pc, pc.apart = true → Quiet s ({ s with
      arrays := Function.update s.arrays s.next ⟨pageGrow offno, fun _ => Entry.zero⟩
      next := s.next + 1 }.setWriter w pc) := by
    intro pc hpc
    refine ⟨rfl, rfl, Nat.le_succ _, ?_, rfl, rfl, ?_⟩
    · intro a ha
      exact Function.update_of_ne (h.arrays a ha).ne _ _
    · intro a o
      rw [busy_apart hlock happ]
      exact busy_setWriter hlock hpc a o
  unfold ensurePage
  dsimp only
  split
  · refine h.quiet ⟨fun w' hw' => h.alone hidle hw', rfl, rfl, .inl hlock⟩ (hfresh _ rfl) ?_
    refine ⟨⟨hoff, ?_⟩, h.grown offno none (fun a ha => by cases ha) w _⟩
    simp [State.setWriter, hfits]
  · rename_i a hblk
    split
    · exact h.setWriter hidle happ rfl ⟨h.blocks blkno a hblk, hoff, ‹_›⟩
    · have hsrc : ∀ a' ∈ some a, s.published a' = true := by
        intro a' ha'
        obtain rfl := Option.mem_some_iff.mp ha'
        exact h.blocks blkno a hblk
      refine h.quiet ⟨fun w' hw' => h.alone hidle hw', rfl, rfl, .inl hlock⟩ (hfresh _ rfl) ?_
      refine ⟨⟨hoff, ?_⟩, h.grown offno (some a) hsrc w _⟩
      simp [State.setWriter, hfits]

/-- Copying a part keeps the invariant. -/
theorem copy_ok (h : Sound dim s) {w : W} {blkno offno : Nat} {c : Content} {src dst o : Nat}
    {part : Part} {todo : List (Nat × Part)}
    (hw : s.writers w = .copy blkno offno c src dst ((o, part) :: todo)) :
    Sound dim ((s.setEntry dst o ((s.entry dst o).copyPart (s.entry src o) part)).setWriter w
      (.copy blkno offno c src dst todo)) := by
  have hidle : s.writers w ≠ .idle := by rw [hw]; exact WriterPc.noConfusion
  have hlock := h.lock w hidle
  have happ : (s.writers w).apart = true := by rw [hw]; rfl
  have hok := h.writers w
  rw [hw] at hok
  obtain ⟨hoff, hgrown⟩ := hok
  refine h.quiet ⟨fun w' hw' => h.alone hidle hw', rfl, rfl, .inl hlock⟩ ?_ ?_
  · refine ⟨rfl, rfl, le_rfl, ?_, rfl, rfl, ?_⟩
    · intro a ha
      apply State.setEntry_arrays_of_ne
      rintro rfl
      exact absurd ha (by simp [hgrown.fresh])
    · intro a o'
      rw [busy_apart hlock happ]
      exact busy_setWriter hlock rfl a o'
  · refine ⟨?_, hgrown.copyPart.setWriter w _⟩
    rw [State.setWriter, State.setEntry_nslots]
    exact hoff

theorem coherent_zero (done : List Content) : Coherent dim done Entry.zero.field := by
  intro hp
  cases hp

/-- An entry of the new array is as good as the one it was copied from. -/
theorem Grown.entryOk {src : Option Nat} {dst : Nat} (h : Grown dim s src dst [])
    (hentries : ∀ a o, s.published a = true → InRange s a o → EntryOk dim s a o)
    (hquiet : ∀ a o, s.busy a o = false) {w : W} {pc : WriterPc} (hlock : s.wlock = some w)
    (hpc : pc.apart = true) (blkno o : Nat) :
    EntryOk dim ((publish s blkno src dst).setWriter w pc) dst o := by
  have hbusy : ((publish s blkno src dst).setWriter w pc).busy dst o = false :=
    busy_setWriter hlock hpc dst o
  by_cases hold : ∃ a ∈ src, InRange s a o
  · obtain ⟨a, rfl, hr⟩ := hold
    have hok := hentries a o (h.known a rfl) hr
    have hends : ((publish s blkno (some a) dst).setWriter w pc).ends dst o = s.ends a o := by
      simp [publish, State.setWriter, hr.1, hr.2]
    have hdone : ((publish s blkno (some a) dst).setWriter w pc).completed dst o =
        s.completed a o := by
      simp [publish, State.setWriter, hr.1, hr.2]
    constructor
    · rw [hbusy, hends]
      have := hok.stamped
      rw [hquiet] at this
      exact (h.version a rfl o hr List.not_mem_nil).trans this
    · intro _
      rw [hdone]
      have hfield := h.field a rfl o hr
      have hflags := hfield .flags (by simp [hitFields]) List.not_mem_nil
      intro hp hd
      obtain ⟨c, hc, hsame⟩ := hok.coherent (hquiet a o) (hflags ▸ hp) (hflags ▸ hd)
      exact ⟨c, hc, fun f hf => (hfield f hf List.not_mem_nil).trans (hsame f hf)⟩
  · have hzero : s.entry dst o = Entry.zero := by
      apply h.zeroed
      intro a ha hr
      exact hold ⟨a, ha, hr⟩
    have hends : ((publish s blkno src dst).setWriter w pc).ends dst o = 0 := by
      cases src with
      | none => simp [publish, State.setWriter]
      | some a =>
        have hout : ¬ (1 ≤ o ∧ o ≤ (s.arrays a).nslots) := fun hr => hold ⟨a, rfl, hr⟩
        simp only [publish, State.setWriter, Function.update_self, Option.elim_some, hout, if_false]
    constructor
    · rw [hbusy, hends]
      exact congrArg SeqCell.version hzero
    · intro _
      have hfield : (((publish s blkno src dst).setWriter w pc).entry dst o).field =
          Entry.zero.field := congrArg SeqCell.field hzero
      rw [hfield]
      exact coherent_zero _

/-- Publishing the new array keeps the invariant. -/
theorem publish_ok (h : Sound dim s) {w : W} {blkno offno : Nat} {c : Content} {src : Option Nat}
    {dst : Nat} (hw : s.writers w = .publish blkno offno c src dst) :
    Sound dim ((publish s blkno src dst).setWriter w (.writeBegin dst offno (.insert c))) := by
  have hidle : s.writers w ≠ .idle := by rw [hw]; exact WriterPc.noConfusion
  have hlock := h.lock w hidle
  have hquiet : ∀ a o, s.busy a o = false := by
    apply busy_apart hlock
    rw [hw]
    rfl
  have hok := h.writers w
  rw [hw] at hok
  obtain ⟨hoff, hgrown⟩ := hok
  have hbusy : ∀ a o, ((publish s blkno src dst).setWriter w
      (.writeBegin dst offno (.insert c))).busy a o = false := busy_setWriter hlock rfl
  have hold : ∀ a, s.published a = true → a ≠ dst := by
    rintro a ha rfl
    exact absurd ha (by simp [hgrown.fresh])
  have hpub : ∀ a, (publish s blkno src dst).published a = true ↔ a = dst ∨ s.published a = true := by
    intro a
    by_cases ha : a = dst
    · simp [publish, ha]
    · simp [publish, ha]
  have hends : ∀ a, a ≠ dst → (publish s blkno src dst).ends a = s.ends a :=
    fun a ha => Function.update_of_ne ha _ _
  have hdone : ∀ a, a ≠ dst → (publish s blkno src dst).completed a = s.completed a :=
    fun a ha => Function.update_of_ne ha _ _
  refine h.move ⟨fun w' hw' => h.alone hidle hw', rfl, rfl, .inl hlock⟩ ?_ ?_ ?_ ?_ ?_
  · constructor
    · intro a ha
      exact (hpub a).mpr (.inr ha)
    · intro a _
      rfl
    · intro a o ha
      exact ((congrFun (hdone a (hold a ha)) o).symm ▸ List.Subset.refl _)
    · intro a o ha
      exact .same rfl (congrFun (hends a (hold a ha)) o) ((hbusy a o).trans (hquiet a o).symm)
  · intro a ha
    obtain rfl | ha := (hpub a).mp ha
    · exact hgrown.allocated
    · exact h.arrays a ha
  · intro b a hb
    apply (hpub a).mpr
    by_cases hblk : b = blkno
    · subst hblk
      have : some dst = some a := by simpa [publish, State.setWriter] using hb
      exact .inl (Option.some.inj this).symm
    · have : s.blocks b = some a := by simpa [publish, State.setWriter, hblk] using hb
      exact .inr (h.blocks b a this)
  · intro a o ha hr
    obtain rfl | ha := (hpub a).mp ha
    · exact hgrown.entryOk h.entries hquiet hlock rfl blkno o
    · have hok := h.entries a o ha hr
      constructor
      · rw [hbusy]
        have := hok.stamped
        rw [hquiet] at this
        exact (congrFun (hends a (hold a ha)) o).symm ▸ this
      · intro _
        have := hok.coherent (hquiet a o)
        exact (congrFun (hdone a (hold a ha)) o).symm ▸ this
  · exact ⟨(hpub dst).mpr (.inl rfl), hoff⟩

/-- One entry of a published array changes. -/
structure ChangesAt (s s' : State W R) (a o : Nat) : Prop where
  published : s'.published = s.published
  blocks : s'.blocks = s.blocks
  next : s'.next = s.next
  nslots : ∀ a', (s'.arrays a').nslots = (s.arrays a').nslots
  entry : ∀ a' o', a' ≠ a ∨ o' ≠ o → s'.entry a' o' = s.entry a' o'
  ends : ∀ a' o', a' ≠ a ∨ o' ≠ o → s'.ends a' o' = s.ends a' o'
  completed : ∀ a' o', a' ≠ a ∨ o' ≠ o → s'.completed a' o' = s.completed a' o'
  busy : ∀ a' o', a' ≠ a ∨ o' ≠ o → s'.busy a' o' = s.busy a' o'

/-- A writer's step on one entry. -/
theorem Sound.change (h : Sound dim s) {w : W} {pc : WriterPc} {a o : Nat} (hmove : Moves s s' w pc)
    (hc : ChangesAt s s' a o) (htouch : Touch s s' a o) (hdone : s.completed a o ⊆ s'.completed a o)
    (hentry : EntryOk dim s' a o) (hpc : WriterOk dim s' pc) : Sound dim s' := by
  have hcase : ∀ a' o', (a' = a ∧ o' = o) ∨ (a' ≠ a ∨ o' ≠ o) := by
    intro a' o'
    by_cases ha : a' = a
    · by_cases ho : o' = o
      · exact .inl ⟨ha, ho⟩
      · exact .inr (.inr ho)
    · exact .inr (.inl ha)
  apply h.move hmove
  · constructor
    · intro a' ha'
      rw [hc.published, ha']
    · intro a' _
      exact hc.nslots a'
    · intro a' o' _
      obtain ⟨rfl, rfl⟩ | hne := hcase a' o'
      · exact hdone
      · rw [hc.completed a' o' hne]
        exact List.Subset.refl _
    · intro a' o' _
      obtain ⟨rfl, rfl⟩ | hne := hcase a' o'
      · exact htouch
      · exact .same (hc.entry a' o' hne) (hc.ends a' o' hne) (hc.busy a' o' hne)
  · intro a' ha'
    rw [hc.published] at ha'
    rw [hc.next]
    exact h.arrays a' ha'
  · intro b a' hb
    rw [hc.blocks] at hb
    rw [hc.published]
    exact h.blocks b a' hb
  · intro a' o' ha' hr
    rw [hc.published] at ha'
    unfold InRange at hr
    rw [hc.nslots] at hr
    obtain ⟨rfl, rfl⟩ | hne := hcase a' o'
    · exact hentry
    · have hok := h.entries a' o' ha' hr
      constructor
      · rw [hc.entry a' o' hne, hc.ends a' o' hne, hc.busy a' o' hne]
        exact hok.stamped
      · rw [hc.entry a' o' hne, hc.completed a' o' hne, hc.busy a' o' hne]
        exact hok.coherent
  · exact hpc

theorem isDeleted_invalidated (x : Word) : isDeleted ((x &&& ~~~2#64) ||| 1#64) = true := by
  have hbit : (((x &&& ~~~2#64) ||| 1#64) &&& 1#64).getLsbD 0 = true := by
    rw [BitVec.getLsbD_and, BitVec.getLsbD_or]
    simp
  unfold isDeleted
  rw [bne_iff_ne]
  intro hzero
  rw [hzero] at hbit
  cases hbit

/-- Before its first write, a job has all of them to do. -/
theorem Job.leaves_writes (job : Job) (e : Entry) (field : Content) :
    job.Leaves dim field (job.writes dim e) := by
  cases job with
  | insert c =>
    constructor
    · intro f hf
      exact .inr (List.mem_map.mpr ⟨f, mem_insertFields.mpr hf, rfl⟩)
    · intro p hp
      obtain ⟨f, -, rfl⟩ := List.mem_map.mp hp
      rfl
  | invalidate =>
    constructor
    · exact .inr ⟨_, List.mem_singleton_self _⟩
    · intro p hp
      obtain rfl := List.mem_singleton.mp hp
      exact ⟨rfl, isDeleted_invalidated _⟩

/-- One of the writes is done. -/
theorem Job.Leaves.write {job : Job} {e : Entry} {f : Field} {x : Word}
    {todo : List (Field × Word)} (h : job.Leaves dim e.field ((f, x) :: todo)) :
    job.Leaves dim (e.write f x).field todo := by
  cases job with
  | insert c =>
    obtain ⟨hfields, hvalues⟩ := h
    refine ⟨fun g hg => ?_, fun p hp => hvalues p (List.mem_cons_of_mem _ hp)⟩
    by_cases hgf : g = f
    · subst hgf
      left
      simp only [SeqCell.write, Function.update_self]
      exact hvalues (g, x) List.mem_cons_self
    · simp only [SeqCell.write, Function.update_of_ne hgf]
      obtain hdone | htodo := hfields g hg
      · exact .inl hdone
      · exact .inr (by simpa [hgf] using htodo)
  | invalidate =>
    obtain ⟨-, hvalues⟩ := h
    obtain ⟨rfl, hx⟩ := hvalues (f, x) List.mem_cons_self
    refine ⟨.inl ?_, fun p hp => hvalues p (List.mem_cons_of_mem _ hp)⟩
    simp only [SeqCell.write, Function.update_self]
    exact hx

omit [DecidableEq W] in
/-- Of all entries a writer is busy with its own. -/
theorem busy_of_write {w : W} {a o : Nat} {job : Job} {todo : List (Field × Word)}
    (hlock : s.wlock = some w) (hw : s.writers w = .write a o job todo) (a' o' : Nat) :
    s.busy a' o' = (a == a' && o == o') := by
  rw [busy_eq hlock, hw, WriterPc.writing]

theorem busy_write {w : W} {a o : Nat} {job : Job} {todo : List (Field × Word)}
    (hlock : s.wlock = some w) (a' o' : Nat) :
    (s.setWriter w (.write a o job todo)).busy a' o' = (a == a' && o == o') := by
  have hlock' : (s.setWriter w (.write a o job todo)).wlock = some w := hlock
  have hw' : (s.setWriter w (.write a o job todo)).writers w = .write a o job todo := by
    simp [State.setWriter]
  exact busy_of_write hlock' hw' a' o'

theorem beq_false_of_ne {a o a' o' : Nat} (h : a' ≠ a ∨ o' ≠ o) : (a == a' && o == o') = false := by
  rw [Bool.and_eq_false_iff, beq_eq_false_iff_ne, beq_eq_false_iff_ne]
  exact h.imp Ne.symm Ne.symm

/-- `acorn_cc_write_begin` keeps the invariant. -/
theorem writeBegin_ok (h : Sound dim s) {w : W} {a o : Nat} {job : Job}
    (hw : s.writers w = .writeBegin a o job) :
    Sound dim ((s.setEntry a o (s.entry a o).writeBegin).setWriter w
      (.write a o job (job.writes dim (s.entry a o)))) := by
  have hidle : s.writers w ≠ .idle := by rw [hw]; exact WriterPc.noConfusion
  have hlock := h.lock w hidle
  have hquiet : ∀ a o, s.busy a o = false := by
    apply busy_apart hlock
    rw [hw]
    rfl
  have hok := h.writers w
  rw [hw] at hok
  have hlock' : (s.setEntry a o (s.entry a o).writeBegin).wlock = some w := hlock
  have hself : ((s.setEntry a o (s.entry a o).writeBegin).setWriter w
      (.write a o job (job.writes dim (s.entry a o)))).busy a o = true := by
    rw [busy_write hlock']
    simp
  refine h.change (a := a) (o := o) ⟨fun w' hw' => h.alone hidle hw', rfl, rfl, .inl hlock⟩
    ⟨rfl, rfl, rfl, fun a' => State.setEntry_nslots _ _ _ a', ?_, fun _ _ _ => rfl,
      fun _ _ _ => rfl, ?_⟩ (.writing rfl hself) (List.Subset.refl _) ?_ ?_
  · intro a' o' hne
    exact State.setEntry_entry_of_ne _ hne
  · intro a' o' hne
    rw [busy_write hlock', hquiet, beq_false_of_ne hne]
  · refine ⟨?_, fun hb => ?_⟩
    · rw [hself]
      have hstamp := (h.entries a o hok.1 hok.2).stamped
      rw [hquiet] at hstamp
      exact (State.setEntry_entry_self a o _).symm ▸ hstamp.writeBegin
    · rw [hself] at hb
      cases hb
  · refine ⟨⟨hok.1, ?_⟩, job.leaves_writes _ _⟩
    unfold InRange
    rw [State.setWriter, State.setEntry_nslots]
    exact hok.2

/-- A write of a field keeps the invariant. -/
theorem write_ok (h : Sound dim s) {w : W} {a o : Nat} {job : Job} {f : Field} {x : Word}
    {todo : List (Field × Word)} (hw : s.writers w = .write a o job ((f, x) :: todo)) :
    Sound dim ((s.setEntry a o ((s.entry a o).write f x)).setWriter w (.write a o job todo)) := by
  have hidle : s.writers w ≠ .idle := by rw [hw]; exact WriterPc.noConfusion
  have hlock := h.lock w hidle
  have hbusy := busy_of_write hlock hw
  have hok := h.writers w
  rw [hw] at hok
  obtain ⟨⟨hpub, hr⟩, hleaves⟩ := hok
  have hlock' : (s.setEntry a o ((s.entry a o).write f x)).wlock = some w := hlock
  have hself : ((s.setEntry a o ((s.entry a o).write f x)).setWriter w
      (.write a o job todo)).busy a o = true := by
    rw [busy_write hlock']
    simp
  refine h.change (a := a) (o := o) ⟨fun w' hw' => h.alone hidle hw', rfl, rfl, .inl hlock⟩
    ⟨rfl, rfl, rfl, fun a' => State.setEntry_nslots _ _ _ a', ?_, fun _ _ _ => rfl,
      fun _ _ _ => rfl, ?_⟩ (.writing rfl hself) (List.Subset.refl _) ?_ ?_
  · intro a' o' hne
    exact State.setEntry_entry_of_ne _ hne
  · intro a' o' _
    rw [busy_write hlock', hbusy]
  · refine ⟨?_, fun hb => ?_⟩
    · rw [hself]
      have hstamp := (h.entries a o hpub hr).stamped
      rw [hbusy, beq_self_eq_true, beq_self_eq_true] at hstamp
      have hentry := State.setEntry_entry_self (s := s) a o ((s.entry a o).write f x)
      exact (congrArg SeqCell.version hentry).trans hstamp
    · rw [hself] at hb
      cases hb
  · refine ⟨⟨hpub, ?_⟩, ?_⟩
    · unfold InRange
      rw [State.setWriter, State.setEntry_nslots]
      exact hr
    · have hentry := State.setEntry_entry_self (s := s) a o ((s.entry a o).write f x)
      exact hentry.symm ▸ hleaves.write

omit [DecidableEq W] in
/-- The write that has ended is in the record. -/
theorem endWrite_coherent {a o : Nat} {job : Job}
    (h : job.Leaves dim (s.entry a o).field []) :
    Coherent dim ((endWrite s a o job).completed a o) (s.entry a o).field := by
  intro hp hd
  cases job with
  | insert c =>
    refine ⟨insertContent c, ?_, fun f hf => ?_⟩
    · simp [endWrite]
    · exact (h.1 f hf).resolve_right List.not_mem_nil
  | invalidate =>
    obtain hdel | ⟨x, hx⟩ := h.1
    · rw [hd] at hdel
      cases hdel
    · cases hx

/-- `acorn_cc_write_end` keeps the invariant. -/
theorem endWrite_ok (h : Sound dim s) {w : W} {a o : Nat} {job : Job}
    (hw : s.writers w = .write a o job []) :
    Sound dim ((endWrite s a o job).setWriter w .release) := by
  have hidle : s.writers w ≠ .idle := by rw [hw]; exact WriterPc.noConfusion
  have hlock := h.lock w hidle
  have hbusy := busy_of_write hlock hw
  have hok := h.writers w
  rw [hw] at hok
  obtain ⟨⟨hpub, hr⟩, hleaves⟩ := hok
  have hlock' : (endWrite s a o job).wlock = some w := hlock
  have hquiet : ∀ a' o', ((endWrite s a o job).setWriter w .release).busy a' o' = false :=
    busy_setWriter hlock' rfl
  have hentry : ((endWrite s a o job).setWriter w .release).entry a o = (s.entry a o).writeEnd :=
    State.setEntry_entry_self a o _
  have hends : ((endWrite s a o job).setWriter w .release).ends a o = s.ends a o + 1 := by
    simp [endWrite, State.setWriter]
  have hdone : s.completed a o ⊆ (endWrite s a o job).completed a o := by
    cases job with
    | insert c => simp [endWrite]
    | invalidate => exact List.Subset.refl _
  refine h.change (a := a) (o := o) ⟨fun w' hw' => h.alone hidle hw', rfl, rfl, .inl hlock⟩
    ⟨rfl, rfl, rfl, fun a' => State.setEntry_nslots _ _ _ a', ?_, ?_, ?_, ?_⟩
    (.written hends (hquiet a o)) hdone ?_ trivial
  · intro a' o' hne
    exact State.setEntry_entry_of_ne _ hne
  · intro a' o' hne
    by_cases ha : a' = a
    · subst ha
      simp [endWrite, State.setWriter, hne.resolve_left (not_not_intro rfl)]
    · simp [endWrite, State.setWriter, ha]
  · intro a' o' hne
    cases job with
    | insert c =>
      by_cases ha : a' = a
      · subst ha
        simp [endWrite, State.setWriter, hne.resolve_left (not_not_intro rfl)]
      · simp [endWrite, State.setWriter, ha]
    | invalidate => rfl
  · intro a' o' hne
    rw [hquiet, hbusy, beq_false_of_ne hne]
  · constructor
    · rw [hquiet, hends, hentry]
      have hstamp := (h.entries a o hpub hr).stamped
      rw [hbusy, beq_self_eq_true, beq_self_eq_true] at hstamp
      exact hstamp.writeEnd
    · intro _
      rw [hentry]
      exact endWrite_coherent hleaves

/-- **Writers keep the invariant.** -/
theorem writerStep_ok (h : Sound dim s) {w : W} (hstep : writerStep dim s w = some s') :
    Sound dim s' := by
  unfold writerStep at hstep
  split at hstep
  · cases hstep
  · obtain rfl := Option.some.inj hstep
    exact ensurePage_ok h ‹_›
  · rename_i blkno offno c src dst hw
    obtain rfl := Option.some.inj hstep
    have hok := h.writers w
    rw [hw] at hok
    refine h.setWriter (by rw [hw]; exact WriterPc.noConfusion) (by rw [hw]; rfl) rfl ?_
    exact ⟨hok.1, hok.2.setWriter w _⟩
  · obtain rfl := Option.some.inj hstep
    exact copy_ok h ‹_›
  · obtain rfl := Option.some.inj hstep
    exact publish_ok h ‹_›
  · obtain rfl := Option.some.inj hstep
    exact writeBegin_ok h ‹_›
  · obtain rfl := Option.some.inj hstep
    exact write_ok h ‹_›
  · obtain rfl := Option.some.inj hstep
    exact endWrite_ok h ‹_›
  · rename_i hw
    obtain rfl := Option.some.inj hstep
    have hidle : s.writers w ≠ .idle := by rw [hw]; exact WriterPc.noConfusion
    have hlock := h.lock w hidle
    refine h.quiet ⟨fun w' hw' => h.alone hidle hw', rfl, rfl, .inr rfl⟩ ?_ trivial
    refine ⟨rfl, rfl, le_rfl, fun _ _ => rfl, rfl, rfl, fun a o => ?_⟩
    rw [busy_apart hlock (by rw [hw]; rfl)]
    rfl

/-- A writer that takes the lock keeps the invariant. -/
theorem Sound.acquire (h : Sound dim s) {w : W} {pc : WriterPc} (hlock : s.wlock = none)
    (happ : pc.apart = true)
    (hpc : WriterOk dim { s.setWriter w pc with wlock := some w } pc) :
    Sound dim { s.setWriter w pc with wlock := some w } := by
  refine h.quiet ⟨fun w' _ => h.alone_of_unlocked hlock w', rfl, rfl, .inl rfl⟩ ?_ hpc
  refine ⟨rfl, rfl, le_rfl, fun _ _ => rfl, rfl, rfl, fun a o => ?_⟩
  rw [busy_unlocked hlock]
  have hlock' : ({ s.setWriter w pc with wlock := some w } : State W R).wlock = some w := rfl
  apply busy_apart hlock'
  simp [State.setWriter, happ]

variable [DecidableEq R]

omit [DecidableEq W] in
theorem Grown.setReader {src : Option Nat} {dst : Nat} {todo : List (Nat × Part)}
    (h : Grown dim s src dst todo) (r : R) (pc : ReaderPc) :
    Grown dim (s.setReader r pc) src dst todo :=
  ⟨h.fresh, h.allocated, h.known, h.version, h.field, h.zeroed, h.within⟩

omit [DecidableEq W] in
theorem WriterOk.setReader {wpc : WriterPc} (h : WriterOk dim s wpc) (r : R) (pc : ReaderPc) :
    WriterOk dim (s.setReader r pc) wpc := by
  cases wpc with
  | idle | release | ensurePage | writeBegin | write => exact h
  | copy => exact ⟨h.1, h.2.setReader r pc⟩
  | publish => exact ⟨h.1, h.2.setReader r pc⟩

omit [DecidableEq W] in
/-- A reader that moves to where it may be keeps the invariant. -/
theorem Sound.setReader (h : Sound dim s) {r : R} {pc : ReaderPc} (hpc : ReaderOk dim s pc) :
    Sound dim (s.setReader r pc) := by
  have hev : Quiet s (s.setReader r pc) :=
    ⟨rfl, rfl, le_rfl, fun _ _ => rfl, rfl, rfl, fun _ _ => rfl⟩
  refine ⟨h.lock, h.arrays, h.blocks, fun a o ha hr => hev.entryOk ha (h.entries a o ha hr),
    fun w => (h.writers w).setReader r pc, fun r' => ?_⟩
  by_cases hr : r' = r
  · subst hr
    simp only [State.setReader, Function.update_self]
    exact hev.evolves.readerOk hpc
  · simp only [State.setReader, Function.update_of_ne hr]
    exact hev.evolves.readerOk (h.readers r')

omit [DecidableEq W] [DecidableEq R] in
theorem resolvable_iff {a o : Nat} :
    resolvable s a o = true ↔ s.published a = true ∧ InRange s a o := by
  simp [resolvable, InRange]

/-- **Every step keeps the invariant.** -/
theorem step_ok (h : Sound dim s) {act : Action W R} (hstep : step dim s act = some s') :
    Sound dim s' := by
  cases act with
  | insert w blkno offno c =>
    simp only [step] at hstep
    split at hstep
    · split at hstep
      · obtain rfl := Option.some.inj hstep
        exact h.acquire ‹_› rfl ‹_›
      · cases hstep
    · cases hstep
  | invalidate w a o =>
    simp only [step] at hstep
    split at hstep
    · split at hstep
      · obtain rfl := Option.some.inj hstep
        exact h.acquire ‹_› rfl (resolvable_iff.mp ‹_›)
      · cases hstep
    · cases hstep
  | write w => exact writerStep_ok h hstep
  | refuse w =>
    simp only [step] at hstep
    split at hstep
    · rename_i hw
      obtain rfl := Option.some.inj hstep
      exact h.setWriter (by rw [hw]; exact WriterPc.noConfusion) (by rw [hw]; rfl) rfl trivial
    · cases hstep
  | resolve r a o =>
    simp only [step] at hstep
    split at hstep
    · split at hstep
      · obtain rfl := Option.some.inj hstep
        obtain ⟨ha, hr⟩ := resolvable_iff.mp ‹_›
        exact h.setReader ⟨ha, hr, le_rfl⟩
      · cases hstep
    · split at hstep
      · obtain rfl := Option.some.inj hstep
        obtain ⟨ha, hr⟩ := resolvable_iff.mp ‹_›
        exact h.setReader ⟨ha, hr, le_rfl⟩
      · cases hstep
    · cases hstep
  | read r =>
    obtain ⟨pc, hnext, rfl⟩ := Option.map_eq_some_iff.mp hstep
    exact h.setReader (readerNext_ok h.entries (h.readers r) hnext)

omit [DecidableEq W] [DecidableEq R] in
theorem Sound.init (loaded : List (Nat × (Nat → Option Content))) :
    Sound dim (State.init loaded : State W R) where
  lock w hw := absurd rfl hw
  arrays a ha := of_decide_eq_true ha
  blocks b a hb := by
    simp only [State.init] at hb ⊢
    split at hb
    · obtain rfl := Option.some.inj hb
      exact decide_eq_true ‹_›
    · cases hb
  entries a o ha _ := by
    have hlt : a < loaded.length := of_decide_eq_true ha
    have hget : loaded[a]? = some loaded[a] := List.getElem?_eq_getElem hlt
    have hbusy : (State.init loaded : State W R).busy a o = false := rfl
    have hentry : (State.init loaded : State W R).entry a o =
        (loaded[a].2 o).elim Entry.zero fun c => ⟨0#32, c⟩ := by
      simp [State.init, State.entry, hget]
    have hdone : (State.init loaded : State W R).completed a o = (loaded[a].2 o).toList := by
      simp [State.init, hget]
    constructor
    · rw [hbusy, hentry]
      cases loaded[a].2 o <;> rfl
    · intro _
      rw [hentry, hdone]
      cases loaded[a].2 o with
      | none => exact coherent_zero _
      | some c => exact fun _ _ => ⟨c, List.mem_singleton_self c, fun _ _ => rfl⟩
  writers _ := trivial
  readers _ := trivial

/-- **Cache reads are never torn.** Whatever writers and readers do, a read that
returns an entry after fewer than `2 ^ 31` writes of it has copied one completed
write, present and not deleted. -/
theorem read_not_torn {loaded : List (Nat × (Nat → Option Content))} {s : State W R}
    (h : Runs (step dim) (fun _ _ => True) (State.init loaded) s) {r : R} {a o start fin : Nat}
    {got : List (Field × Word)} (hr : s.readers r = .returned a o start fin (some got))
    (hfew : fin < start + 2 ^ 31) :
    ∃ c ∈ s.completed a o, got = (hitFields dim).map (fun f => (f, c f)) ∧
      isPresent (c .flags) = true ∧ isDeleted (c .flags) = false := by
  have hsound := h.invariant (Sound.init loaded) fun hs _ hstep => step_ok hs hstep
  have hreader := hsound.readers r
  rw [hr] at hreader
  exact (hreader got rfl).2 hfew

end

/-! ### A read across a write -/

/-- An entry that holds the same word in every field but the flags. -/
def plainContent (x : Word) : Content := insertContent fun _ => x

/-- A read starts, an insert rewrites the entry while the reader copies it, and the
read is tried again. -/
def readAcrossInserts : List (Action Unit Unit) :=
  [.resolve () 0 1, .read (), .read (), .read (), .read (), .insert () 0 1 fun _ => 7#64] ++
    List.replicate 12 (.write ()) ++ List.replicate 22 (.read ())

theorem read_not_torn_retried : ∃ s : State Unit Unit, ∃ got,
    s.readers () = .returned 0 1 0 1 (some got) ∧
      ∃ c ∈ s.completed 0 1, got = (hitFields 1).map (fun f => (f, c f)) ∧
        isPresent (c .flags) = true ∧ isDeleted (c .flags) = false := by
  have h : ((exec (fun s a => if True then step 1 s a else none)
      (State.init [(1, fun _ => some (plainContent 5#64))]) readAcrossInserts).map fun s =>
        s.readers ()) = some (.returned 0 1 0 1
          (some ((hitFields 1).map fun f => (f, plainContent 7#64 f)))) := by
    decide +kernel
  obtain ⟨s, hs, hobs⟩ := Option.map_eq_some_iff.mp h
  exact ⟨s, _, hobs, read_not_torn (runs_of_exec hs) hobs (by decide)⟩

end PgAcorn.CodeCache.Entries
