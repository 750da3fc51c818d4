import PgAcorn.Library.Machine
import Mathlib.Logic.Function.Basic
import Mathlib.Data.List.Forall2

/-! Programs that share a state, and rely–guarantee reasoning about them.

A program is a sequence of atomic operations with pure computation in between.
An operation can be blocked, it can be one the program must never make (`fault`),
or it answers and changes the state. A program ends with a value or an error;
`diverge` stands for a loop whose fuel ran out and takes no step.

`Pool` runs any number of programs on one state, their operations interleaved
freely. A `Discipline` says what every operation keeps (`inv`) and what it may do
as a function of who makes it (`guar`); what a program may assume of the others
between two of its own operations (`Rely`) is what they guarantee. `Triple` is
the judgement that a program keeps the discipline, with a rule for each way of
building programs, and `Orderly.run` carries it through any interleaving. -/
namespace PgAcorn.Library

/-! ### Programs -/

/-- What an atomic operation does in a state. -/
inductive Outcome (σ β : Type)
  | blocked
  | fault
  | done (b : β) (s : σ)

inductive Prog (σ α : Type) : Type 1
  | pure (a : α)
  | raise (message : String)
  | diverge
  | step {β : Type} (op : σ → Outcome σ β) (next : β → Prog σ α)

namespace Prog
variable {σ α β : Type}

def bind : Prog σ α → (α → Prog σ β) → Prog σ β
  | pure a, f => f a
  | raise message, _ => raise message
  | diverge, _ => diverge
  | step op next, f => step op fun b => (next b).bind f

instance : Monad (Prog σ) where
  pure := pure
  bind := bind

/-- One operation. -/
def lift (op : σ → Outcome σ β) : Prog σ β := step op pure

/-- An operation that only reads; `none` is a read the program must not make. -/
def read (f : σ → Option β) : Prog σ β :=
  lift fun s => match f s with
    | some b => .done b s
    | none => .fault

/-- Whether a program has ended, with a value or an error. -/
def Ended : Prog σ α → Prop
  | pure _ | raise _ => True
  | diverge | step _ _ => False

@[simp] theorem pure_eq (a : α) : (Pure.pure a : Prog σ α) = pure a := rfl

@[simp] theorem bind_eq (p : Prog σ α) (f : α → Prog σ β) : p >>= f = p.bind f := rfl

@[simp] theorem pure_bind (a : α) (f : α → Prog σ β) : (pure a).bind f = f a := rfl

@[simp] theorem raise_bind (message : String) (f : α → Prog σ β) :
    (raise message : Prog σ α).bind f = raise message := rfl

@[simp] theorem diverge_bind (f : α → Prog σ β) : (diverge : Prog σ α).bind f = diverge := rfl

theorem bind_assoc {γ : Type} (p : Prog σ α) (f : α → Prog σ β) (g : β → Prog σ γ) :
    (p.bind f).bind g = p.bind fun a => (f a).bind g := by
  induction p with
  | pure a | raise message | diverge => rfl
  | step op next ih =>
    simp only [bind]
    congr 1
    funext b
    exact ih b

theorem bind_pure (p : Prog σ α) : p.bind pure = p := by
  induction p with
  | pure a | raise message | diverge => rfl
  | step op next ih =>
    simp only [bind]
    congr 1
    funext b
    exact ih b

instance : LawfulMonad (Prog σ) := .mk' _ bind_pure pure_bind bind_assoc

end Prog

/-! ### Interleaved runs -/

/-- Programs on one shared state; a thread without a program has not started.
`settings` are values programs are started with. -/
structure Pool (I ε σ α : Type) where
  settings : ε
  shared : σ
  threads : I → Option (Prog σ α)

/-- What can happen in a pool. -/
inductive Action (I ε P : Type)
  | alter (settings : ε)
  | start (i : I) (arg : P)
  | act (i : I)

namespace Pool
variable {I ε σ α P : Type} [DecidableEq I]

/-- One action; `none` where it is not enabled. -/
def step (body : I → ε → P → Prog σ α) (p : Pool I ε σ α) : Action I ε P → Option (Pool I ε σ α)
  | .alter settings => some { p with settings := settings }
  | .start i arg =>
    match p.threads i with
    | none => some { p with
        threads := Function.update p.threads i (some (body i p.settings arg)) }
    | some _ => none
  | .act i =>
    match p.threads i with
    | some (.step op next) =>
      match op p.shared with
      | .done b s => some { p with
          shared := s, threads := Function.update p.threads i (some (next b)) }
      | _ => none
    | _ => none

/-- A pool before anything has started. -/
def init (settings : ε) (s : σ) : Pool I ε σ α := ⟨settings, s, fun _ => none⟩

/-- No program that has started is still running. -/
def Quiet (p : Pool I ε σ α) : Prop := ∀ i prog, p.threads i = some prog → prog.Ended

/-- A program is about to make an operation it must not make. -/
def Faulty (p : Pool I ε σ α) : Prop :=
  ∃ (i : I) (β : Type) (op : σ → Outcome σ β) (next : β → Prog σ α),
    p.threads i = some (.step op next) ∧ op p.shared = .fault

end Pool

/-! ### Rely and guarantee -/

/-- What threads keep, what each may do, and what is true of a thread that has
not started or has raised an error. -/
structure Discipline (I σ : Type) where
  inv : σ → Prop
  guar : I → σ → σ → Prop
  idle : I → σ → Prop
  failed : I → σ → Prop

section
variable {I σ : Type} (D : Discipline I σ) (i : I)

/-- What other threads may do, in any number of operations. -/
def Rely : σ → σ → Prop :=
  Relation.ReflTransGen fun s s' => D.inv s ∧ D.inv s' ∧ ∃ j ≠ i, D.guar j s s'

/-- Other threads cannot make the assertion false. -/
def Stable (P : σ → Prop) : Prop := ∀ s s', Rely D i s s' → P s → P s'

variable {D i}

/-- Stability is checked one operation at a time. -/
theorem Stable.of_step {P : σ → Prop}
    (h : ∀ {s s' j}, j ≠ i → D.inv s → D.inv s' → D.guar j s s' → P s → P s') : Stable D i P := by
  intro s s' hrely hs
  induction hrely with
  | refl => exact hs
  | tail _ hlast ih =>
    obtain ⟨hinv, hinv', j, hj, hguar⟩ := hlast
    exact h hj hinv hinv' hguar ih

theorem Stable.const (p : Prop) : Stable D i fun _ => p := fun _ _ _ h => h

theorem Stable.and {P P' : σ → Prop} (h : Stable D i P) (h' : Stable D i P') :
    Stable D i fun s => P s ∧ P' s :=
  fun _ _ hrely hs => ⟨h _ _ hrely hs.1, h' _ _ hrely hs.2⟩

theorem Stable.imp {p : Prop} {P : σ → Prop} (h : Stable D i P) :
    Stable D i fun s => p → P s := fun _ _ hrely hs hp => h _ _ hrely (hs hp)

theorem Stable.all {ι : Sort*} {P : ι → σ → Prop} (h : ∀ x, Stable D i (P x)) :
    Stable D i fun s => ∀ x, P x s := fun _ _ hrely hs x => h x _ _ hrely (hs x)

theorem Stable.ex {ι : Sort*} {P : ι → σ → Prop} (h : ∀ x, Stable D i (P x)) :
    Stable D i fun s => ∃ x, P x s := fun _ _ hrely ⟨x, hx⟩ => ⟨x, h x _ _ hrely hx⟩

variable (D i) {α β γ : Type}

/-- The program keeps the discipline from a state on, whatever the other threads
do, and ends in a state the postcondition allows. -/
def Safe (post : α → σ → Prop) : Prog σ α → σ → Prop
  | .pure a, s => ∀ s', Rely D i s s' → post a s'
  | .raise _, s => ∀ s', Rely D i s s' → D.failed i s'
  | .diverge, _ => True
  | .step op next, s => ∀ s', Rely D i s s' → D.inv s' →
    match op s' with
    | .blocked => True
    | .fault => False
    | .done b s'' => D.inv s'' ∧ D.guar i s' s'' ∧ Safe post (next b) s''

/-- The program keeps the discipline from every state the precondition allows. -/
def Triple (pre : σ → Prop) (p : Prog σ α) (post : α → σ → Prop) : Prop :=
  ∀ s, D.inv s → pre s → Safe D i post p s

variable {D i}

/-- Keeping the discipline is stable itself. -/
theorem Safe.rely {post : α → σ → Prop} {p : Prog σ α} {s s' : σ} (h : Safe D i post p s)
    (hrely : Rely D i s s') : Safe D i post p s' := by
  cases p with
  | pure a => exact fun s'' h'' => h s'' (hrely.trans h'')
  | raise message => exact fun s'' h'' => h s'' (hrely.trans h'')
  | diverge => trivial
  | step op next => exact fun s'' h'' => h s'' (hrely.trans h'')

theorem Safe.bind {post : α → σ → Prop} {post' : β → σ → Prop} {f : α → Prog σ β}
    {p : Prog σ α} {s : σ} (h : Safe D i post p s) (hs : D.inv s)
    (hf : ∀ a, Triple D i (post a) (f a) post') : Safe D i post' (p.bind f) s := by
  induction p generalizing s with
  | pure a => exact hf a s hs (h s .refl)
  | raise message => exact h
  | diverge => trivial
  | step op next ih =>
    intro s' hrely hs'
    have hop := h s' hrely hs'
    revert hop
    cases op s' with
    | blocked => exact fun _ => trivial
    | fault => exact fun hop => hop
    | done b s'' =>
      rintro ⟨hinv, hguar, hnext⟩
      exact ⟨hinv, hguar, ih b hnext hinv⟩

theorem Safe.mono {post post' : α → σ → Prop} {p : Prog σ α} {s : σ} (h : Safe D i post p s)
    (hpost : ∀ a s, post a s → post' a s) : Safe D i post' p s := by
  induction p generalizing s with
  | pure a => exact fun s' hrely => hpost a s' (h s' hrely)
  | raise message => exact h
  | diverge => trivial
  | step op next ih =>
    intro s' hrely hs'
    have hop := h s' hrely hs'
    revert hop
    cases op s' with
    | blocked => exact fun _ => trivial
    | fault => exact fun hop => hop
    | done b s'' => exact fun ⟨hinv, hguar, hnext⟩ => ⟨hinv, hguar, ih b hnext⟩

/-! ### Rules -/

namespace Triple

theorem pure {pre : σ → Prop} {post : α → σ → Prop} {a : α} (hpost : Stable D i (post a))
    (h : ∀ s, D.inv s → pre s → post a s) : Triple D i pre (.pure a) post :=
  fun s hs hpre _ hrely => hpost _ _ hrely (h s hs hpre)

theorem raise {pre : σ → Prop} {post : α → σ → Prop} {message : String}
    (hfailed : Stable D i (D.failed i)) (h : ∀ s, D.inv s → pre s → D.failed i s) :
    Triple D i pre (.raise message) post := fun s hs hpre _ hrely => hfailed _ _ hrely (h s hs hpre)

theorem diverge {pre : σ → Prop} {post : α → σ → Prop} :
    Triple D i pre (.diverge : Prog σ α) post := fun _ _ _ => trivial

theorem bind {pre : σ → Prop} {mid : α → σ → Prop} {post : β → σ → Prop} {p : Prog σ α}
    {f : α → Prog σ β} (hp : Triple D i pre p mid) (hf : ∀ a, Triple D i (mid a) (f a) post) :
    Triple D i pre (p.bind f) post := fun s hs hpre => (hp s hs hpre).bind hs hf

/-- An operation that is never blocked. -/
theorem lift {pre : σ → Prop} {post : β → σ → Prop} {op : σ → Outcome σ β}
    (hpre : Stable D i pre) (hpost : ∀ b, Stable D i (post b))
    (h : ∀ s, D.inv s → pre s → ∃ b s', op s = .done b s' ∧ D.inv s' ∧ D.guar i s s' ∧ post b s') :
    Triple D i pre (.lift op) post := by
  intro s hs hp s₁ hrely hs₁
  obtain ⟨b, s', hop, hinv, hguar, hb⟩ := h s₁ hs₁ (hpre _ _ hrely hp)
  rw [hop]
  exact ⟨hinv, hguar, fun _ hrely' => hpost b _ _ hrely' hb⟩

theorem weaken {pre pre' : σ → Prop} {post : α → σ → Prop} {p : Prog σ α}
    (h : Triple D i pre p post) (hpre : ∀ s, D.inv s → pre' s → pre s) :
    Triple D i pre' p post := fun s hs hs' => h s hs (hpre s hs hs')

theorem consequence {pre : σ → Prop} {post post' : α → σ → Prop} {p : Prog σ α}
    (h : Triple D i pre p post) (hpost : ∀ a s, post a s → post' a s) : Triple D i pre p post' :=
  fun s hs hpre => (h s hs hpre).mono hpost

/-- A pure fact of the precondition. -/
theorem assume {q : Prop} {pre : σ → Prop} {post : α → σ → Prop} {p : Prog σ α}
    (h : q → Triple D i pre p post) : Triple D i (fun s => q ∧ pre s) p post :=
  fun s hs hpre => h hpre.1 s hs hpre.2

/-- A pure fact that the invariant implies. -/
theorem of_inv {q : Prop} {pre : σ → Prop} {post : α → σ → Prop} {p : Prog σ α}
    (hq : ∀ s, D.inv s → q) (h : q → Triple D i pre p post) : Triple D i pre p post :=
  fun s hs hpre => h (hq s hs) s hs hpre

/-- A loop over a list: `J` speaks of the elements still to come. -/
theorem foldlM {f : β → γ → Prog σ β} {J : List γ → β → σ → Prop}
    (hnil : ∀ b, Stable D i (J [] b))
    (hstep : ∀ b x xs, Triple D i (J (x :: xs) b) (f b x) (J xs)) (b : β) (xs : List γ) :
    Triple D i (J xs b) (xs.foldlM f b) (J []) := by
  induction xs generalizing b with
  | nil => exact .pure (hnil b) fun _ _ h => h
  | cons x xs ih => exact .bind (hstep b x xs) fun b' => ih b'

/-- A loop over a list without an accumulator. -/
theorem forM {f : γ → Prog σ Unit} {J : List γ → σ → Prop} (hnil : Stable D i (J []))
    (hstep : ∀ x xs, Triple D i (J (x :: xs)) (f x) fun _ => J xs) (xs : List γ) :
    Triple D i (J xs) (xs.forM f) fun _ => J [] := by
  induction xs with
  | nil => exact .pure hnil fun _ _ h => h
  | cons x xs ih => exact .bind (hstep x xs) fun _ => ih

/-- Answers collected over a list. -/
theorem mapM {f : γ → Prog σ β} {pre : σ → Prop} {R : γ → β → Prop} {xs : List γ}
    (hpre : Stable D i pre)
    (hstep : ∀ x ∈ xs, Triple D i pre (f x) fun b s => R x b ∧ pre s) :
    Triple D i pre (xs.mapM f) fun bs s => List.Forall₂ R xs bs ∧ pre s := by
  rw [← List.mapM'_eq_mapM]
  induction xs with
  | nil => exact .pure (.and (.const _) hpre) fun _ _ h => ⟨.nil, h⟩
  | cons x xs ih =>
    rw [List.mapM'_cons]
    refine .bind (hstep x (by simp)) fun b => .assume fun hb => ?_
    refine .bind (ih fun y hy => hstep y (List.mem_cons_of_mem x hy)) fun bs => .assume fun hbs => ?_
    exact .pure (.and (.const _) hpre) fun _ _ h => ⟨.cons hb hbs, h⟩

end Triple

/-! ### Every interleaving -/

section Pool
variable {ε P : Type} [DecidableEq I] (D) (post : I → α → σ → Prop)

/-- The shared state is in order and so is every thread. -/
def Orderly (p : Pool I ε σ α) : Prop :=
  D.inv p.shared ∧ ∀ i, match p.threads i with
    | none => D.idle i p.shared
    | some prog => Safe D i (post i) prog p.shared

variable {D post} {body : I → ε → P → Prog σ α}

/-- What one operation of a thread does to the shared state. -/
theorem Orderly.act {p p' : Pool I ε σ α} (h : Orderly D post p)
    (hstep : p.step body (.act i) = some p') : D.inv p'.shared ∧ D.guar i p.shared p'.shared ∧
      ∃ prog, Safe D i (post i) prog p'.shared ∧
        p'.threads = Function.update p.threads i (some prog) := by
  have hi := h.2 i
  revert hstep hi
  rw [Pool.step]
  cases p.threads i with
  | none => exact fun hstep => by cases hstep
  | some prog =>
    cases prog with
    | pure | raise | diverge => exact fun hstep => by cases hstep
    | step op next =>
      intro hstep hi
      have hop := hi p.shared .refl h.1
      revert hstep hop
      dsimp only
      cases op p.shared with
      | blocked | fault => exact fun hstep => by cases hstep
      | done b s =>
        rintro ⟨⟩ ⟨hinv, hguar, hnext⟩
        exact ⟨hinv, hguar, next b, hnext, rfl⟩

variable (hidle : ∀ i, Stable D i (D.idle i)) {ok : Pool I ε σ α → Action I ε P → Prop}
  (hbody : ∀ {p : Pool I ε σ α} {i : I} {arg : P}, D.inv p.shared → D.idle i p.shared →
    ok p (.start i arg) → Safe D i (post i) (body i p.settings arg) p.shared)
include hidle hbody

/-- **One action keeps everything in order.** -/
theorem Orderly.step {p p' : Pool I ε σ α} {a : Action I ε P} (h : Orderly D post p)
    (hok : ok p a) (hstep : p.step body a = some p') : Orderly D post p' := by
  cases a with
  | alter settings =>
    obtain rfl := Option.some.inj hstep
    exact h
  | start i arg =>
    rw [Pool.step] at hstep
    have hi := h.2 i
    cases hthread : p.threads i with
    | some prog =>
      rw [hthread] at hstep
      cases hstep
    | none =>
      rw [hthread] at hstep hi
      obtain rfl := Option.some.inj hstep
      refine ⟨h.1, fun j => ?_⟩
      dsimp only
      by_cases hj : j = i
      · subst hj
        rw [Function.update_self]
        exact hbody h.1 hi hok
      · rw [Function.update_of_ne hj]
        exact h.2 j
  | act i =>
    obtain ⟨hinv, hguar, prog, hprog, hthreads⟩ := h.act hstep
    refine ⟨hinv, fun j => ?_⟩
    rw [hthreads]
    by_cases hj : j = i
    · subst hj
      rw [Function.update_self]
      exact hprog
    · rw [Function.update_of_ne hj]
      have hrely : Rely D j p.shared p'.shared := .single ⟨h.1, hinv, i, Ne.symm hj, hguar⟩
      have hthread := h.2 j
      revert hthread
      cases p.threads j with
      | none => exact fun hthread => hidle j _ _ hrely hthread
      | some prog => exact fun hthread => hthread.rely hrely

/-- **Every interleaving keeps everything in order.** -/
theorem Orderly.run {p p' : Pool I ε σ α} (h : Orderly D post p)
    (hrun : Runs (fun p a => p.step body a) ok p p') : Orderly D post p' :=
  hrun.invariant h fun h hok hstep => h.step hidle hbody hok hstep

end Pool

section Ends
variable {ε : Type} {post : I → α → σ → Prop} {p : Pool I ε σ α}

theorem Orderly.init {settings : ε} {s : σ} (hinv : D.inv s) (hidle : ∀ i, D.idle i s) :
    Orderly D post (.init settings s) := ⟨hinv, hidle⟩

/-- No thread is about to make an operation it must not make. -/
theorem Orderly.not_faulty (h : Orderly D post p) : ¬ p.Faulty := by
  rintro ⟨i, β, op, next, hthread, hop⟩
  have hi := h.2 i
  rw [hthread] at hi
  have := hi p.shared .refl h.1
  rw [hop] at this
  exact this

/-- What is true of a thread that has ended. -/
theorem Orderly.ended {prog : Prog σ α} (h : Orderly D post p) (hi : p.threads i = some prog)
    (hended : prog.Ended) : (∃ a, post i a p.shared) ∨ D.failed i p.shared := by
  have hsafe := h.2 i
  rw [hi] at hsafe
  cases prog with
  | pure a => exact .inl ⟨a, hsafe p.shared .refl⟩
  | raise message => exact .inr (hsafe p.shared .refl)
  | diverge => exact hended.elim
  | step op next => exact hended.elim

end Ends

end

end PgAcorn.Library
