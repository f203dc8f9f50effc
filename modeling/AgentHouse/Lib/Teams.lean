import AgentHouse.Lib.Programs
import Mathlib.Logic.Function.Basic
import Mathlib.Logic.Relation

/-!
# Threads that run programs over one world

Every thread runs one program, and the threads take turns action by action in any order. A
discipline says what a thread may do and what it relies on: an invariant of the world, and what
the others leave alone. A thread is checked by itself, with the others' actions in between, and
what is checked so holds in every run.
-/

namespace AgentHouse

/-- Threads, and what their actions do to the world. -/
structure Team (ι : Type) (A : Type → Type 1) (S : Type) where
  /-- What the world does by itself. -/
  env : S → S → Prop
  eff : ι → {β : Type} → A β → S → β → S → Prop
  /-- The programs that a thread may begin. -/
  begins : ι → S → Prog A Unit → Prop

/-- A thread runs once. -/
inductive Thread (A : Type → Type 1) where
  | idle
  | runs (p : Prog A Unit)
  | ended

/-- A program whose result nobody waits for. -/
def Op.thread {A : Type → Type 1} {ε α : Type} (p : Op A ε α) : Prog A Unit :=
  Prog.bind p fun _ => .done ()

theorem Op.keeps_thread {A : Type → Type 1} {S ε α : Type} {C : Contract A S} {p : Op A ε α}
    {Q : Unit → S → Prop} {s : S} : p.thread.Keeps C Q s ↔ p.Keeps C (fun _ => Q ()) s :=
  Prog.keeps_bind

namespace Team

variable {ι : Type} {A : Type → Type 1} {S : Type}

/-- What a thread finds where it acts: the others have moved on as it relies on. -/
def contract (T : Team ι A S) (inv : S → Prop) (rely : S → S → Prop)
    (allowed : {β : Type} → A β → S → Prop) (n : ι) : Contract A S where
  does a s b s' := ∃ t, inv t ∧ rely s t ∧ T.eff n a t b s' ∧ inv s'
  allowed a s := ∀ t, inv t → rely s t → allowed a t

/-- An invariant, what a thread relies on of the others, what it may do, and what holds of it
before it begins and after it has ended. -/
structure Discipline (T : Team ι A S) where
  inv : S → Prop
  rely : ι → S → S → Prop
  allowed : ι → {β : Type} → A β → S → Prop
  before : ι → S → Prop
  after : ι → S → Prop
  refl : ∀ n s, rely n s s
  trans : ∀ {n s t u}, rely n s t → rely n t u → rely n s u
  before_stable : ∀ {n s t}, before n s → rely n s t → before n t
  after_stable : ∀ {n s t}, after n s → rely n s t → after n t
  env : ∀ {s t}, inv s → T.env s t → inv t ∧ ∀ n, rely n s t
  act : ∀ {n : ι} {β : Type} {a : A β} {s t : S} {b : β}, inv s → allowed n a s →
    T.eff n a s b t → inv t ∧ ∀ m, m ≠ n → rely m s t
  begins : ∀ {n s p}, inv s → before n s → T.begins n s p →
    p.Keeps (T.contract inv (rely n) (allowed n) n) (fun _ => after n) s

namespace Discipline

variable {T : Team ι A S} (D : T.Discipline)

/-- What is known of a thread. -/
def Knows (n : ι) (s : S) : Thread A → Prop
  | .idle => D.before n s
  | .runs p => ∃ t, D.inv t ∧ D.rely n t s ∧
      p.Keeps (T.contract D.inv (D.rely n) (D.allowed n) n) (fun _ => D.after n) t
  | .ended => D.after n s

/-- What a thread knows it knows after the steps of the others. -/
theorem Knows.stable {n : ι} {s t : S} {x : Thread A} (h : D.Knows n s x) (hrely : D.rely n s t) :
    D.Knows n t x := by
  cases x with
  | idle => exact D.before_stable h hrely
  | runs p =>
    obtain ⟨u, hu, hus, hp⟩ := h
    exact ⟨u, hu, D.trans hus hrely, hp⟩
  | ended => exact D.after_stable h hrely

end Discipline

section Runs

variable [DecidableEq ι]

/-- The world moves, or a thread begins, acts or ends. -/
inductive Step (T : Team ι A S) : S × (ι → Thread A) → S × (ι → Thread A) → Prop
  | env {s s' : S} {threads : ι → Thread A} (h : T.env s s') : Step T (s, threads) (s', threads)
  | begins {s : S} {threads : ι → Thread A} {n : ι} {p : Prog A Unit} (hn : threads n = .idle)
      (h : T.begins n s p) : Step T (s, threads) (s, Function.update threads n (.runs p))
  | act {β : Type} {a : A β} {next : β → Prog A Unit} {s s' : S} {b : β}
      {threads : ι → Thread A} {n : ι} (hn : threads n = .runs (.act a next))
      (h : T.eff n a s b s') :
      Step T (s, threads) (s', Function.update threads n (.runs (next b)))
  | ends {s : S} {threads : ι → Thread A} {n : ι} {u : Unit} (hn : threads n = .runs (.done u)) :
      Step T (s, threads) (s, Function.update threads n .ended)

/-- A run from a start in which no thread has begun. -/
def Reaches (T : Team ι A S) (start : S) (c : S × (ι → Thread A)) : Prop :=
  Relation.ReflTransGen T.Step (start, fun _ => .idle) c

section Building

variable {T : Team ι A S} {start s t : S} {threads : ι → Thread A} {n : ι}

/-- A thread begins its program. -/
theorem Reaches.begins {p : Prog A Unit} (h : T.Reaches start (s, threads))
    (hn : threads n = .idle) (hp : T.begins n s p) :
    T.Reaches start (s, Function.update threads n (.runs p)) :=
  .tail h (.begins hn hp)

/-- The world moves on by itself. -/
theorem Reaches.env (h : T.Reaches start (s, threads)) (he : T.env s t) :
    T.Reaches start (t, threads) :=
  .tail h (.env he)

/-- The thread that began last does its next action. -/
theorem Reaches.act {β : Type} {a : A β} {next : β → Prog A Unit} {b : β}
    (h : T.Reaches start (s, Function.update threads n (.runs (.act a next))))
    (he : T.eff n a s b t) : T.Reaches start (t, Function.update threads n (.runs (next b))) := by
  have hstep := Relation.ReflTransGen.tail h (.act (Function.update_self ..) he)
  rwa [Function.update_idem] at hstep

end Building

namespace Discipline

variable {T : Team ι A S} (D : T.Discipline)

/-- A step keeps the invariant and what is known of each thread. -/
theorem step {c c' : S × (ι → Thread A)} (h : T.Step c c') (hinv : D.inv c.1)
    (hknows : ∀ n, D.Knows n c.1 (c.2 n)) : D.inv c'.1 ∧ ∀ n, D.Knows n c'.1 (c'.2 n) := by
  cases h with
  | env h =>
    obtain ⟨hinv', hrely⟩ := D.env hinv h
    exact ⟨hinv', fun n => (hknows n).stable D (hrely n)⟩
  | @begins s threads n p hn h =>
    refine ⟨hinv, fun m => ?_⟩
    by_cases hm : m = n
    · subst hm
      have hbefore : D.Knows m s (threads m) := hknows m
      rw [hn] at hbefore
      simp only [Function.update_self]
      exact ⟨s, hinv, D.refl m s, D.begins hinv hbefore h⟩
    · simp only [Function.update_of_ne hm]
      exact hknows m
  | @act β a next s s' b threads n hn h =>
    have hrun : D.Knows n s (threads n) := hknows n
    rw [hn] at hrun
    obtain ⟨t, ht, hts, hallowed, hnext⟩ := hrun
    obtain ⟨hinv', hrely⟩ := D.act hinv (hallowed s hinv hts) h
    refine ⟨hinv', fun m => ?_⟩
    by_cases hm : m = n
    · subst hm
      simp only [Function.update_self]
      exact ⟨s', hinv', D.refl m s', hnext b s' ⟨s, hinv, hts, h, hinv'⟩⟩
    · simp only [Function.update_of_ne hm]
      exact (hknows m).stable D (hrely m hm)
  | @ends s threads n u hn =>
    refine ⟨hinv, fun m => ?_⟩
    by_cases hm : m = n
    · subst hm
      have hrun : D.Knows m s (threads m) := hknows m
      rw [hn] at hrun
      obtain ⟨t, ht, hts, hafter⟩ := hrun
      simp only [Function.update_self]
      exact D.after_stable hafter hts
    · simp only [Function.update_of_ne hm]
      exact hknows m

/-- The invariant holds in every state that is reached, and what is known of the threads. -/
theorem reaches {start : S} {c : S × (ι → Thread A)} (h : T.Reaches start c)
    (hinv : D.inv start) (hbefore : ∀ n, D.before n start) :
    D.inv c.1 ∧ ∀ n, D.Knows n c.1 (c.2 n) := by
  induction h with
  | refl => exact ⟨hinv, hbefore⟩
  | tail _ hstep ih => exact D.step hstep ih.1 ih.2

end Discipline

end Runs

end Team

end AgentHouse
