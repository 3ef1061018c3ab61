import Mathlib.Data.Finset.Basic
import Mathlib.Logic.Function.Basic
import Mathlib.Logic.Relation

/-!
# Threads that take mutexes

What a program does to mutexes, with its branches left open: a branch on data is
a choice, a loop runs any number of times, and a jump leaves a number of
enclosing blocks. Threads run such programs side by side and share the owners
of the mutexes.

A program is ordered when every mutex it takes is ranked above those it holds,
it lets go only of what it holds, and it holds nothing at the marked points. The
rule for a loop is that the body gives back what it found. Threads with ordered
programs never wait for each other in a circle.
-/

set_option autoImplicit false

namespace LockPrograms

inductive Program (M L I : Type*)
  | skip
  | lock (m : M)
  | unlock (m : M)
  | mark (l : L)
  | seq (p q : Program M L I)
  | alt (p q : Program M L I)
  | pick (f : I → Program M L I)
  | loop (p : Program M L I)
  | block (p : Program M L I)
  | exit (n : ℕ)

inductive Action (M L : Type*)
  | silent
  | lock (m : M)
  | unlock (m : M)
  | reach (l : L)

variable {M L I ι : Type*}

namespace Program

def sequence : List (Program M L I) → Program M L I
  | [] => skip
  | p::ps => seq p (sequence ps)

/-- A statement under an `if` without an `else`. -/
def may (p : Program M L I) : Program M L I := alt p skip

def holding (m : M) (p : Program M L I) : Program M L I := sequence [lock m,p,unlock m]

end Program

open Program

/-- What is left of a program after one action. -/
inductive Step : Program M L I → Action M L → Program M L I → Prop
  | lock (m : M) : Step (.lock m) (.lock m) skip
  | unlock (m : M) : Step (.unlock m) (.unlock m) skip
  | mark (l : L) : Step (.mark l) (.reach l) skip
  | seq {p p' : Program M L I} {a : Action M L} (q : Program M L I) (h : Step p a p') :
      Step (.seq p q) a (.seq p' q)
  | next (q : Program M L I) : Step (.seq skip q) .silent q
  | leave (n : ℕ) (q : Program M L I) : Step (.seq (exit n) q) .silent (exit n)
  | left (p q : Program M L I) : Step (alt p q) .silent p
  | right (p q : Program M L I) : Step (alt p q) .silent q
  | pick (f : I → Program M L I) (i : I) : Step (.pick f) .silent (f i)
  | stop (p : Program M L I) : Step (loop p) .silent skip
  | again (p : Program M L I) : Step (loop p) .silent (.seq p (loop p))
  | block {p p' : Program M L I} {a : Action M L} (h : Step p a p') :
      Step (.block p) a (.block p')
  | done : Step (.block skip) .silent skip
  | arrive : Step (.block (exit 0)) .silent skip
  | pass (n : ℕ) : Step (.block (exit (n+1))) .silent (exit n)

theorem notMem_of_above {rank : M → ℕ} {h : Finset M} {m : M}
    (hm : ∀ m' ∈ h, rank m' < rank m) : m ∉ h :=
  fun hmem => Nat.lt_irrefl _ (hm m hmem)

section Order

variable [DecidableEq M] (rank : M → ℕ)

def enter (Q : Finset M → Prop) (E : ℕ → Finset M → Prop) : ℕ → Finset M → Prop
  | 0 => Q
  | n+1 => E n

/-- `p`, started with `h` held, is ordered, meets `Q` where it ends and `E n`
where it leaves `n+1` enclosing blocks. -/
def Ordered : Program M L I → (Finset M → Prop) → (ℕ → Finset M → Prop) → Finset M → Prop
  | skip, Q, _, h => Q h
  | lock m, Q, _, h => (∀ m' ∈ h, rank m' < rank m) ∧ Q (insert m h)
  | unlock m, Q, _, h => m ∈ h ∧ Q (h.erase m)
  | mark _, Q, _, h => h = ∅ ∧ Q h
  | seq p q, Q, E, h => Ordered p (Ordered q Q E) E h
  | alt p q, Q, E, h => Ordered p Q E h ∧ Ordered q Q E h
  | pick f, Q, E, h => ∀ i, Ordered (f i) Q E h
  | loop p, Q, E, h => Q h ∧ Ordered p (· = h) E h
  | block p, Q, E, h => Ordered p Q (enter Q E) h
  | exit n, _, E, h => E n h

def Admitted (h : Finset M) : Action M L → Prop
  | .silent => True
  | .lock m => ∀ m' ∈ h, rank m' < rank m
  | .unlock m => m ∈ h
  | .reach _ => h = ∅

def after (h : Finset M) : Action M L → Finset M
  | .silent => h
  | .lock m => insert m h
  | .unlock m => h.erase m
  | .reach _ => h

variable {rank} {Q Q' : Finset M → Prop} {E E' : ℕ → Finset M → Prop} {h : Finset M}

theorem Ordered.mono (p : Program M L I) (hQ : ∀ h, Q h → Q' h) (hE : ∀ n h, E n h → E' n h)
    (hp : Ordered rank p Q E h) : Ordered rank p Q' E' h := by
  induction p generalizing Q Q' E E' h with
  | skip => exact hQ h hp
  | lock m => exact ⟨hp.1,hQ _ hp.2⟩
  | unlock m => exact ⟨hp.1,hQ _ hp.2⟩
  | mark l => exact ⟨hp.1,hQ _ hp.2⟩
  | seq p q ihp ihq => exact ihp (fun _ hq => ihq hQ hE hq) hE hp
  | alt p q ihp ihq => exact ⟨ihp hQ hE hp.1,ihq hQ hE hp.2⟩
  | pick f ih => exact fun i => ih i hQ hE (hp i)
  | loop p ih => exact ⟨hQ h hp.1,ih (fun _ heq => heq) hE hp.2⟩
  | block p ih =>
    refine ih hQ ?_ hp
    intro n h hn
    cases n with
    | zero => exact hQ h hn
    | succ n => exact hE n h hn
  | exit n => exact hE n h hp

theorem Ordered.step {p p' : Program M L I} {a : Action M L} (hstep : Step p a p')
    (hp : Ordered rank p Q E h) :
    Admitted rank h a ∧ Ordered rank p' Q E (after h a) := by
  induction hstep generalizing Q E with
  | lock m => exact hp
  | unlock m => exact hp
  | mark l => exact hp
  | seq q _ ih => exact ih hp
  | next q => exact ⟨trivial,hp⟩
  | leave n q => exact ⟨trivial,hp⟩
  | left p q => exact ⟨trivial,hp.1⟩
  | right p q => exact ⟨trivial,hp.2⟩
  | pick f i => exact ⟨trivial,hp i⟩
  | stop p => exact ⟨trivial,hp.1⟩
  | again p =>
    -- The body gives back what it found, so the loop may start over.
    refine ⟨trivial,hp.2.mono p ?_ fun _ _ he => he⟩
    rintro _ rfl
    exact hp
  | block _ ih => exact ih hp
  | done => exact ⟨trivial,hp⟩
  | arrive => exact ⟨trivial,hp⟩
  | pass n => exact ⟨trivial,hp⟩

/-- What `unlock` asks right after the `lock` of the same mutex. -/
theorem unlock_taken {m : M} (hm : m ∉ h) (hQ : Q h) :
    m ∈ insert m h ∧ Q ((insert m h).erase m) := by
  refine ⟨Finset.mem_insert_self m h,?_⟩
  rwa [Finset.erase_insert hm]

/-- A section that takes a mutex, runs without changing what is held, and lets
the mutex go. -/
theorem ordered_holding {m : M} {p : Program M L I} (hm : ∀ m' ∈ h, rank m' < rank m)
    (hp : Ordered rank p (· = insert m h) E (insert m h)) (hQ : Q h) :
    Ordered rank (holding m p) Q E h := by
  refine ⟨hm,hp.mono p ?_ fun _ _ he => he⟩
  rintro _ rfl
  exact unlock_taken (notMem_of_above hm) hQ

end Order

/-- The threads' programs as far as they are still to run, and who holds each
mutex. -/
structure State (M L I ι : Type*) where
  programs : ι → Program M L I
  owner : M → Option ι

def initial (programs : ι → Program M L I) : State M L I ι := ⟨programs,fun _ => none⟩

def Wants (s : State M L I ι) (t : ι) (m : M) : Prop := ∃ p, Step (s.programs t) (.lock m) p

def WaitsFor (s : State M L I ι) (t t' : ι) : Prop := ∃ m, Wants s t m ∧ s.owner m = some t'

def At (s : State M L I ι) (t : ι) (l : L) : Prop := ∃ p, Step (s.programs t) (.reach l) p

section Invariant

variable [DecidableEq M] {rank : M → ℕ} {s : State M L I ι}

def Finishing (rank : M → ℕ) (p : Program M L I) (h : Finset M) : Prop :=
  Ordered rank p (· = ∅) (fun _ _ => False) h

def Inv (rank : M → ℕ) (s : State M L I ι) : Prop :=
  ∃ held : ι → Finset M, (∀ t, Finishing rank (s.programs t) (held t)) ∧
    ∀ t m, s.owner m = some t ↔ m ∈ held t

theorem inv_initial {programs : ι → Program M L I} (hp : ∀ t, Finishing rank (programs t) ∅) :
    Inv rank (initial programs) :=
  ⟨fun _ => ∅,hp,fun _ _ => ⟨nofun,nofun⟩⟩

theorem wants_above (hi : Inv rank s) {t : ι} {m m' : M} (hw : Wants s t m)
    (hm : s.owner m' = some t) : rank m' < rank m := by
  obtain ⟨held,hp,hown⟩ := hi
  obtain ⟨p,hstep⟩ := hw
  exact ((hp t).step hstep).1 m' ((hown t m').mp hm)

theorem at_free (hi : Inv rank s) {t : ι} {l : L} (hl : At s t l) (m : M) :
    s.owner m ≠ some t := by
  obtain ⟨held,hp,hown⟩ := hi
  obtain ⟨p,hstep⟩ := hl
  have hempty : held t = ∅ := ((hp t).step hstep).1
  rw [ne_eq,hown,hempty]
  exact Finset.notMem_empty m

/-- Along a chain of waiting threads the mutexes climb. -/
theorem waiting_climbs (hi : Inv rank s) {t t' : ι} (hchain : Relation.TransGen (WaitsFor s) t t') :
    ∃ m m', Wants s t m ∧ s.owner m' = some t' ∧ rank m ≤ rank m' := by
  induction hchain with
  | single hwait =>
    obtain ⟨m,hw,hown⟩ := hwait
    exact ⟨m,m,hw,hown,le_rfl⟩
  | tail _ hwait ih =>
    obtain ⟨m,m',hw,hown,hle⟩ := ih
    obtain ⟨m'',hw'',hown''⟩ := hwait
    exact ⟨m,m'',hw,hown'',hle.trans (wants_above hi hw'' hown).le⟩

theorem no_circle (hi : Inv rank s) (t : ι) : ¬ Relation.TransGen (WaitsFor s) t t := by
  intro hchain
  obtain ⟨m,m',hw,hown,hle⟩ := waiting_climbs hi hchain
  exact absurd (wants_above hi hw hown) (not_lt_of_ge hle)

end Invariant

section Moves

variable [DecidableEq M] [DecidableEq ι]

def owners (t : ι) (owner : M → Option ι) : Action M L → M → Option ι
  | .lock m => Function.update owner m (some t)
  | .unlock m => Function.update owner m none
  | .silent | .reach _ => owner

/-- A mutex that somebody holds cannot be taken. -/
def Enabled (owner : M → Option ι) : Action M L → Prop
  | .lock m => owner m = none
  | _ => True

inductive Move (s : State M L I ι) : State M L I ι → Prop
  | mk (t : ι) (a : Action M L) (p : Program M L I) (hstep : Step (s.programs t) a p)
      (hfree : Enabled s.owner a) :
      Move s ⟨Function.update s.programs t p,owners t s.owner a⟩

variable {rank : M → ℕ} {s u : State M L I ι}

/-- The owners follow the held sets through one action. -/
theorem owners_after {owner : M → Option ι} {held : ι → Finset M} (t : ι) (a : Action M L)
    (hown : ∀ t m, owner m = some t ↔ m ∈ held t) (hfree : Enabled owner a)
    (hadm : Admitted rank (held t) a) (t' : ι) (m : M) :
    owners t owner a m = some t' ↔ m ∈ Function.update held t (after (held t) a) t' := by
  cases a with
  | silent => rw [after,Function.update_eq_self,owners,hown]
  | reach l => rw [after,Function.update_eq_self,owners,hown]
  | lock n =>
    have hnew : ∀ t, n ∉ held t := fun t hn => by
      simp only [Enabled,(hown t n).mpr hn,reduceCtorEq] at hfree
    by_cases hm : m = n <;> by_cases ht : t' = t
    · simp [owners,after,hm,ht]
    · simp [owners,after,hm,ht,Ne.symm ht,hnew t']
    · simp [owners,after,hm,ht,hown]
    · simp [owners,after,hm,ht,hown]
  | unlock n =>
    have hheld : owner n = some t := (hown t n).mpr hadm
    by_cases hm : m = n <;> by_cases ht : t' = t
    · simp [owners,after,hm,ht]
    · simp [owners,after,hm,ht,← hown,hheld,Ne.symm ht]
    · simp [owners,after,hm,ht,hown]
    · simp [owners,after,hm,ht,hown]

theorem inv_move (hi : Inv rank s) (hmove : Move s u) : Inv rank u := by
  obtain ⟨held,hp,hown⟩ := hi
  obtain ⟨t,a,p,hstep,hfree⟩ := hmove
  obtain ⟨hadm,hnext⟩ := (hp t).step hstep
  refine ⟨Function.update held t (after (held t) a),?_,owners_after t a hown hfree hadm⟩
  intro t'
  by_cases ht : t' = t
  · subst ht
    simp only [Function.update_self]
    exact hnext
  · simp only [Function.update_of_ne ht]
    exact hp t'

theorem inv_reachable {programs : ι → Program M L I} (hp : ∀ t, Finishing rank (programs t) ∅)
    (hs : Relation.ReflTransGen Move (initial programs) s) : Inv rank s := by
  induction hs with
  | refl => exact inv_initial hp
  | tail _ hmove ih => exact inv_move ih hmove

end Moves

end LockPrograms
