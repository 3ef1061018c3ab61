import Mathlib.Algebra.BigOperators.Group.List.Basic
import Mathlib.Algebra.Order.Monoid.Defs
import Mathlib.Data.List.Basic

/-!
# Queues laid out along running positions

Each entry of a queue starts at the position at which the entry before it
ends. What is asked of an entry may depend on its position.
-/

set_option autoImplicit false

namespace LaidOut

variable {α β : Type*}

/-- From the first position to the last one, each entry meets its condition
at its own position. -/
inductive Laid (next : β → α → β) (ok : β → α → Prop) : β → List α → β → Prop
  | nil (b : β) : Laid next ok b [] b
  | cons {b : β} {x : α} {xs : List α} {e : β} (hx : ok b x) (hxs : Laid next ok (next b x) xs e) :
      Laid next ok b (x::xs) e

variable {next : β → α → β} {ok ok' : β → α → Prop} {b e : β} {x : α} {xs : List α}

theorem laid_cons : Laid next ok b (x::xs) e ↔ ok b x ∧ Laid next ok (next b x) xs e :=
  ⟨fun h => by cases h with | cons hx hxs => exact ⟨hx,hxs⟩,fun h => .cons h.1 h.2⟩

/-- The end of a queue is found by walking it. -/
theorem Laid.foldl_eq (h : Laid next ok b xs e) : xs.foldl next b = e := by
  induction h with
  | nil b => rfl
  | cons hx hxs ih => exact ih

theorem laid_append {ys : List α} :
    Laid next ok b (xs++ys) e ↔ ∃ m, Laid next ok b xs m ∧ Laid next ok m ys e := by
  induction xs generalizing b with
  | nil =>
    constructor
    · exact fun h => ⟨b,.nil b,h⟩
    · rintro ⟨m,hxs,hys⟩
      cases hxs
      exact hys
  | cons x xs ih =>
    rw [List.cons_append,laid_cons,ih]
    constructor
    · rintro ⟨hx,m,hxs,hys⟩
      exact ⟨m,.cons hx hxs,hys⟩
    · rintro ⟨m,hxs,hys⟩
      obtain ⟨hx,hxs⟩ := laid_cons.mp hxs
      exact ⟨hx,m,hxs,hys⟩

/-- A new entry is laid at the end. -/
theorem Laid.concat (h : Laid next ok b xs e) (hx : ok e x) :
    Laid next ok b (xs++[x]) (next e x) := by
  induction h with
  | nil b => exact .cons hx (.nil _)
  | cons hy hys ih => exact .cons hy (ih hx)

/-- What every entry meets at its position. -/
theorem Laid.forall_mem {P : α → Prop} (h : Laid next ok b xs e) (himp : ∀ b x, ok b x → P x) :
    ∀ x ∈ xs, P x := by
  induction h with
  | nil b => simp
  | cons hx hxs ih => exact List.forall_mem_cons.mpr ⟨himp _ _ hx,ih⟩

/-- A condition that follows for the entries of the queue. -/
theorem Laid.imp (h : Laid next ok b xs e)
    (himp : ∀ b x, x ∈ xs → ok b x → ok' b x) : Laid next ok' b xs e := by
  induction h with
  | nil b => exact .nil b
  | cons hx hxs ih =>
    exact .cons (himp _ _ List.mem_cons_self hx)
      (ih fun b x hmem => himp b x (List.mem_cons_of_mem _ hmem))

/-- The same where a position that only grows says which entries come first. -/
theorem Laid.imp_of_measure (f : β → ℕ) (hf : ∀ b x, f b ≤ f (next b x)) (h : Laid next ok b xs e)
    (himp : ∀ c x, x ∈ xs → f b ≤ f c → f (next c x) ≤ f e → ok c x → ok' c x) :
    Laid next ok' b xs e := by
  have hle : ∀ (xs : List α) (b : β), Laid next ok b xs e → f b ≤ f e := by
    intro xs
    induction xs with
    | nil =>
      intro b h
      cases h
      exact Nat.le_refl _
    | cons x xs ih =>
      intro b h
      exact Nat.le_trans (hf b x) (ih _ (laid_cons.mp h).2)
  induction h with
  | nil b => exact .nil b
  | cons hx hxs ih =>
    refine .cons (himp _ _ List.mem_cons_self (Nat.le_refl _) (hle _ _ hxs) hx) (ih (fun c x hmem hbc => ?_) hle)
    exact himp c x (List.mem_cons_of_mem _ hmem) (Nat.le_trans (hf _ _) hbc)

/-- What the entries weigh is bounded by what a potential has gained. -/
theorem Laid.add_sum_le {M : Type*} [AddCommMonoid M] [PartialOrder M] [IsOrderedAddMonoid M]
    (potential : β → M) (weight : α → M) (h : Laid next ok b xs e)
    (hweight : ∀ b, ∀ x ∈ xs, ok b x → potential b+weight x ≤ potential (next b x)) :
    potential b+(xs.map weight).sum ≤ potential e := by
  induction h with
  | nil b => simp
  | @cons b x xs e hx hxs ih =>
    rw [List.map_cons,List.sum_cons,← add_assoc]
    calc potential b+weight x+(xs.map weight).sum
        ≤ potential (next b x)+(xs.map weight).sum :=
          add_le_add_left (hweight b x List.mem_cons_self hx) _
      _ ≤ potential e := ih fun b y hy => hweight b y (List.mem_cons_of_mem _ hy)

end LaidOut
