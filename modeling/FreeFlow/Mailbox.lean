import Mathlib.Logic.Function.Basic
import Mathlib.Logic.Relation
import Mathlib.Data.List.Basic

/-!
# One-slot mailbox with a three-valued flag

Any number of clients share one slot with one server. A client takes the
lock, stores its request word by word, raises the flag, waits for the
answer, fetches the response word by word, lowers the flag and leaves. The
server looks at the flag, reads request words, may overwrite request words
in place, executes the request, stores the response and sets the flag.
Every load and every store is one step, and steps interleave freely.

A service supplies the words a call stores, the response cells a client
fetches and the answers a server may give. The protocol theorem says that
the history of a sound service is a sequence of complete exchanges followed
by at most one exchange in progress.
-/

set_option autoImplicit false

namespace Mailbox

variable {T C A W R : Type*}

section Stores

variable [DecidableEq A]

/-- The memory after a list of stores in program order. -/
def storeAll (m : A → W) : List (A × W) → A → W
  | [] => m
  | x::xs => storeAll (Function.update m x.1 x.2) xs

/-- The last value a list of stores leaves in a cell. -/
def value : List (A × W) → A → Option W
  | [], _ => none
  | x::xs, a => (value xs a).or (if a = x.1 then some x.2 else none)

theorem storeAll_append (m : A → W) (xs ys : List (A × W)) :
    storeAll m (xs++ys) = storeAll (storeAll m xs) ys := by
  induction xs generalizing m with
  | nil => rfl
  | cons x xs ih => exact ih _

theorem storeAll_value (m : A → W) (xs : List (A × W)) (a : A) :
    storeAll m xs a = (value xs a).getD (m a) := by
  induction xs generalizing m with
  | nil => rfl
  | cons x xs ih =>
    rw [storeAll, ih, value]
    cases value xs a with
    | some w => rfl
    | none => by_cases h : a = x.1 <;> simp [h]

theorem value_append (xs ys : List (A × W)) (a : A) :
    value (xs++ys) a = (value ys a).or (value xs a) := by
  induction xs with
  | nil => simp [value]
  | cons x xs ih => rw [List.cons_append,value,ih,Option.or_assoc,value]

theorem storeAll_of_value (m : A → W) (xs : List (A × W)) (a : A) (w : W)
    (h : value xs a = some w) : storeAll m xs a = w := by
  rw [storeAll_value, h]
  rfl

theorem mem_of_value (xs : List (A × W)) (a : A) (w : W) (h : value xs a = some w) :
    (a,w) ∈ xs := by
  induction xs with
  | nil => simp [value] at h
  | cons x xs ih =>
    rw [value,Option.or_eq_some_iff] at h
    rcases h with h | ⟨-,h⟩
    · exact List.mem_cons_of_mem x (ih h)
    · rw [Option.ite_none_right_eq_some,Option.some.injEq] at h
      obtain ⟨rfl,rfl⟩ := h
      exact List.mem_cons_self

end Stores

inductive Flag
  | idle
  | requested
  | answered
  deriving DecidableEq

/-- What the two sides of a slot do apart from the flag. `next` names the
response cell a client fetches after the words it already has, `resets` says
whether it lowers the flag before it leaves. `answers` relates the words a
server has read to the executions they allow, `reply` lists the response
stores of an execution and `drops` the requests acknowledged unexecuted. -/
structure Service (C A W R : Type*) where
  stores : C → List (A × W)
  next : C → List W → Option A
  resets : C → List W → Bool
  answers : List (A × W) → R → Prop
  reply : R → List (A × W)
  drops : List (A × W) → Prop

inductive Phase (C A W : Type*)
  | out
  | storing (c : C) (left : List (A × W))
  | looking (c : C)
  | raising (c : C)
  | fetching (c : C) (got : List W)
  | clearing (c : C) (got : List W)
  | leaving (c : C) (got : List W)

inductive Server (A W : Type*)
  | scanning
  | serving (seen : List (A × W)) (own : List A)
  | writing (left : List (A × W))
  | closing
  | faulted

inductive Event (T C A W R : Type*)
  | enter (t : T) (c : C)
  | submit (t : T) (c : C)
  | exec (seen : List (A × W)) (r : R)
  | back (t : T) (c : C) (got : List W)

structure State (T C A W R : Type*) where
  flag : Flag
  req : A → W
  rsp : A → W
  lock : Option T
  client : T → Phase C A W
  server : Server A W
  hist : List (Event T C A W R)

def start (req rsp : A → W) : State T C A W R :=
  ⟨.idle,req,rsp,none,fun _ => .out,.scanning,[]⟩

section Protocol

variable [DecidableEq T] [DecidableEq A]

def State.move (s : State T C A W R) (t : T) (p : Phase C A W) : State T C A W R :=
  {s with client := Function.update s.client t p}

def State.log (s : State T C A W R) (e : Event T C A W R) : State T C A W R :=
  {s with hist := s.hist++[e]}

/-- One load, one store or one lock operation of a client or of the server. -/
inductive Step (S : Service C A W R) : State T C A W R → State T C A W R → Prop
  | acquire (s : State T C A W R) (t : T) (c : C) :
      s.lock = none → s.client t = .out →
      Step S s ({s with lock := some t}.move t (.storing c (S.stores c)) |>.log (.enter t c))
  | store (s : State T C A W R) (t : T) (c : C) (a : A) (w : W) (left : List (A × W)) :
      s.client t = .storing c ((a,w)::left) →
      Step S s ({s with req := Function.update s.req a w}.move t (.storing c left))
  | stored (s : State T C A W R) (t : T) (c : C) :
      s.client t = .storing c [] → Step S s (s.move t (.looking c))
  | lookIdle (s : State T C A W R) (t : T) (c : C) :
      s.client t = .looking c → s.flag = .idle → Step S s (s.move t (.raising c))
  | lookRequested (s : State T C A W R) (t : T) (c : C) :
      s.client t = .looking c → s.flag = .requested → Step S s s
  | lookAnswered (s : State T C A W R) (t : T) (c : C) :
      s.client t = .looking c → s.flag = .answered → Step S s (s.move t (.fetching c []))
  | raise (s : State T C A W R) (t : T) (c : C) :
      s.client t = .raising c →
      Step S s ({s with flag := .requested}.move t (.looking c) |>.log (.submit t c))
  | fetch (s : State T C A W R) (t : T) (c : C) (got : List W) (a : A) :
      s.client t = .fetching c got → S.next c got = some a →
      Step S s (s.move t (.fetching c (got++[s.rsp a])))
  | fetched (s : State T C A W R) (t : T) (c : C) (got : List W) :
      s.client t = .fetching c got → S.next c got = none →
      Step S s (s.move t (if S.resets c got then .clearing c got else .leaving c got))
  | clear (s : State T C A W R) (t : T) (c : C) (got : List W) :
      s.client t = .clearing c got →
      Step S s ({s with flag := .idle}.move t (.leaving c got))
  | leave (s : State T C A W R) (t : T) (c : C) (got : List W) :
      s.client t = .leaving c got →
      Step S s ({s with lock := none}.move t .out |>.log (.back t c got))
  | notice (s : State T C A W R) :
      s.server = .scanning → s.flag = .requested → Step S s {s with server := .serving [] []}
  | read (s : State T C A W R) (seen : List (A × W)) (own : List A) (a : A) :
      s.server = .serving seen own → a ∉ own →
      Step S s {s with server := .serving (seen++[(a,s.req a)]) own}
  | fixup (s : State T C A W R) (seen : List (A × W)) (own : List A) (a : A) (w : W) :
      s.server = .serving seen own →
      Step S s {s with req := Function.update s.req a w, server := .serving seen (a::own)}
  | exec (s : State T C A W R) (seen : List (A × W)) (own : List A) (r : R) :
      s.server = .serving seen own → S.answers seen r →
      Step S s ({s with server := .writing (S.reply r)}.log (.exec seen r))
  | drop (s : State T C A W R) (seen : List (A × W)) (own : List A) :
      s.server = .serving seen own → S.drops seen → Step S s {s with server := .closing}
  | skip (s : State T C A W R) (seen : List (A × W)) :
      s.server = .serving seen [] → Step S s {s with server := .scanning}
  | fault (s : State T C A W R) (seen : List (A × W)) (own : List A) :
      s.server = .serving seen own → Step S s {s with server := .faulted}
  | write (s : State T C A W R) (a : A) (w : W) (left : List (A × W)) :
      s.server = .writing ((a,w)::left) →
      Step S s {s with rsp := Function.update s.rsp a w, server := .writing left}
  | written (s : State T C A W R) :
      s.server = .writing [] → Step S s {s with server := .closing}
  | close (s : State T C A W R) :
      s.server = .closing → Step S s {s with flag := .answered, server := .scanning}

def Reachable (S : Service C A W R) (s : State T C A W R) : Prop :=
  ∃ req rsp : A → W, Relation.ReflTransGen (Step S) (start req rsp) s

end Protocol

section Exchanges

variable [DecidableEq A]

/-- The words read are those of a memory in which the call has made all its
stores. -/
def Reads (S : Service C A W R) (c : C) (seen : List (A × W)) : Prop :=
  ∃ m : A → W, ∀ x ∈ seen, x.2 = storeAll m (S.stores c) x.1

/-- The words a client has fetched are those of the reply, cell by cell. -/
inductive Follows (S : Service C A W R) (c : C) (r : List (A × W)) : List W → Prop
  | nil : Follows S c r []
  | snoc (got : List W) (a : A) (w : W) : Follows S c r got → S.next c got = some a →
      value r a = some w → Follows S c r (got++[w])

/-- A service is sound when no request of a call is dropped, when a client
fetches only cells its reply has filled and when it always lowers the flag. -/
structure Sound (S : Service C A W R) : Prop where
  kept : ∀ c seen, Reads S c seen → ¬S.drops seen
  filled : ∀ c seen r got a, Reads S c seen → S.answers seen r → Follows S c (S.reply r) got →
    S.next c got = some a → ∃ w, value (S.reply r) a = some w
  resets : ∀ c seen r got, Reads S c seen → S.answers seen r → Follows S c (S.reply r) got →
    S.next c got = none → S.resets c got = true

/-- A call from its entry to its return. -/
structure Exchange (T C A W R : Type*) where
  thread : T
  call : C
  seen : List (A × W)
  result : R
  got : List W

def Exchange.events (x : Exchange T C A W R) : List (Event T C A W R) :=
  [.enter x.thread x.call,.submit x.thread x.call,.exec x.seen x.result,
    .back x.thread x.call x.got]

structure Exchange.Valid (S : Service C A W R) (x : Exchange T C A W R) : Prop where
  reads : Reads S x.call x.seen
  answers : S.answers x.seen x.result
  follows : Follows S x.call (S.reply x.result) x.got
  complete : S.next x.call x.got = none

/-- The phases through which the holder of the lock and the server pass
together, with the part of the exchange already in the history. -/
inductive Stage (S : Service C A W R) (t : T) (req rsp : A → W) :
    Phase C A W → Flag → Server A W → List (Event T C A W R) → Prop
  | storing (c : C) (done left : List (A × W)) (m : A → W) :
      S.stores c = done++left → req = storeAll m done →
      Stage S t req rsp (.storing c left) .idle .scanning [.enter t c]
  | ready (c : C) (m : A → W) : req = storeAll m (S.stores c) →
      Stage S t req rsp (.looking c) .idle .scanning [.enter t c]
  | raising (c : C) (m : A → W) : req = storeAll m (S.stores c) →
      Stage S t req rsp (.raising c) .idle .scanning [.enter t c]
  | waiting (c : C) (m : A → W) : req = storeAll m (S.stores c) →
      Stage S t req rsp (.looking c) .requested .scanning [.enter t c,.submit t c]
  | serving (c : C) (seen : List (A × W)) (own : List A) (m : A → W) :
      (∀ x ∈ seen, x.2 = storeAll m (S.stores c) x.1) →
      (∀ a, a ∉ own → req a = storeAll m (S.stores c) a) →
      Stage S t req rsp (.looking c) .requested (.serving seen own) [.enter t c,.submit t c]
  | faulted (c : C) :
      Stage S t req rsp (.looking c) .requested .faulted [.enter t c,.submit t c]
  | writing (c : C) (seen done left : List (A × W)) (r : R) (m : A → W) : Reads S c seen →
      S.answers seen r → S.reply r = done++left → rsp = storeAll m done →
      Stage S t req rsp (.looking c) .requested (.writing left)
        [.enter t c,.submit t c,.exec seen r]
  | closing (c : C) (seen : List (A × W)) (r : R) (m : A → W) : Reads S c seen →
      S.answers seen r → rsp = storeAll m (S.reply r) →
      Stage S t req rsp (.looking c) .requested .closing
        [.enter t c,.submit t c,.exec seen r]
  | answered (c : C) (seen : List (A × W)) (r : R) (m : A → W) : Reads S c seen →
      S.answers seen r → rsp = storeAll m (S.reply r) →
      Stage S t req rsp (.looking c) .answered .scanning
        [.enter t c,.submit t c,.exec seen r]
  | fetching (c : C) (seen : List (A × W)) (r : R) (m : A → W) (got : List W) : Reads S c seen →
      S.answers seen r → rsp = storeAll m (S.reply r) → Follows S c (S.reply r) got →
      Stage S t req rsp (.fetching c got) .answered .scanning
        [.enter t c,.submit t c,.exec seen r]
  | clearing (x : Exchange T C A W R) : x.thread = t → x.Valid S →
      Stage S t req rsp (.clearing x.call x.got) .answered .scanning
        [.enter t x.call,.submit t x.call,.exec x.seen x.result]
  | leaving (x : Exchange T C A W R) : x.thread = t → x.Valid S →
      Stage S t req rsp (.leaving x.call x.got) .idle .scanning
        [.enter t x.call,.submit t x.call,.exec x.seen x.result]

/-- The slot is free, or its holder and the server are in some stage. -/
inductive Current (S : Service C A W R) (s : State T C A W R) : List (Event T C A W R) → Prop
  | free : s.lock = none → (∀ t, s.client t = .out) → s.flag = .idle →
      s.server = .scanning → Current S s []
  | held (t : T) (p : Phase C A W) (rest : List (Event T C A W R)) : s.lock = some t →
      (∀ u, u ≠ t → s.client u = .out) → s.client t = p →
      Stage S t s.req s.rsp p s.flag s.server rest → Current S s rest

/-- An exchange in progress: it may have been executed, its caller has not
returned. -/
inductive Begun : List (Event T C A W R) → Prop
  | none : Begun []
  | entered (t : T) (c : C) : Begun [.enter t c]
  | submitted (t : T) (c : C) : Begun [.enter t c,.submit t c]
  | executed (t : T) (c : C) (seen : List (A × W)) (r : R) :
      Begun [.enter t c,.submit t c,.exec seen r]

theorem Stage.begun {S : Service C A W R} {t : T} {req rsp : A → W} {p : Phase C A W} {f : Flag}
    {sv : Server A W} {rest : List (Event T C A W R)} (h : Stage S t req rsp p f sv rest) :
    Begun rest := by
  cases h with
  | storing | ready | raising => exact .entered ..
  | waiting | serving | faulted => exact .submitted ..
  | writing | closing | answered | fetching | clearing | leaving => exact .executed ..

theorem Current.begun {S : Service C A W R} {s : State T C A W R} {rest : List (Event T C A W R)}
    (h : Current S s rest) : Begun rest := by
  cases h with
  | free => exact .none
  | held t p rest _ _ _ hstage => exact hstage.begun

def Inv (S : Service C A W R) (s : State T C A W R) : Prop :=
  ∃ (xs : List (Exchange T C A W R)) (rest : List (Event T C A W R)),
    (∀ x ∈ xs, x.Valid S) ∧ s.hist = xs.flatMap Exchange.events++rest ∧ Current S s rest

variable {S : Service C A W R} {s s' : State T C A W R}

theorem Inv.advance (h : Inv S s) (hist : s'.hist = s.hist)
    (hcur : ∀ rest, Current S s rest → Current S s' rest) : Inv S s' := by
  obtain ⟨xs,rest,hx,hh,hc⟩ := h
  exact ⟨xs,rest,hx,hist.trans hh,hcur rest hc⟩

theorem Inv.advance_log (h : Inv S s) (e : Event T C A W R) (hist : s'.hist = s.hist++[e])
    (hcur : ∀ rest, Current S s rest → Current S s' (rest++[e])) : Inv S s' := by
  obtain ⟨xs,rest,hx,hh,hc⟩ := h
  exact ⟨xs,rest++[e],hx,by rw [hist,hh,List.append_assoc],hcur rest hc⟩

theorem Current.of_client {rest : List (Event T C A W R)} (h : Current S s rest) (t : T)
    (p : Phase C A W) (hp : s.client t = p) (hout : p ≠ .out) :
    s.lock = some t ∧ (∀ u, u ≠ t → s.client u = .out) ∧
      Stage S t s.req s.rsp p s.flag s.server rest := by
  cases h with
  | free _ hall => exact absurd ((hp.symm.trans (hall t))) hout
  | held u q rest hlock hothers hq hstage =>
    have htu : t = u := by
      by_contra hne
      exact hout (hp.symm.trans (hothers t hne))
    subst htu
    rw [hp] at hq
    subst hq
    exact ⟨hlock,hothers,hstage⟩

theorem Current.of_server {rest : List (Event T C A W R)} (h : Current S s rest)
    (hbusy : s.server ≠ .scanning ∨ s.flag = .requested) :
    ∃ t, s.lock = some t ∧ (∀ u, u ≠ t → s.client u = .out) ∧
      Stage S t s.req s.rsp (s.client t) s.flag s.server rest := by
  cases h with
  | free _ _ hflag hserver => simp [hflag,hserver] at hbusy
  | held t p rest hlock hothers hp hstage =>
    subst hp
    exact ⟨t,hlock,hothers,hstage⟩

/-- The holder moves to its next phase. -/
theorem Current.moved [DecidableEq T] {rest : List (Event T C A W R)} (t : T) (p : Phase C A W)
    (hlock : s'.lock = some t) (hclient : s'.client = Function.update s.client t p)
    (hothers : ∀ u, u ≠ t → s.client u = .out)
    (hstage : Stage S t s'.req s'.rsp p s'.flag s'.server rest) : Current S s' rest := by
  refine .held t p rest hlock ?_ (by rw [hclient,Function.update_self]) hstage
  intro u hu
  rw [hclient,Function.update_of_ne hu]
  exact hothers u hu

/-- A client's step keeps the invariant if its next phase is a stage
whenever its present phase is one. -/
theorem Inv.client_step [DecidableEq T] (h : Inv S s) (t : T) (p q : Phase C A W) (hp : s.client t = p)
    (hout : p ≠ .out) (hhist : s'.hist = s.hist) (hlock : s'.lock = s.lock)
    (hclient : s'.client = Function.update s.client t q)
    (hstage : ∀ rest, Stage S t s.req s.rsp p s.flag s.server rest →
      Stage S t s'.req s'.rsp q s'.flag s'.server rest) : Inv S s' := by
  refine h.advance hhist fun rest hc => ?_
  obtain ⟨hl,ho,hs⟩ := hc.of_client t p hp hout
  exact .moved t q (hlock.trans hl) hclient ho (hstage rest hs)

/-- A server's step keeps the invariant if it carries stages to stages. -/
theorem Inv.server_step (h : Inv S s) (hbusy : s.server ≠ .scanning ∨ s.flag = .requested)
    (hhist : s'.hist = s.hist) (hlock : s'.lock = s.lock) (hclient : s'.client = s.client)
    (hstage : ∀ (t : T) p rest, Stage S t s.req s.rsp p s.flag s.server rest →
      Stage S t s'.req s'.rsp p s'.flag s'.server rest) : Inv S s' := by
  refine h.advance hhist fun rest hc => ?_
  obtain ⟨t,hl,ho,hs⟩ := hc.of_server hbusy
  exact .held t (s.client t) rest (hlock.trans hl) (by rwa [hclient]) (by rw [hclient])
    (hstage t _ rest hs)

theorem storeAll_snoc (m : A → W) (xs : List (A × W)) (a : A) (w : W) :
    Function.update (storeAll m xs) a w = storeAll m (xs++[(a,w)]) :=
  (storeAll_append m xs [(a,w)]).symm

/-- The word at each position was fetched from the cell the client was then
at. -/
theorem Follows.get {c : C} {r : List (A × W)} {got : List W} (h : Follows S c r got)
    (i : ℕ) (hi : i < got.length) :
    ∃ a, S.next c (got.take i) = some a ∧ value r a = some got[i] := by
  induction h with
  | nil => simp at hi
  | snoc got a w hgot hnext hval ih =>
    rw [List.length_append,List.length_singleton] at hi
    by_cases hlt : i < got.length
    · obtain ⟨b,hb,hv⟩ := ih hlt
      exact ⟨b,by rwa [List.take_append_of_le_length (Nat.le_of_lt hlt)],
        by rwa [List.getElem_append_left hlt]⟩
    · obtain rfl : i = got.length := by omega
      exact ⟨a,by simpa using hnext,by simpa using hval⟩

end Exchanges
section Stages

variable [DecidableEq A] {S : Service C A W R} {t : T} {c : C} {req rsp : A → W}
variable {p : Phase C A W} {f : Flag} {sv : Server A W} {rest : List (Event T C A W R)}

theorem Stage.store {a : A} {w : W} {left : List (A × W)}
    (h : Stage S t req rsp (.storing c ((a,w)::left)) f sv rest) :
    Stage S t (Function.update req a w) rsp (.storing c left) f sv rest := by
  cases h with
  | storing _ done _ m hstores hreq =>
    subst hreq
    rw [storeAll_snoc]
    exact .storing c (done++[(a,w)]) left m (by simp [hstores]) rfl

theorem Stage.stored (h : Stage S t req rsp (.storing c []) f sv rest) :
    Stage S t req rsp (.looking c) f sv rest := by
  cases h with
  | storing _ done _ m hstores hreq =>
    rw [List.append_nil] at hstores
    exact .ready c m (hstores ▸ hreq)

theorem Stage.lookIdle (h : Stage S t req rsp (.looking c) .idle sv rest) :
    Stage S t req rsp (.raising c) .idle sv rest := by
  cases h with
  | ready _ m hreq => exact .raising c m hreq

theorem Stage.lookAnswered (h : Stage S t req rsp (.looking c) .answered sv rest) :
    Stage S t req rsp (.fetching c []) .answered sv rest := by
  cases h with
  | answered _ seen r m hseen hr hrsp => exact .fetching c seen r m [] hseen hr hrsp .nil

theorem Stage.raise (h : Stage S t req rsp (.raising c) f sv rest) :
    Stage S t req rsp (.looking c) .requested sv (rest++[.submit t c]) := by
  cases h with
  | raising _ m hreq => exact .waiting c m hreq

theorem Stage.fetch (hS : Sound S) {got : List W} {a : A}
    (h : Stage S t req rsp (.fetching c got) f sv rest) (hnext : S.next c got = some a) :
    Stage S t req rsp (.fetching c (got++[rsp a])) f sv rest := by
  cases h with
  | fetching _ seen r m _ hseen hr hrsp hgot =>
    obtain ⟨w,hw⟩ := hS.filled c seen r got a hseen hr hgot hnext
    have hval : rsp a = w := by rw [hrsp,storeAll_of_value m _ a w hw]
    rw [hval]
    exact .fetching c seen r m _ hseen hr hrsp (.snoc got a w hgot hnext hw)

theorem Stage.fetched (hS : Sound S) {got : List W}
    (h : Stage S t req rsp (.fetching c got) f sv rest) (hnext : S.next c got = none) :
    Stage S t req rsp (if S.resets c got then .clearing c got else .leaving c got) f sv
      rest := by
  cases h with
  | fetching _ seen r m _ hseen hr hrsp hgot =>
    rw [if_pos (hS.resets c seen r got hseen hr hgot hnext)]
    exact .clearing ⟨t,c,seen,r,got⟩ rfl ⟨hseen,hr,hgot,hnext⟩

theorem Stage.clear {got : List W} (h : Stage S t req rsp (.clearing c got) f sv rest) :
    Stage S t req rsp (.leaving c got) .idle sv rest := by
  cases h with
  | clearing x ht hx => exact .leaving x ht hx

theorem Stage.leave {got : List W} (h : Stage S t req rsp (.leaving c got) f sv rest) :
    f = .idle ∧ sv = .scanning ∧ ∃ x : Exchange T C A W R, x.Valid S ∧
      x.events = rest++[.back t c got] := by
  cases h with
  | leaving x ht hx =>
    subst ht
    exact ⟨rfl,rfl,x,hx,rfl⟩

theorem Stage.notice (h : Stage S t req rsp p .requested .scanning rest) :
    Stage S t req rsp p .requested (.serving [] []) rest := by
  cases h with
  | waiting c m hreq =>
    exact .serving c [] [] m (by simp) fun a _ => by rw [hreq]

theorem Stage.read {seen : List (A × W)} {own : List A} {a : A}
    (h : Stage S t req rsp p f (.serving seen own) rest) (ha : a ∉ own) :
    Stage S t req rsp p f (.serving (seen++[(a,req a)]) own) rest := by
  cases h with
  | serving c _ _ m hseen hreq =>
    refine .serving c _ own m ?_ hreq
    intro x hx
    rcases List.mem_append.mp hx with hx | hx
    · exact hseen x hx
    · obtain rfl := List.mem_singleton.mp hx
      exact hreq a ha

theorem Stage.fixup {seen : List (A × W)} {own : List A} {a : A} {w : W}
    (h : Stage S t req rsp p f (.serving seen own) rest) :
    Stage S t (Function.update req a w) rsp p f (.serving seen (a::own)) rest := by
  cases h with
  | serving c _ _ m hseen hreq =>
    refine .serving c seen (a::own) m hseen ?_
    intro b hb
    rw [List.mem_cons,not_or] at hb
    rw [Function.update_of_ne hb.1]
    exact hreq b hb.2

theorem Stage.exec {seen : List (A × W)} {r : R} {own : List A}
    (h : Stage S t req rsp p f (.serving seen own) rest) (hr : S.answers seen r) :
    Stage S t req rsp p f (.writing (S.reply r)) (rest++[.exec seen r]) := by
  cases h with
  | serving c _ _ m hseen => exact .writing c seen [] _ r rsp ⟨m,hseen⟩ hr rfl rfl

theorem Stage.drop (hS : Sound S) {seen : List (A × W)} {own : List A}
    (h : Stage S t req rsp p f (.serving seen own) rest) : ¬S.drops seen := by
  cases h with
  | serving c _ _ m hseen => exact hS.kept c seen ⟨m,hseen⟩

theorem Stage.skip {seen : List (A × W)}
    (h : Stage S t req rsp p f (.serving seen []) rest) :
    Stage S t req rsp p f .scanning rest := by
  cases h with
  | serving c _ _ m hseen hreq => exact .waiting c m (funext fun a => hreq a (by simp))

theorem Stage.fault {seen : List (A × W)} {own : List A}
    (h : Stage S t req rsp p f (.serving seen own) rest) :
    Stage S t req rsp p f .faulted rest := by
  cases h with
  | serving c => exact .faulted c

theorem Stage.write {a : A} {w : W} {left : List (A × W)}
    (h : Stage S t req rsp p f (.writing ((a,w)::left)) rest) :
    Stage S t req (Function.update rsp a w) p f (.writing left) rest := by
  cases h with
  | writing c seen done _ r m hseen hr hreply hrsp =>
    subst hrsp
    rw [storeAll_snoc]
    exact .writing c seen _ left r m hseen hr (by simp [hreply]) rfl

theorem Stage.written (h : Stage S t req rsp p f (.writing []) rest) :
    Stage S t req rsp p f .closing rest := by
  cases h with
  | writing c seen done _ r m hseen hr hreply hrsp =>
    rw [List.append_nil] at hreply
    exact .closing c seen r m hseen hr (hreply ▸ hrsp)

theorem Stage.close (h : Stage S t req rsp p f .closing rest) :
    Stage S t req rsp p .answered .scanning rest := by
  cases h with
  | closing c seen r m hseen hr hrsp => exact .answered c seen r m hseen hr hrsp

end Stages

section Preservation

variable [DecidableEq T] [DecidableEq A] {S : Service C A W R} {s s' : State T C A W R}

theorem inv_leave (hI : Inv S s) (t : T) (c : C) (got : List W)
    (hp : s.client t = .leaving c got) :
    Inv S ({s with lock := none}.move t .out |>.log (.back t c got)) := by
  obtain ⟨xs,rest,hx,hh,hc⟩ := hI
  obtain ⟨-,hothers,hs⟩ := hc.of_client t _ hp (by simp)
  obtain ⟨hflag,hserver,x,hvalid,hevents⟩ := hs.leave
  refine ⟨xs++[x],[],?_,?_,.free rfl ?_ hflag hserver⟩
  · intro y hy
    rcases List.mem_append.mp hy with hy | hy
    · exact hx y hy
    · exact List.mem_singleton.mp hy ▸ hvalid
  · simp [State.log,State.move,hh,hevents]
  · intro u
    by_cases hu : u = t
    · simp [State.log,State.move,hu]
    · simpa [State.log,State.move,hu] using hothers u hu

theorem inv_step (hS : Sound S) (hI : Inv S s) (hstep : Step S s s') : Inv S s' := by
  cases hstep with
  | acquire t c hlock hout =>
    refine hI.advance_log (.enter t c) rfl fun rest hc => ?_
    cases hc with
    | free _ hall hflag hserver =>
      refine .moved t (.storing c (S.stores c)) rfl rfl (fun u _ => hall u) ?_
      simp only [State.log,State.move,hflag,hserver]
      exact .storing c [] (S.stores c) s.req rfl rfl
    | held u p rest hl => exact absurd (hl.symm.trans hlock) (by simp)
  | store t c a w left hp =>
    exact hI.client_step t _ _ hp (by simp) rfl rfl rfl fun _ hs => hs.store
  | stored t c hp => exact hI.client_step t _ _ hp (by simp) rfl rfl rfl fun _ hs => hs.stored
  | lookIdle t c hp hf =>
    refine hI.client_step t _ (.raising c) hp (by simp) rfl rfl rfl fun _ hs => ?_
    rw [hf] at hs
    simpa only [State.move,hf] using hs.lookIdle
  | lookRequested t c hp hf => exact hI
  | lookAnswered t c hp hf =>
    refine hI.client_step t _ (.fetching c []) hp (by simp) rfl rfl rfl fun _ hs => ?_
    rw [hf] at hs
    simpa only [State.move,hf] using hs.lookAnswered
  | raise t c hp =>
    refine hI.advance_log (.submit t c) rfl fun rest hc => ?_
    obtain ⟨hl,ho,hs⟩ := hc.of_client t _ hp (by simp)
    exact .moved t (.looking c) hl rfl ho hs.raise
  | fetch t c got a hp hn =>
    exact hI.client_step t _ _ hp (by simp) rfl rfl rfl fun _ hs => hs.fetch hS hn
  | fetched t c got hp hn =>
    exact hI.client_step t _ _ hp (by simp) rfl rfl rfl fun _ hs => hs.fetched hS hn
  | clear t c got hp => exact hI.client_step t _ _ hp (by simp) rfl rfl rfl fun _ hs => hs.clear
  | leave t c got hp => exact inv_leave hI t c got hp
  | notice hsv hf =>
    refine hI.server_step (.inr hf) rfl rfl rfl fun t p rest hs => ?_
    rw [hf,hsv] at hs
    simpa only [hf] using hs.notice
  | read seen own a hsv ha =>
    exact hI.server_step (.inl (by simp [hsv])) rfl rfl rfl fun t p rest hs =>
      (hsv ▸ hs).read ha
  | fixup seen own a w hsv =>
    exact hI.server_step (.inl (by simp [hsv])) rfl rfl rfl fun t p rest hs => (hsv ▸ hs).fixup
  | exec seen own r hsv hr =>
    refine hI.advance_log (.exec seen r) rfl fun rest hc => ?_
    obtain ⟨t,hl,ho,hs⟩ := hc.of_server (.inl (by simp [hsv]))
    exact .held t (s.client t) _ hl ho rfl ((hsv ▸ hs).exec hr)
  | drop seen own hsv hd =>
    exact hI.server_step (.inl (by simp [hsv])) rfl rfl rfl fun t p rest hs =>
      absurd hd ((hsv ▸ hs).drop hS)
  | skip seen hsv =>
    exact hI.server_step (.inl (by simp [hsv])) rfl rfl rfl fun t p rest hs => (hsv ▸ hs).skip
  | fault seen own hsv =>
    exact hI.server_step (.inl (by simp [hsv])) rfl rfl rfl fun t p rest hs => (hsv ▸ hs).fault
  | write a w left hsv =>
    exact hI.server_step (.inl (by simp [hsv])) rfl rfl rfl fun t p rest hs => (hsv ▸ hs).write
  | written hsv =>
    exact hI.server_step (.inl (by simp [hsv])) rfl rfl rfl fun t p rest hs => (hsv ▸ hs).written
  | close hsv =>
    exact hI.server_step (.inl (by simp [hsv])) rfl rfl rfl fun t p rest hs => (hsv ▸ hs).close

end Preservation
end Mailbox
