import FreeFlow.ForkRangeTree

/-!
# One round over a range

The loop of `ibv_madvise_range` counts the nodes of its range one after the
other, cuts the last one at the end of the range, and stops early when `malloc`
or `madvise` fails. `done` are the nodes that it has counted and `todo` the ones
from the node where it ended.
-/

set_option autoImplicit false

namespace FreeFlow.ForkRanges

open RedBlack (RbTree Balanced Sorted)

variable {m m' : Mm} {lo mid hi start stop : ℕ} {xs ys pre post done todo : List MemNode}
  {x y z : MemNode} {advice : Advice} {inc : ℤ}

def MemNode.bump (x : MemNode) (inc : ℤ) : MemNode := {x with refcnt := x.refcnt+inc}

theorem MemNode.weight_bump (a : ℕ) :
    (x.bump inc).weight a = x.weight a+if x.start ≤ a ∧ a ≤ x.stop then inc else 0 := by
  unfold weight bump
  split_ifs <;> simp

theorem Tiles.bump (h : Tiles lo xs hi) (inc : ℤ) : Tiles lo (xs.map (·.bump inc)) hi := by
  induction xs generalizing lo with
  | nil => exact h
  | cons x xs ih =>
    obtain ⟨hstart,hle,hxs⟩ := tiles_cons.mp h
    exact tiles_cons.mpr ⟨hstart,hle,ih hxs⟩

theorem Tiles.count_bump (h : Tiles lo xs hi) (inc : ℤ) (a : ℕ) :
    count (xs.map (·.bump inc)) a = count xs a+if lo ≤ a ∧ a < hi then inc else 0 := by
  induction xs generalizing lo with
  | nil =>
    obtain rfl := tiles_nil.mp h
    rw [if_neg (by omega)]
    rfl
  | cons x xs ih =>
    obtain ⟨hstart,hle,hxs⟩ := tiles_cons.mp h
    have hend := hxs.le
    rw [List.map_cons,count_cons,count_cons,ih hxs,MemNode.weight_bump]
    have hsum : (if x.start ≤ a ∧ a ≤ x.stop then inc else 0)+
        (if x.stop+1 ≤ a ∧ a < hi then inc else 0) = if lo ≤ a ∧ a < hi then inc else 0 := by
      split_ifs <;> omega
    omega

/-! ## Cutting -/

/-- The list, or the list with the node that `stop` lies in cut behind it. -/
def Recut (stop : ℕ) (ys zs : List MemNode) : Prop :=
  zs = ys ∨ ∃ as y bs, ys = as++y::bs ∧ y.start ≤ stop ∧ stop < y.stop ∧
    zs = as++{y with stop := stop}::⟨stop+1,y.stop,y.refcnt⟩::bs

theorem weight_cut (hstart : y.start ≤ stop) (hstop : stop < y.stop) (a : ℕ) :
    ({y with stop := stop} : MemNode).weight a+(⟨stop+1,y.stop,y.refcnt⟩ : MemNode).weight a =
      y.weight a := by
  unfold MemNode.weight
  simp only
  split_ifs <;> omega

theorem Recut.count_eq {zs : List MemNode} (h : Recut stop ys zs) (a : ℕ) : count zs a = count ys a := by
  rcases h with rfl | ⟨as,y,bs,rfl,hstart,hstop,rfl⟩
  · rfl
  · rw [count_append,count_append,count_cons,count_cons,count_cons,← weight_cut hstart hstop]
    omega

theorem Recut.tiles {zs : List MemNode} (h : Recut stop ys zs) (ht : Tiles lo ys hi) : Tiles lo zs hi := by
  rcases h with rfl | ⟨as,y,bs,rfl,hstart,hstop,rfl⟩
  · exact ht
  · obtain ⟨mid,has,hrest⟩ := tiles_append.mp ht
    obtain ⟨hlo,hle,hbs⟩ := tiles_cons.mp hrest
    exact tiles_append.mpr ⟨mid,has,tiles_cons.mpr ⟨hlo,hstart,tiles_cons.mpr ⟨rfl,hstop,hbs⟩⟩⟩

theorem Recut.cons {zs : List MemNode} (h : Recut stop ys zs) (x : MemNode) : Recut stop (x::ys) (x::zs) := by
  rcases h with rfl | ⟨as,y,bs,rfl,hstart,hstop,rfl⟩
  · exact .inl rfl
  · exact .inr ⟨x::as,y,bs,rfl,hstart,hstop,rfl⟩

/-! ## The loop -/

/-- The calls of `madvise` for a node that gets counted. -/
def called (start : ℕ) (advice : Advice) (x : MemNode) : List Call :=
  if advises advice x.refcnt then [⟨max start x.start,x.stop,advice,true⟩] else []

/-- How the loop ends, at which node and with which call of `madvise`. -/
inductive Ended (start stop : ℕ) (advice : Advice) (mallocs : List Bool) :
    Outcome → List MemNode → List Call → Prop
  | passed (todo : List MemNode) (h : ∀ y ∈ todo.head?, stop < y.start) :
      Ended start stop advice mallocs (.passed (todo.head?.map MemNode.start)) todo []
  | noMemory {y : MemNode} {rest : List MemNode} (hstart : y.start ≤ stop) (hstop : stop < y.stop)
      (hfail : false ∈ mallocs) : Ended start stop advice mallocs .noMemory (y::rest) []
  | failed (y : MemNode) (rest : List MemNode) (hstart : y.start ≤ stop) (hstop : y.stop ≤ stop)
      (hadv : advises advice y.refcnt = true) :
      Ended start stop advice mallocs (.failed y.start) (y::rest)
        [⟨max start y.start,y.stop,advice,false⟩]

theorem adviseNode_spec (m : Mm) (x : MemNode) (start : ℕ) (advice : Advice) :
    ∃ m' ok, adviseNode m x start advice = (m',ok) ∧ m'.root = m.root ∧ m'.mallocs = m.mallocs ∧
      (ok = true → m'.calls = m.calls++called start advice x) ∧
      (ok = false → advises advice x.refcnt = true ∧
        m'.calls = m.calls++[⟨max start x.start,x.stop,advice,false⟩]) := by
  rw [adviseNode,called]
  by_cases hadv : advises advice x.refcnt = true
  · rw [if_pos hadv,if_pos hadv]
    by_cases hstart : x.start < start
    · rw [if_pos hstart,Nat.max_eq_left (by omega)]
      exact ⟨_,_,rfl,rfl,rfl,fun h => by rw [Mm.madvise,h],fun h => ⟨hadv,by rw [Mm.madvise,h]⟩⟩
    · rw [if_neg hstart,Nat.max_eq_right (by omega)]
      exact ⟨_,_,rfl,rfl,rfl,fun h => by rw [Mm.madvise,h],fun h => ⟨hadv,by rw [Mm.madvise,h]⟩⟩
  · rw [if_neg hadv,if_neg hadv]
    exact ⟨m,true,rfl,rfl,rfl,fun _ => (List.append_nil _).symm,by simp⟩

theorem mem_of_headD_false {bs : List Bool} (h : bs.headD true = false) : false ∈ bs := by
  cases bs with
  | nil => cases h
  | cons b bs =>
    obtain rfl : b = false := h
    exact List.mem_cons_self

/-- What the loop does from a node on. -/
structure Walked (start stop : ℕ) (advice : Advice) (m m' : Mm) (o : Outcome)
    (pre ys done todo : List MemNode) : Prop where
  rep : Rep m'.root (pre++done.map (·.bump advice.inc)++todo)
  recut : Recut stop ys (done++todo)
  done_le : ∀ x ∈ done, x.stop ≤ stop
  mallocs : m'.mallocs <:+ m.mallocs
  heads : ∀ d ∈ done.head?, ∃ y ∈ ys.head?, d.refcnt = y.refcnt
  apart : (∃ p, o = .passed p) → Apart ys → Apart done ∧ Apart todo
  ended : ∃ last, Ended start stop advice m.mallocs o todo last ∧
    m'.calls = m.calls++done.flatMap (called start advice)++last

theorem Rep.countNode (h : Rep m.root (pre++x::post)) (start : ℕ) (advice : Advice) :
    ∃ m' ok, countNode m x.start start advice = some (m',ok) ∧ m'.mallocs = m.mallocs ∧
      (ok = true → Rep m'.root (pre++x.bump advice.inc::post) ∧
        m'.calls = m.calls++called start advice x) ∧
      (ok = false → Rep m'.root (pre++x::post) ∧ advises advice x.refcnt = true ∧
        m'.calls = m.calls++[⟨max start x.start,x.stop,advice,false⟩]) := by
  obtain ⟨m₁,ok,hadvise,hroot,hmallocs,hyes,hno⟩ := adviseNode_spec m x start advice
  rw [← hroot] at h
  cases ok with
  | true =>
    obtain ⟨t,hstore,ht⟩ := h.store (fun y => {y with refcnt := y.refcnt+advice.inc}) rfl
    refine ⟨{m₁ with root := t},true,?_,hmallocs,fun _ => ⟨ht,hyes rfl⟩,by simp⟩
    rw [hroot] at h
    simp [ForkRanges.countNode,h.load,hadvise,hstore]
  | false =>
    refine ⟨m₁,false,?_,hmallocs,by simp,fun _ => ⟨h,hno rfl⟩⟩
    rw [hroot] at h
    simp [ForkRanges.countNode,h.load,hadvise]

theorem Rep.cutEnd (h : Rep m.root (pre++x::post)) (hpost : Tiles (x.stop+1) post hi)
    (hstart : x.start ≤ stop) : ∃ m' ok, cutEnd m x.start stop = some (m',ok) ∧ m'.calls = m.calls ∧
      m'.mallocs <:+ m.mallocs ∧
      (ok = false → Rep m'.root (pre++x::post) ∧ stop < x.stop ∧ false ∈ m.mallocs) ∧
      (ok = true → Rep m'.root (pre++x::post) ∧ x.stop ≤ stop ∨ stop < x.stop ∧
        Rep m'.root (pre++{x with stop := stop}::⟨stop+1,x.stop,x.refcnt⟩::post)) := by
  rw [ForkRanges.cutEnd,h.load]
  simp only [Option.bind_eq_bind,Option.bind_some]
  by_cases hcut : stop < x.stop
  · rw [if_pos hcut]
    have hlt : ∀ z ∈ post, stop+1 < z.start := by
      intro z hz
      have := hpost.bounds hz
      omega
    obtain ⟨hfail,hok⟩ := h.splitRange (by omega : x.start < stop+1) hlt
    cases hmalloc : m.mallocs.headD true with
    | false =>
      exact ⟨m.malloc,false,by rw [hfail hmalloc]; rfl,rfl,List.tail_suffix _,
        fun _ => ⟨h,hcut,mem_of_headD_false hmalloc⟩,by simp⟩
    | true =>
      obtain ⟨t,hsplit,ht⟩ := hok hmalloc
      exact ⟨{m.malloc with root := t},true,by rw [hsplit]; rfl,rfl,List.tail_suffix _,by simp,
        fun _ => .inr ⟨hcut,ht⟩⟩
  · rw [if_neg hcut]
    exact ⟨m,true,rfl,rfl,List.suffix_refl _,by simp,fun _ => .inl ⟨h,by omega⟩⟩

/-- A node that is counted comes first. -/
theorem Walked.cons {m₁ m₂ : Mm} {o : Outcome} (h : Walked start stop advice m₂ m' o
    (pre++[x.bump advice.inc]) ys done todo) (hx : x.stop ≤ stop) (hmallocs : m₂.mallocs <:+ m₁.mallocs)
    (hcalls : m₂.calls = m₁.calls++called start advice x) :
    Walked start stop advice m₁ m' o pre (x::ys) (x::done) todo where
  rep := by simpa using h.rep
  recut := h.recut.cons x
  done_le := by
    intro y hy
    rcases List.mem_cons.mp hy with rfl | hy
    · exact hx
    · exact h.done_le y hy
  mallocs := h.mallocs.trans hmallocs
  heads := by simp
  apart := by
    intro ho hys
    obtain ⟨hhead,hys⟩ := List.isChain_cons.mp hys
    obtain ⟨hdone,htodo⟩ := h.apart ho hys
    refine ⟨List.isChain_cons.mpr ⟨fun d hd => ?_,hdone⟩,htodo⟩
    obtain ⟨y,hy,heq⟩ := h.heads d hd
    rw [heq]
    exact hhead y hy
  ended := by
    obtain ⟨last,hended,hlast⟩ := h.ended
    refine ⟨last,?_,by rw [hlast,hcalls]; simp⟩
    cases hended with
    | passed todo htodo => exact .passed todo htodo
    | noMemory hstart hstop hfail => exact .noMemory hstart hstop (hmallocs.subset hfail)
    | failed y rest hstart hstop hadv => exact .failed y rest hstart hstop hadv

theorem walk_spec (start stop : ℕ) (advice : Advice) (ys : List MemNode) :
    ∀ (fuel : ℕ) (m : Mm) (pre : List MemNode) (lo hi : ℕ), Rep m.root (pre++ys) → Tiles lo ys hi →
      ys.length < fuel → ∃ m' o done todo,
        walk start stop advice fuel m (ys.head?.map MemNode.start) = some (m',o) ∧
          Walked start stop advice m m' o pre ys done todo := by
  induction ys with
  | nil =>
    intro fuel m pre lo hi hrep htiles hfuel
    obtain ⟨fuel,rfl⟩ := Nat.exists_eq_succ_of_ne_zero (Nat.pos_iff_ne_zero.mp hfuel)
    exact ⟨m,_,[],[],rfl,by simpa using hrep,.inl rfl,by simp,List.suffix_refl _,by simp,
      fun _ h => ⟨.nil,h⟩,[],.passed [] (by simp),by simp⟩
  | cons x xs ih =>
    intro fuel m pre lo hi hrep htiles hfuel
    obtain ⟨fuel,rfl⟩ := Nat.exists_eq_succ_of_ne_zero (Nat.ne_zero_of_lt hfuel)
    obtain ⟨hstart,hle,hxs⟩ := tiles_cons.mp htiles
    rw [List.head?_cons,Option.map_some,walk,hrep.load]
    simp only [Option.bind_eq_bind,Option.bind_some]
    by_cases hover : stop < x.start
    · rw [if_pos hover]
      exact ⟨m,_,[],x::xs,rfl,by simpa using hrep,.inl rfl,by simp,List.suffix_refl _,by simp,
        fun _ h => ⟨.nil,h⟩,[],.passed (x::xs) (by simpa using hover),by simp⟩
    rw [if_neg hover]
    obtain ⟨m₁,ok,hcut,hcalls₁,hmallocs₁,hno,hyes⟩ := hrep.cutEnd hxs (Nat.not_lt.mp hover)
    rw [hcut,Option.bind_some]
    cases ok with
    | false =>
      obtain ⟨hrep₁,hlt,hfail⟩ := hno rfl
      exact ⟨m₁,_,[],x::xs,rfl,by simpa using hrep₁,.inl rfl,by simp,hmallocs₁,by simp,
        by simp,[],.noMemory (by omega) hlt hfail,by simpa using hcalls₁⟩
    | true =>
      rcases hyes rfl with ⟨hrep₁,hin⟩ | ⟨hlt,hrep₁⟩
      · -- the node lies in the range
        obtain ⟨m₂,ok,hcount,hmallocs₂,hdone,hfailed⟩ := hrep₁.countNode start advice
        simp only
        rw [hcount,Option.bind_some]
        rw [← hmallocs₂] at hmallocs₁
        cases ok with
        | false =>
          obtain ⟨hrep₂,hadv,hcalls₂⟩ := hfailed rfl
          exact ⟨m₂,_,[],x::xs,rfl,by simpa using hrep₂,.inl rfl,by simp,hmallocs₁,by simp,
            by simp,_,.failed x xs (by omega) hin hadv,by simpa [hcalls₁] using hcalls₂⟩
        | true =>
          obtain ⟨hrep₂,hcalls₂⟩ := hdone rfl
          have hrep₃ : Rep m₂.root ((pre++[x.bump advice.inc])++xs) := by simpa using hrep₂
          obtain ⟨m',o,done,todo,hwalk,hw⟩ := ih fuel m₂ _ _ _ hrep₃ hxs (by simpa using hfuel)
          have hnext := hrep₂.mmNext
          simp only [MemNode.bump] at hnext
          refine ⟨m',o,x::done,todo,?_,hw.cons hin hmallocs₁ (by rw [hcalls₂,hcalls₁])⟩
          simp only
          rw [hnext,Option.bind_some,hwalk]
      · -- the node was cut, and what was cut off ends the loop
        obtain ⟨m₂,ok,hcount,hmallocs₂,hdone,hfailed⟩ := hrep₁.countNode start advice
        simp only at hcount ⊢
        rw [hcount,Option.bind_some]
        rw [← hmallocs₂] at hmallocs₁
        have hrecut : Recut stop (x::xs) ({x with stop := stop}::⟨stop+1,x.stop,x.refcnt⟩::xs) :=
          .inr ⟨[],x,xs,rfl,by omega,hlt,rfl⟩
        cases ok with
        | false =>
          obtain ⟨hrep₂,hadv,hcalls₂⟩ := hfailed rfl
          exact ⟨m₂,_,[],_,rfl,by simpa using hrep₂,hrecut,by simp,hmallocs₁,by simp,by simp,_,
            .failed {x with stop := stop} _ (by simpa using hover) (le_refl stop) hadv,
            by simpa [hcalls₁] using hcalls₂⟩
        | true =>
          obtain ⟨hrep₂,hcalls₂⟩ := hdone rfl
          have hnext := hrep₂.mmNext
          simp only [MemNode.bump] at hnext
          obtain ⟨fuel,rfl⟩ := Nat.exists_eq_succ_of_ne_zero (Nat.ne_zero_of_lt (by simpa using hfuel : xs.length < fuel))
          have hrep₃ : Rep m₂.root ((pre++[({x with stop := stop} : MemNode).bump advice.inc])++
              (⟨stop+1,x.stop,x.refcnt⟩ : MemNode)::xs) := by simpa using hrep₂
          have hload := hrep₃.load
          refine ⟨m₂,.passed (some (stop+1)),[{x with stop := stop}],⟨stop+1,x.stop,x.refcnt⟩::xs,?_,
            by simpa using hrep₂,hrecut,by simp,hmallocs₁,by simp,
            fun _ h => ⟨List.isChain_singleton _,h.cons_congr rfl⟩,[],
            .passed (⟨stop+1,x.stop,x.refcnt⟩::xs) ?_,by simp [hcalls₂,hcalls₁]⟩
          · simp only
            rw [hnext,Option.bind_some,List.head?_cons,Option.map_some,walk]
            simp only at hload ⊢
            rw [hload]
            simp
          · simp

end FreeFlow.ForkRanges
