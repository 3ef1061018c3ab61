import FreeFlow.ForkRangeWalk

/-!
# Calls of `ibv_madvise_range`

A call is one round over its range, and after a failure a second one that goes
back over the part that was done. Whatever `malloc` and `madvise` answer, the
call returns and leaves a balanced tree that tiles the address space.
-/

set_option autoImplicit false

namespace FreeFlow.ForkRanges

open RedBlack (RbTree Balanced Sorted)

variable {m m₁ m' : Mm} {lo mid hi start stop : ℕ} {xs ys pre post done todo : List MemNode}
  {x y z : MemNode} {advice : Advice} {inc : ℤ}

/-- The nodes of a tree, which tile the address space. -/
structure Holds (m : Mm) (xs : List MemNode) : Prop where
  rep : Rep m.root xs
  tiles : Tiles 0 xs (2^64)

/-! ## The first node -/

/-- What `get_start_node` leaves: the node `z` holds `start`, and what it has
before `start` was merged with it. -/
structure Begun (m m' : Mm) (start : ℕ) (inc : ℤ) (xs pre : List MemNode) (z : MemNode)
    (post : List MemNode) : Prop where
  holds : Holds m' (pre++z::post)
  start_le : z.start ≤ start
  le_stop : start ≤ z.stop
  calls : m'.calls = m.calls
  mallocs : m'.mallocs <:+ m.mallocs
  count_eq : ∀ a, count (pre++z::post) a = count xs a-if z.start ≤ a ∧ a < start then inc else 0
  apart : inc ≠ 0 → Apart xs → Apart pre ∧ Apart (z::post) ∧ ∀ y ∈ pre.getLast?, y.refcnt ≠ z.refcnt+inc

theorem Holds.getStartNode (h : Holds m xs) (hstart : start < 2^64) (inc : ℤ) :
    (∃ m', getStartNode m start inc = some (m',none) ∧ m'.root = m.root ∧ m'.calls = m.calls ∧
      m'.mallocs <:+ m.mallocs ∧ false ∈ m.mallocs) ∨
    ∃ m' pre z post, getStartNode m start inc = some (m',some z.start) ∧
      Begun m m' start inc xs pre z post := by
  have htiles := h.tiles
  rw [← h.rep.nodes] at htiles
  obtain ⟨pre,x,post,hfind,hsplit,hxs,hxe⟩ := mmFindStart_spec m.root htiles (Nat.zero_le start) hstart
  rw [h.rep.nodes] at hsplit
  subst hsplit
  obtain ⟨mid,hpre,hrest⟩ := tiles_append.mp h.tiles
  obtain ⟨hmid,hle,hpost⟩ := tiles_cons.mp hrest
  rw [ForkRanges.getStartNode,hfind]
  simp only [Option.bind_eq_bind,Option.bind_some]
  by_cases hlt : x.start < start
  · rw [if_pos hlt]
    have hafter : ∀ w ∈ post, start < w.start := by
      intro w hw
      have := hpost.bounds hw
      omega
    obtain ⟨hfail,hok⟩ := h.rep.splitRange hlt hafter
    cases hmalloc : m.mallocs.headD true with
    | false =>
      exact .inl ⟨m.malloc,hfail hmalloc,rfl,rfl,List.tail_suffix _,mem_of_headD_false hmalloc⟩
    | true =>
      obtain ⟨t,hsplit,ht⟩ := hok hmalloc
      refine .inr ⟨_,pre++[{x with stop := start-1}],⟨start,x.stop,x.refcnt⟩,post,hsplit,?_⟩
      exact {
        holds := ⟨by simpa using ht,tiles_append.mpr ⟨start,tiles_append.mpr ⟨mid,hpre,
          tiles_cons.mpr ⟨hmid,show x.start ≤ start-1 by omega,
            tiles_nil.mpr (show start-1+1 = start by omega)⟩⟩,tiles_cons.mpr ⟨rfl,hxe,hpost⟩⟩⟩
        start_le := le_refl start
        le_stop := hxe
        calls := rfl
        mallocs := List.tail_suffix _
        count_eq := by
          intro a
          simp only [count_append,count_cons,count_nil,MemNode.weight]
          split_ifs <;> omega
        apart := by
          intro hinc hapart
          obtain ⟨hp,hq,hpq⟩ := List.isChain_append.mp hapart
          refine ⟨List.isChain_append.mpr ⟨hp,List.isChain_singleton _,?_⟩,?_,?_⟩
          · intro y hy w hw
            obtain rfl : _ = w := by simpa using hw
            exact hpq y hy x (by simp)
          · exact Apart.cons_congr hq rfl
          · intro y hy
            obtain rfl : _ = y := by simpa using hy
            show x.refcnt ≠ x.refcnt+inc
            omega }
  · rw [if_neg hlt]
    obtain ⟨t,pre',z,hmerge,ht,hjoin⟩ := h.rep.mergePrev (x.refcnt+inc)
    rw [hmerge]
    obtain ⟨hzs,hze,hzc⟩ := hjoin.start_le h.tiles
    refine .inr ⟨_,pre',z,post,rfl,?_⟩
    exact {
      holds := ⟨ht,hjoin.tiles h.tiles⟩
      start_le := by omega
      le_stop := by omega
      calls := rfl
      mallocs := List.suffix_refl _
      count_eq := by
        intro a
        have hx : x.start = start := by omega
        rw [hjoin.count_eq h.tiles,hx]
        split_ifs <;> omega
      apart := by
        intro hinc hapart
        cases hjoin with
        | kept _ hne =>
          obtain ⟨hp,hq,hpq⟩ := List.isChain_append.mp hapart
          exact ⟨hp,hq,hne⟩
        | merged _ y hy =>
          rw [List.append_assoc] at hapart
          obtain ⟨hp,hq,hpq⟩ := List.isChain_append.mp hapart
          obtain ⟨hyx,hq⟩ := List.isChain_cons.mp hq
          refine ⟨hp,?_,?_⟩
          · exact Apart.cons_congr hq rfl
          · intro w hw
            have := hpq w hw y (by simp)
            show w.refcnt ≠ x.refcnt+inc
            omega }

/-! ## One round -/

theorem Advice.inc_ne_zero (advice : Advice) : advice.inc ≠ 0 := by
  cases advice <;> decide

theorem Holds.pass (h : Holds m xs) (hstart : start < 2^64) (stop : ℕ) (advice : Advice) :
    (∃ m', pass m start stop advice = some (m',.noMemory) ∧ m'.root = m.root ∧ m'.calls = m.calls ∧
      m'.mallocs <:+ m.mallocs ∧ false ∈ m.mallocs) ∨
    ∃ m₁ m' o pre z post done todo, pass m start stop advice = some (m',o) ∧
      Begun m m₁ start advice.inc xs pre z post ∧
      Walked start stop advice m₁ m' o pre (z::post) done todo := by
  rw [ForkRanges.pass]
  rcases h.getStartNode hstart advice.inc with ⟨m',hnone,hroot,hcalls,hmallocs,hfail⟩ |
    ⟨m₁,pre,z,post,hsome,hb⟩
  · exact .inl ⟨m',by rw [hnone]; rfl,hroot,hcalls,hmallocs,hfail⟩
  · obtain ⟨mid,hpre,hrest⟩ := tiles_append.mp hb.holds.tiles
    have hlength : (z::post).length < m₁.root.toList.length+1 := by
      rw [hb.holds.rep.nodes,List.length_append]
      omega
    obtain ⟨m',o,done,todo,hwalk,hw⟩ :=
      walk_spec start stop advice (z::post) _ m₁ pre mid (2^64) hb.holds.rep hrest hlength
    exact .inr ⟨m₁,m',o,pre,z,post,done,todo,by rw [hsome]; exact hwalk,hb,hw⟩

/-- The first node of a round, which may have been cut. -/
theorem Recut.head {zs : List MemNode} (h : Recut stop (z::post) zs) (hz : start ≤ z.stop)
    (hstop : start ≤ stop) :
    ∃ d rest, zs = d::rest ∧ d.start = z.start ∧ d.refcnt = z.refcnt ∧ start ≤ d.stop := by
  rcases h with rfl | ⟨as,y,bs,heq,hy,hlt,rfl⟩
  · exact ⟨z,post,rfl,rfl,rfl,hz⟩
  · cases as with
    | nil =>
      obtain ⟨rfl,rfl⟩ := List.cons.inj heq
      exact ⟨_,_,rfl,rfl,rfl,hstop⟩
    | cons a as =>
      obtain ⟨rfl,rfl⟩ := List.cons.inj heq
      exact ⟨_,_,rfl,rfl,rfl,hz⟩

/-- The nodes when the loop ends at `b`: from `start` up to `b` they are counted. -/
structure Stopped (m' : Mm) (start : ℕ) (inc : ℤ) (xs pre done todo : List MemNode) (z : MemNode) (b : ℕ) :
    Prop where
  holds : Holds m' (pre++done.map (·.bump inc)++todo)
  done_tiles : Tiles z.start done b
  todo_tiles : Tiles b todo (2^64)
  count_eq : ∀ a, count (pre++done.map (·.bump inc)++todo) a = count xs a-
    (if z.start ≤ a ∧ a < start then inc else 0)+if z.start ≤ a ∧ a < b then inc else 0
  head : done = [] ∨ start < b

theorem Walked.stopped {o : Outcome} (hb : Begun m m₁ start advice.inc xs pre z post)
    (hw : Walked start stop advice m₁ m' o pre (z::post) done todo) (hstop : start ≤ stop) :
    ∃ b, Stopped m' start advice.inc xs pre done todo z b := by
  obtain ⟨mid,hpre,hrest⟩ := tiles_append.mp hb.holds.tiles
  obtain rfl : z.start = mid := (tiles_cons.mp hrest).1
  obtain ⟨b,hdone,htodo⟩ := tiles_append.mp (hw.recut.tiles hrest)
  refine ⟨b,⟨hw.rep,tiles_append.mpr ⟨b,tiles_append.mpr ⟨_,hpre,hdone.bump _⟩,htodo⟩⟩,hdone,htodo,?_,?_⟩
  · intro a
    have hrecut := hw.recut.count_eq a
    have hbegun := hb.count_eq a
    simp only [count_append] at hrecut hbegun ⊢
    rw [hdone.count_bump]
    omega
  · obtain ⟨d,rest,hzs,-,-,hd⟩ := hw.recut.head hb.le_stop hstop
    cases done with
    | nil => exact .inl rfl
    | cons d' done =>
      obtain ⟨rfl,-⟩ := List.cons.inj hzs
      have hend := (tiles_cons.mp hdone).2.2.le
      exact .inr (by omega)

/-- A round that passes the whole range counts it. -/
theorem Walked.passed {p : Option ℕ} (hb : Begun m m₁ start advice.inc xs pre z post)
    (hw : Walked start stop advice m₁ m' (.passed p) pre (z::post) done todo) (hstop : start ≤ stop)
    (hmax : stop < 2^64) : Stopped m' start advice.inc xs pre done todo z (stop+1) ∧
      p = todo.head?.map MemNode.start ∧
      m'.calls = m₁.calls++done.flatMap (called start advice) := by
  obtain ⟨b,hs⟩ := hw.stopped hb hstop
  obtain ⟨last,hended,hcalls⟩ := hw.ended
  cases hended with
  | passed _ hafter =>
    rw [List.append_nil] at hcalls
    refine ⟨?_,rfl,hcalls⟩
    have hle : b ≤ stop+1 := by
      rcases List.eq_nil_or_concat done with rfl | ⟨done,d,rfl⟩
      · have := tiles_nil.mp hs.done_tiles
        have := hb.start_le
        omega
      · rw [List.concat_eq_append] at hs hw
        obtain ⟨e,-,hlast⟩ := tiles_append.mp hs.done_tiles
        have hd := tiles_nil.mp (tiles_cons.mp hlast).2.2
        have := hw.done_le d (by simp)
        omega
    have hge : stop < b := by
      cases todo with
      | nil =>
        have := tiles_nil.mp hs.todo_tiles
        omega
      | cons y todo =>
        have hy := (tiles_cons.mp hs.todo_tiles).1
        have := hafter y (by simp)
        omega
    obtain rfl : b = stop+1 := by omega
    exact hs

theorem Stopped.count_passed (h : Stopped m' start inc xs pre done todo z (stop+1))
    (hz : z.start ≤ start) (hstop : start ≤ stop) (a : ℕ) :
    count (pre++done.map (·.bump inc)++todo) a = count xs a+if start ≤ a ∧ a ≤ stop then inc else 0 := by
  rw [h.count_eq]
  split_ifs <;> omega

theorem Walked.calls_within {o : Outcome} (hw : Walked start stop advice m m' o pre ys done todo) :
    ∃ cs, m'.calls = m.calls++cs ∧ ∀ c ∈ cs, start ≤ c.addr ∧ c.last ≤ stop := by
  obtain ⟨last,hended,hcalls⟩ := hw.ended
  refine ⟨done.flatMap (called start advice)++last,by rw [hcalls,List.append_assoc],fun c hc => ?_⟩
  rcases List.mem_append.mp hc with hc | hc
  · obtain ⟨x,hx,hc⟩ := List.mem_flatMap.mp hc
    rw [called] at hc
    split at hc
    · obtain rfl := List.mem_singleton.mp hc
      exact ⟨Nat.le_max_left _ _,hw.done_le x hx⟩
    · cases hc
  · cases hended with
    | passed => cases hc
    | noMemory => cases hc
    | failed y rest hstart hstop hadv =>
      obtain rfl := List.mem_singleton.mp hc
      exact ⟨Nat.le_max_left _ _,hstop⟩

/-- The nodes that were counted still differ from their neighbours. -/
theorem Walked.apart_done {p : Option ℕ} (hb : Begun m m₁ start advice.inc xs pre z post)
    (hw : Walked start stop advice m₁ m' (.passed p) pre (z::post) done todo) (h : Apart xs) :
    Apart (pre++done.map (·.bump advice.inc)) ∧ Apart todo := by
  obtain ⟨hpre,hz,hlast⟩ := hb.apart advice.inc_ne_zero h
  obtain ⟨hdone,htodo⟩ := hw.apart ⟨p,rfl⟩ hz
  refine ⟨List.isChain_append.mpr ⟨hpre,?_,?_⟩,htodo⟩
  · rw [List.isChain_map]
    exact hdone.imp fun x y hne heq => hne (by simpa [MemNode.bump] using heq)
  · intro y hy w hw'
    cases done with
    | nil => cases hw'
    | cons d done =>
      obtain rfl : d.bump advice.inc = w := by simpa using hw'
      obtain ⟨z',hz',hd⟩ := hw.heads d (by simp)
      obtain rfl : z = z' := by simpa using hz'
      show y.refcnt ≠ d.refcnt+advice.inc
      rw [hd]
      exact hlast y hy

/-- The node behind the range is merged when it has the count of the one before it. -/
theorem Holds.finish (h : Holds m (pre++todo)) : ∃ m' xs',
    finish m (todo.head?.map MemNode.start) = some m' ∧ Holds m' xs' ∧ m'.calls = m.calls ∧
      (∀ a, count xs' a = count (pre++todo) a) ∧ (Apart pre → Apart todo → Apart xs') := by
  cases todo with
  | nil => exact ⟨m,pre++[],rfl,h,rfl,fun _ => rfl,fun hp _ => by simpa using hp⟩
  | cons x post =>
    obtain ⟨t,pre',z,hmerge,ht,hjoin⟩ := h.rep.mergePrev x.refcnt
    refine ⟨{m with root := t},pre'++z::post,?_,⟨ht,hjoin.tiles h.tiles⟩,rfl,?_,?_⟩
    · rw [List.head?_cons,Option.map_some,ForkRanges.finish,h.rep.load]
      simp [hmerge]
    · intro a
      rw [hjoin.count_eq h.tiles]
      split_ifs <;> omega
    · intro hp hq
      cases hjoin with
      | kept _ hne =>
        refine List.isChain_append.mpr ⟨hp,hq,fun y hy w hw => ?_⟩
        obtain rfl : x = w := by simpa using hw
        exact hne y hy
      | merged _ y hy =>
        obtain ⟨hp,-,hlast⟩ := List.isChain_append.mp hp
        refine List.isChain_append.mpr ⟨hp,hq.cons_congr rfl,fun w hw v hv => ?_⟩
        obtain rfl : _ = v := by simpa using hv
        show w.refcnt ≠ x.refcnt
        rw [← hy]
        exact hlast w hw y (by simp)

/-! ## The pages that are kept out of a fork -/

/-- The last successful call for an address says whether its page is kept out. -/
def keptOut (calls : List Call) (a : ℕ) : Bool :=
  calls.foldl (fun kept c => if c.ok ∧ c.addr ≤ a ∧ a ≤ c.last then c.advice = .dontfork else kept) false

/-- The pages that are kept out are those with an owner. -/
def Exact (m : Mm) (xs : List MemNode) : Prop := ∀ a, keptOut m.calls a = decide (0 < count xs a)

/-- One more call. -/
def keptBy (a : ℕ) (kept : Bool) (c : Call) : Bool :=
  if c.ok ∧ c.addr ≤ a ∧ a ≤ c.last then c.advice = .dontfork else kept

theorem keptOut_append (cs ds : List Call) (a : ℕ) :
    keptOut (cs++ds) a = ds.foldl (keptBy a) (keptOut cs a) := List.foldl_append

theorem keptBy_outside {a : ℕ} (b : Bool) (cs : List Call) (h : ∀ c ∈ cs, ¬(c.addr ≤ a ∧ a ≤ c.last)) :
    cs.foldl (keptBy a) b = b := by
  induction cs generalizing b with
  | nil => rfl
  | cons c cs ih =>
    rw [List.foldl_cons,keptBy,if_neg fun hc => h c List.mem_cons_self hc.2]
    exact ih b fun d hd => h d (List.mem_cons_of_mem c hd)

theorem called_within {c : Call} (hc : c ∈ called start advice x) :
    c.addr = max start x.start ∧ c.last = x.stop := by
  rw [called] at hc
  split at hc
  · obtain rfl := List.mem_singleton.mp hc
    exact ⟨rfl,rfl⟩
  · cases hc

/-- The calls for a node keep its pages out when their count gets positive. -/
theorem keptBy_called {a : ℕ} (ha : start ≤ a) (hx : x.start ≤ a ∧ a ≤ x.stop) :
    (called start advice x).foldl (keptBy a) (decide (0 < x.refcnt)) =
      decide (0 < x.refcnt+advice.inc) := by
  rw [called]
  cases advice with
  | dontfork =>
    by_cases hzero : x.refcnt = 0
    · rw [if_pos (by simp [advises,hzero])]
      simp [keptBy,ha,hx,hzero,Advice.inc]
    · rw [if_neg (by simp [advises,hzero])]
      exact decide_eq_decide.mpr (show 0 < x.refcnt ↔ 0 < x.refcnt+1 by omega)
  | dofork =>
    by_cases hone : x.refcnt = 1
    · rw [if_pos (by simp [advises,hone])]
      simp [keptBy,ha,hx,hone,Advice.inc]
    · rw [if_neg (by simp [advises,hone])]
      exact decide_eq_decide.mpr (show 0 < x.refcnt ↔ 0 < x.refcnt+-1 by omega)

theorem Tiles.keptBy_done (h : Tiles lo done hi) (start : ℕ) (advice : Advice) {a : ℕ} (ha : start ≤ a)
    (hlo : lo ≤ a) (hhi : a < hi) :
    (done.flatMap (called start advice)).foldl (keptBy a) (decide (0 < count done a)) =
      decide (0 < count done a+advice.inc) := by
  induction done generalizing lo with
  | nil =>
    have := tiles_nil.mp h
    omega
  | cons x done ih =>
    obtain ⟨hstart,hle,hdone⟩ := tiles_cons.mp h
    rw [List.flatMap_cons,List.foldl_append,count_cons]
    by_cases hin : a ≤ x.stop
    · rw [hdone.count_outside (by omega),MemNode.weight_of_mem (by omega),add_zero,
        keptBy_called ha (by omega),keptBy_outside]
      intro c hc
      obtain ⟨y,hy,hc⟩ := List.mem_flatMap.mp hc
      have := hdone.bounds hy
      have := called_within hc
      omega
    · rw [MemNode.weight_of_not_mem (by omega),zero_add,keptBy_outside _ (called start advice x)]
      · exact ih hdone (by omega)
      · intro c hc
        have := called_within hc
        omega

/-- A round keeps the pages with an owner out, as far as it has come. -/
theorem Stopped.keptOut_eq {b : ℕ} (hb : Begun m m₁ start advice.inc xs pre z post)
    (hs : Stopped m' start advice.inc xs pre done todo z b) (h : Exact m xs) (a : ℕ) :
    keptOut (m.calls++done.flatMap (called start advice)) a =
      decide (0 < count xs a+if start ≤ a ∧ a < b then advice.inc else 0) := by
  rw [keptOut_append,h a]
  by_cases hin : start ≤ a ∧ a < b
  · have hz := hb.start_le
    obtain ⟨mid,hpre,hrest⟩ := tiles_append.mp hb.holds.tiles
    obtain rfl : z.start = mid := (tiles_cons.mp hrest).1
    have hsum := hs.count_eq a
    rw [count_append,count_append,hpre.count_outside (by omega),hs.todo_tiles.count_outside (by omega),
      hs.done_tiles.count_bump,if_pos (by omega),if_neg (by omega)] at hsum
    have hxs : count xs a = count done a := by omega
    rw [if_pos hin,hxs]
    exact hs.done_tiles.keptBy_done start advice hin.1 (by omega) hin.2
  · rw [if_neg hin,add_zero,keptBy_outside]
    intro c hc
    obtain ⟨y,hy,hc⟩ := List.mem_flatMap.mp hc
    have := hs.done_tiles.bounds hy
    have := called_within hc
    omega

/-- The whole range was passed. -/
theorem Walked.finished {p : Option ℕ} (hb : Begun m m₁ start advice.inc xs pre z post)
    (hw : Walked start stop advice m₁ m' (.passed p) pre (z::post) done todo) (hstop : start ≤ stop)
    (hmax : stop < 2^64) : ∃ m'' xs', finish m' p = some m'' ∧ Holds m'' xs' ∧ m''.calls = m'.calls ∧
      (∀ a, count xs' a = count xs a+if start ≤ a ∧ a ≤ stop then advice.inc else 0) ∧
      (Apart xs → Apart xs') ∧ (Exact m xs → Exact m'' xs') := by
  obtain ⟨hs,rfl,hcalls⟩ := hw.passed hb hstop hmax
  obtain ⟨m'',xs',hfinish,hholds,hcalls',hcount,hapart⟩ := hs.holds.finish
  have hsum := hs.count_passed hb.start_le hstop
  refine ⟨m'',xs',hfinish,hholds,hcalls',fun a => by rw [hcount,hsum],?_,?_⟩
  · intro h
    obtain ⟨hdone,htodo⟩ := hw.apart_done hb h
    exact hapart hdone htodo
  · intro h a
    rw [hcalls',hcount,hcalls,hb.calls,hs.keptOut_eq hb h,hsum]
    exact decide_eq_decide.mpr (by split_ifs <;> omega)

/-- A call that returns 0 counts its range. -/
theorem Holds.adviseRange_ok (h : Holds m xs) (hstop : start ≤ stop) (hmax : stop < 2^64)
    (hret : adviseRange m start stop advice = some (m',0)) : ∃ xs', Holds m' xs' ∧
      (∀ a, count xs' a = count xs a+if start ≤ a ∧ a ≤ stop then advice.inc else 0) ∧
      (Apart xs → Apart xs') ∧ (Exact m xs → Exact m' xs') := by
  rw [adviseRange] at hret
  rcases h.pass (lt_of_le_of_lt hstop hmax) stop advice with ⟨m₁,hpass,-⟩ |
    ⟨m₁,m₂,o,pre,z,post,done,todo,hpass,hb,hw⟩
  · rw [hpass] at hret
    cases hret
  · rw [hpass] at hret
    cases o with
    | passed p =>
      obtain ⟨m'',xs',hfinish,hholds,hcalls,hcount,hapart,hexact⟩ := hw.finished hb hstop hmax
      simp only [Option.bind_eq_bind,Option.bind_some,hfinish,Option.map_some,Option.some.injEq,
        Prod.mk.injEq,and_true] at hret
      subst hret
      exact ⟨xs',hholds,hcount,hapart,hexact⟩
    | noMemory => cases hret
    | failed p =>
      obtain ⟨m₃,hrecover,heq⟩ := Option.map_eq_some_iff.mp hret
      cases heq

end FreeFlow.ForkRanges
