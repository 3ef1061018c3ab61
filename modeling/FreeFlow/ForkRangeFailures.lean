import FreeFlow.ForkRangeCalls

/-!
# Failures of `ibv_madvise_range`

When `madvise` fails for a node, the node is given its old shape and the part
that was counted before it is counted back. Undoing merges the node with the one
before it when both have the same count now, and the second round stops before
what was merged.
-/

set_option autoImplicit false

namespace FreeFlow.ForkRanges

open RedBlack (RbTree Balanced Sorted)

variable {m m₁ m' : Mm} {lo mid hi start stop : ℕ} {xs ys pre post done todo : List MemNode}
  {x y z : MemNode} {advice : Advice} {inc : ℤ}

/-! ## Undoing a node -/

/-- The node `y` again, split from what was merged with it. -/
theorem Holds.undoMerge (h : Holds m (pre++y::post)) (hle : start ≤ y.stop) (inc : ℤ) :
    (∃ m', undoMerge m y.start start inc = some (m',none) ∧ m'.root = m.root ∧ m'.calls = m.calls ∧
      m'.mallocs <:+ m.mallocs ∧ false ∈ m.mallocs) ∨
    ∃ m' pre' w, undoMerge m y.start start inc = some (m',some w.start) ∧ Holds m' (pre'++w::post) ∧
      m'.calls = m.calls ∧ m'.mallocs <:+ m.mallocs ∧ w.start = max start y.start ∧
      w.refcnt = y.refcnt ∧ (start ≤ y.start → pre' = pre) ∧
      (y.start < start → ∃ v ∈ pre'.getLast?, v.refcnt = y.refcnt+inc) ∧
      ∀ a, count (pre'++w::post) a =
        count (pre++y::post) a+if y.start ≤ a ∧ a < start then inc else 0 := by
  obtain ⟨mid,hpre,hrest⟩ := tiles_append.mp h.tiles
  obtain ⟨hmid,hys,hpost⟩ := tiles_cons.mp hrest
  rw [ForkRanges.undoMerge,h.rep.load]
  simp only [Option.bind_eq_bind,Option.bind_some]
  by_cases hlt : y.start < start
  · rw [if_pos hlt]
    have hafter : ∀ w ∈ post, start < w.start := by
      intro w hw
      have := hpost.bounds hw
      omega
    obtain ⟨hfail,hok⟩ := h.rep.splitRange hlt hafter
    cases hmalloc : m.mallocs.headD true with
    | false =>
      exact .inl ⟨m.malloc,by rw [hfail hmalloc]; rfl,rfl,rfl,List.tail_suffix _,
        mem_of_headD_false hmalloc⟩
    | true =>
      obtain ⟨t,hsplit,ht⟩ := hok hmalloc
      have ht' : Rep ({m.malloc with root := t} : Mm).root
        (pre++({y with stop := start-1} : MemNode)::⟨start,y.stop,y.refcnt⟩::post) := ht
      obtain ⟨t',hstore,ht''⟩ := ht'.store (fun y => {y with refcnt := y.refcnt+inc}) rfl
      refine .inr ⟨{m.malloc with root := t'},pre++[⟨y.start,start-1,y.refcnt+inc⟩],
        ⟨start,y.stop,y.refcnt⟩,?_,⟨by simpa using ht'',?_⟩,rfl,List.tail_suffix _,?_,rfl,?_,?_,?_⟩
      · rw [hsplit]
        simp only [Option.bind_some]
        rw [hstore]
        rfl
      · exact tiles_append.mpr ⟨start,tiles_append.mpr ⟨mid,hpre,tiles_cons.mpr ⟨hmid,
          show y.start ≤ start-1 by omega,tiles_nil.mpr (show start-1+1 = start by omega)⟩⟩,
          tiles_cons.mpr ⟨rfl,hle,hpost⟩⟩
      · exact (Nat.max_eq_left (le_of_lt hlt)).symm
      · intro hge
        omega
      · exact fun _ => ⟨⟨y.start,start-1,y.refcnt+inc⟩,by simp,rfl⟩
      · intro a
        simp only [count_append,count_cons,count_nil,MemNode.weight]
        split_ifs <;> omega
  · rw [if_neg hlt]
    refine .inr ⟨m,pre,y,rfl,h,rfl,List.suffix_refl _,(Nat.max_eq_right (by omega)).symm,rfl,
      fun _ => rfl,fun h => absurd h hlt,fun a => ?_⟩
    rw [if_neg (by omega),add_zero]

/-- The undone node is merged with the one before it, of which `merged` says
whether it has the same count. -/
theorem Holds.undoNode (h : Holds m (pre++y::post)) (hle : start ≤ y.stop) (hinc : inc ≠ 0) :
    (∃ m', undoNode m y.start start inc = some (m',none) ∧ m'.root = m.root ∧ m'.calls = m.calls ∧
      m'.mallocs <:+ m.mallocs ∧ false ∈ m.mallocs) ∨
    ∃ m' pre' w post', undoNode m y.start start inc = some (m',some w.start) ∧
      Holds m' (pre'++w::post') ∧ m'.calls = m.calls ∧ m'.mallocs <:+ m.mallocs ∧
      (start ≤ y.start → (∃ u ∈ pre.getLast?, u.refcnt = y.refcnt) → w.start < y.start) ∧
      ((start ≤ y.start → ∀ u ∈ pre.getLast?, u.refcnt ≠ y.refcnt) → w.start = max start y.start) ∧
      w.start ≤ max start y.start ∧
      ∀ a, count (pre'++w::post') a =
        count (pre++y::post) a+if y.start ≤ a ∧ a < start then inc else 0 := by
  rw [ForkRanges.undoNode]
  rcases h.undoMerge hle inc with ⟨m₁,hnone,hroot,hcalls,hmallocs,hfail⟩ |
    ⟨m₁,pre₁,w₁,hsome,hh₁,hcalls₁,hmallocs₁,hstart₁,hrefcnt₁,hsame,hsplit,hcount₁⟩
  · exact .inl ⟨m₁,by rw [hnone]; rfl,hroot,hcalls,hmallocs,hfail⟩
  · obtain ⟨t,pre₂,w₂,hprev,ht,hjoin⟩ := hh₁.rep.mergePrev w₁.refcnt
    have hh₂ : Holds {m₁ with root := t} (pre₂++w₂::post) := ⟨ht,hjoin.tiles hh₁.tiles⟩
    obtain ⟨t',w₃,post',hnext,ht',hjoin'⟩ := hh₂.rep.mergeNext
    have hstart₂ := hjoin.start_le hh₁.tiles
    have hstart₃ : w₃.start = w₂.start := (hjoin'.count_eq hh₂.tiles 0).2.1
    refine .inr ⟨{m₁ with root := t'},pre₂,w₃,post',?_,⟨ht',hjoin'.tiles hh₂.tiles⟩,hcalls₁,hmallocs₁,
      ?_,?_,by omega,?_⟩
    · rw [hsome]
      simp only [Option.bind_eq_bind,Option.bind_some]
      rw [hh₁.rep.load]
      simp only [Option.bind_some]
      rw [hprev]
      simp only [Option.bind_some]
      rw [hnext]
      rfl
    · -- a node before it with the same count is merged
      rintro hge ⟨u,hu,heq⟩
      rw [hstart₃]
      cases hjoin with
      | kept _ hne =>
        rw [hsame hge] at hne
        exact absurd (by rw [heq,hrefcnt₁]) (hne u hu)
      | merged _ v hv =>
        have hlt := (List.pairwise_append.mp hh₁.tiles.sorted).2.2 v (by simp) w₁ List.mem_cons_self
        have hmax := Nat.max_eq_right hge
        show v.start < y.start
        omega
    · -- otherwise it is kept, also behind what was split from it
      intro hne
      rw [hstart₃,← hstart₁]
      cases hjoin with
      | kept => rfl
      | merged _ v hv =>
        by_cases hge : start ≤ y.start
        · have hpre := hsame hge
          exact absurd (by rw [hv,hrefcnt₁]) (hne hge v (by rw [← hpre]; simp))
        · obtain ⟨u,hu,heq⟩ := hsplit (by omega)
          obtain rfl : v = u := by simpa using hu
          omega
    · intro a
      rw [(hjoin'.count_eq hh₂.tiles a).1,hjoin.count_eq hh₁.tiles,hcount₁]
      split_ifs <;> omega

/-! ## Going back -/

theorem called_ok {c : Call} (hc : c ∈ called start advice x) : c.ok = true := by
  rw [called] at hc
  split at hc
  · obtain rfl := List.mem_singleton.mp hc
    rfl
  · cases hc

/-- A node where `madvise` has failed. -/
theorem Walked.failed_node {p : ℕ} (hb : Begun m m₁ start advice.inc xs pre z post)
    (hw : Walked start stop advice m₁ m' (.failed p) pre (z::post) done todo) (hstop : start ≤ stop) :
    ∃ y rest, todo = y::rest ∧ p = y.start ∧ y.start ≤ stop ∧ start ≤ y.stop ∧
      advises advice y.refcnt = true ∧ Stopped m' start advice.inc xs pre done (y::rest) z y.start ∧
      m'.calls = m.calls++done.flatMap (called start advice)++
        [⟨max start y.start,y.stop,advice,false⟩] := by
  obtain ⟨b,hs⟩ := hw.stopped hb hstop
  obtain ⟨last,hended,hcalls⟩ := hw.ended
  cases hended with
  | failed y rest hys hye hadv =>
    obtain ⟨hyb,hle,-⟩ := tiles_cons.mp hs.todo_tiles
    refine ⟨y,rest,rfl,rfl,hys,?_,hadv,hyb ▸ hs,by rw [hcalls,hb.calls]⟩
    rcases hs.head with rfl | hlt
    · obtain ⟨d,tail,hzs,-,-,hd⟩ := hw.recut.head hb.le_stop hstop
      obtain ⟨rfl,-⟩ := List.cons.inj hzs
      exact hd
    · omega

/-- The second round, which counts back unless something fails again. -/
theorem Holds.rollBack (h : Holds m xs) (hstop : start ≤ stop) (hmax : stop < 2^64) (advice : Advice) :
    ∃ m' xs' cs, rollBack m start stop advice = some m' ∧ Holds m' xs' ∧ m'.calls = m.calls++cs ∧
      (∀ c ∈ cs, start ≤ c.addr ∧ c.last ≤ stop) ∧
      ((∀ c ∈ cs, c.ok = true) → false ∉ m.mallocs → (Exact m xs → Exact m' xs') ∧
        ∀ a, count xs' a = count xs a+if start ≤ a ∧ a ≤ stop then advice.inc else 0) := by
  rw [ForkRanges.rollBack]
  rcases h.pass (lt_of_le_of_lt hstop hmax) stop advice with ⟨m₁,hpass,hroot,hcalls,-,hfail⟩ |
    ⟨m₁,m₂,o,pre,z,post,done,todo,hpass,hb,hw⟩
  · exact ⟨m₁,xs,[],by rw [hpass]; rfl,⟨by rw [hroot]; exact h.rep,h.tiles⟩,by simpa using hcalls,
      by simp,fun _ hmem => absurd hfail hmem⟩
  · rw [hpass]
    simp only [Option.bind_eq_bind,Option.bind_some]
    obtain ⟨cs,hcs,hwithin⟩ := hw.calls_within
    rw [hb.calls] at hcs
    cases o with
    | passed p =>
      obtain ⟨m'',xs',hfinish,hholds,hcalls,hcount,-,hexact⟩ := hw.finished hb hstop hmax
      exact ⟨m'',xs',cs,hfinish,hholds,by rw [hcalls,hcs],hwithin,fun _ _ => ⟨hexact,hcount⟩⟩
    | noMemory =>
      obtain ⟨b,hs⟩ := hw.stopped hb hstop
      refine ⟨m₂,_,cs,rfl,hs.holds,hcs,hwithin,fun _ hmem => ?_⟩
      obtain ⟨last,hended,-⟩ := hw.ended
      cases hended with
      | noMemory _ _ hfail => exact absurd (hb.mallocs.subset hfail) hmem
    | failed p =>
      obtain ⟨y,rest,rfl,rfl,-,hye,-,hs,hcalls⟩ := hw.failed_node hb hstop
      have hno : ¬∀ c ∈ cs, c.ok = true := by
        intro hok
        rw [hcs,List.append_assoc] at hcalls
        have hmem : (⟨max start y.start,y.stop,advice,false⟩ : Call) ∈ cs := by
          rw [List.append_cancel_left hcalls]
          simp
        exact absurd (hok _ hmem) (by simp)
      rcases hs.holds.undoNode hye advice.inc_ne_zero with ⟨m₃,hnone,hroot,hcalls₃,-⟩ |
        ⟨m₃,pre',w,post',hsome,hh,hcalls₃,-⟩
      · exact ⟨m₃,_,cs,by simp [hnone],⟨by rw [hroot]; exact hs.holds.rep,hs.holds.tiles⟩,
          by rw [hcalls₃,hcs],hwithin,fun hok => absurd hok hno⟩
      · exact ⟨m₃,_,cs,by simp [hsome],hh,by rw [hcalls₃,hcs],hwithin,fun hok => absurd hok hno⟩

/-- From the undone node `s` the part behind `start` is counted back. -/
theorem Holds.recover (h : Holds m (pre++y::post)) (hys : y.start ≤ stop) (hmax : stop < 2^64)
    (hle : start ≤ y.stop) (advice : Advice) :
    ∃ m' xs' cs, recover m y.start start advice = some m' ∧ Holds m' xs' ∧ m'.calls = m.calls++cs ∧
      (∀ c ∈ cs, start ≤ c.addr ∧ c.last ≤ stop) ∧
      ((∀ c ∈ cs, c.ok = true) → false ∉ m.mallocs → ∃ s,
        (start ≤ y.start → (∃ u ∈ pre.getLast?, u.refcnt = y.refcnt) → s < y.start) ∧
        ((start ≤ y.start → ∀ u ∈ pre.getLast?, u.refcnt ≠ y.refcnt) → s = max start y.start) ∧
        s ≤ max start y.start ∧ ∀ a, count xs' a = count (pre++y::post) a+
          (if y.start ≤ a ∧ a < start then advice.inc else 0)-
          if start ≤ a ∧ a < s then advice.inc else 0) ∧
      ((∀ c ∈ cs, c.ok = true) → false ∉ m.mallocs →
        (∀ a, keptOut m.calls a = decide (0 < count (pre++y::post) a+
          if y.start ≤ a ∧ a < start then advice.inc else 0)) → Exact m' xs') := by
  rw [ForkRanges.recover]
  rcases h.undoNode hle advice.inc_ne_zero with ⟨m₁,hnone,hroot,hcalls,-,hfail⟩ |
    ⟨m₁,pre₁,w,post₁,hsome,hh₁,hcalls₁,hmallocs₁,hmerged,hkept,hws,hcount₁⟩
  · exact ⟨m₁,_,[],by rw [hnone]; rfl,⟨by rw [hroot]; exact h.rep,h.tiles⟩,by simpa using hcalls,
      by simp,fun _ hmem => absurd hfail hmem,fun _ hmem => absurd hfail hmem⟩
  · rw [hsome]
    simp only [Option.bind_eq_bind,Option.bind_some]
    rw [hh₁.rep.mmPrev]
    simp only [Option.bind_some]
    -- nothing is counted back when the node before the undone one lies before the range
    have hstay : ¬start < w.start → ∃ s,
        (start ≤ y.start → (∃ u ∈ pre.getLast?, u.refcnt = y.refcnt) → s < y.start) ∧
        ((start ≤ y.start → ∀ u ∈ pre.getLast?, u.refcnt ≠ y.refcnt) → s = max start y.start) ∧
        s ≤ max start y.start ∧ ∀ a, count (pre₁++w::post₁) a = count (pre++y::post) a+
          (if y.start ≤ a ∧ a < start then advice.inc else 0)-
          if start ≤ a ∧ a < s then advice.inc else 0 := by
      intro hnot
      refine ⟨w.start,hmerged,hkept,hws,fun a => ?_⟩
      rw [hcount₁,if_neg (c := start ≤ a ∧ a < w.start) (by omega),sub_zero]
    have hexact : (∀ a, keptOut m.calls a = decide (0 < count (pre++y::post) a+
        if y.start ≤ a ∧ a < start then advice.inc else 0)) → Exact m₁ (pre₁++w::post₁) := by
      intro hkeep a
      rw [hcalls₁,hkeep,hcount₁]
    obtain ⟨mid,hpre₁,hrest⟩ := tiles_append.mp hh₁.tiles
    obtain rfl : w.start = mid := (tiles_cons.mp hrest).1
    rcases List.eq_nil_or_concat pre₁ with rfl | ⟨pre₂,u,rfl⟩
    · have hzero := tiles_nil.mp hpre₁
      exact ⟨m₁,_,[],rfl,hh₁,by simpa using hcalls₁,by simp,fun _ _ => hstay (by omega),
        fun _ _ => hexact⟩
    · rw [List.concat_eq_append] at *
      rw [List.getLast?_concat]
      simp only
      obtain ⟨e,-,hu⟩ := tiles_append.mp hpre₁
      have hustop : u.stop+1 = w.start := tiles_nil.mp (tiles_cons.mp hu).2.2
      by_cases hbefore : u.stop < start
      · rw [if_pos hbefore]
        exact ⟨m₁,_,[],rfl,hh₁,by simpa using hcalls₁,by simp,fun _ _ => hstay (by omega),
        fun _ _ => hexact⟩
      · rw [if_neg hbefore]
        obtain ⟨m₂,xs₂,cs,hback,hholds,hcalls,hwithin,hcount⟩ :=
          hh₁.rollBack (Nat.not_lt.mp hbefore) (by omega) advice.flip
        have hmem₁ : false ∉ m.mallocs → false ∉ m₁.mallocs := fun hmem hf => hmem (hmallocs₁.subset hf)
        refine ⟨m₂,xs₂,cs,hback,hholds,by rw [hcalls,hcalls₁],?_,?_,
          fun hok hmem hkeep => (hcount hok (hmem₁ hmem)).1 (hexact hkeep)⟩
        · intro c hc
          have := hwithin c hc
          omega
        · intro hok hmem
          refine ⟨w.start,hmerged,hkept,hws,fun a => ?_⟩
          rw [(hcount hok (hmem₁ hmem)).2,hcount₁]
          have hflip : advice.flip.inc = -advice.inc := by cases advice <;> rfl
          rw [hflip]
          split_ifs <;> omega

/-! ## Whole calls -/

/-- Whatever the answers are, a call returns, and it advises about nothing
outside its range. -/
theorem Holds.adviseRange (h : Holds m xs) (hstop : start ≤ stop) (hmax : stop < 2^64) (advice : Advice) :
    ∃ m' r xs' cs, adviseRange m start stop advice = some (m',r) ∧ (r = 0 ∨ r = -1) ∧ Holds m' xs' ∧
      m'.calls = m.calls++cs ∧ ∀ c ∈ cs, start ≤ c.addr ∧ c.last ≤ stop := by
  rw [ForkRanges.adviseRange]
  rcases h.pass (lt_of_le_of_lt hstop hmax) stop advice with ⟨m₁,hpass,hroot,hcalls,-⟩ |
    ⟨m₁,m₂,o,pre,z,post,done,todo,hpass,hb,hw⟩
  · exact ⟨m₁,-1,xs,[],by rw [hpass]; rfl,.inr rfl,⟨by rw [hroot]; exact h.rep,h.tiles⟩,
      by simpa using hcalls,by simp⟩
  · rw [hpass]
    simp only [Option.bind_eq_bind,Option.bind_some]
    obtain ⟨cs,hcs,hwithin⟩ := hw.calls_within
    rw [hb.calls] at hcs
    cases o with
    | passed p =>
      obtain ⟨m'',xs',hfinish,hholds,hcalls,-⟩ := hw.finished hb hstop hmax
      exact ⟨m'',0,xs',cs,by simp [hfinish],.inl rfl,hholds,by rw [hcalls,hcs],hwithin⟩
    | noMemory =>
      obtain ⟨b,hs⟩ := hw.stopped hb hstop
      exact ⟨m₂,-1,_,cs,rfl,.inr rfl,hs.holds,hcs,hwithin⟩
    | failed p =>
      obtain ⟨y,rest,rfl,rfl,hys,hye,-,hs,-⟩ := hw.failed_node hb hstop
      obtain ⟨m₃,xs₃,ds,hrecover,hholds,hds,hwithin',-⟩ := hs.holds.recover hys hmax hye advice
      refine ⟨m₃,-1,xs₃,cs++ds,by simp [hrecover],.inr rfl,hholds,by rw [hds,hcs,List.append_assoc],?_⟩
      intro c hc
      rcases List.mem_append.mp hc with hc | hc
      · exact hwithin c hc
      · exact hwithin' c hc

/-- What is left of the counts of a round that was undone from `s` on. -/
theorem Stopped.restored_iff (hs : Stopped m' start inc xs pre done (y::post) z y.start)
    (hz : z.start ≤ start) (hinc : inc ≠ 0) {s : ℕ} {zs : List MemNode}
    (hmerged : start ≤ y.start → (∃ u ∈ (pre++done.map (·.bump inc)).getLast?, u.refcnt = y.refcnt) →
      s < y.start)
    (hkept : (start ≤ y.start → ∀ u ∈ (pre++done.map (·.bump inc)).getLast?, u.refcnt ≠ y.refcnt) →
      s = max start y.start)
    (hsle : s ≤ max start y.start)
    (hzs : ∀ a, count zs a = count (pre++done.map (·.bump inc)++y::post) a+
      (if y.start ≤ a ∧ a < start then inc else 0)-if start ≤ a ∧ a < s then inc else 0) :
    (∀ a, count zs a = count xs a) ↔ max start y.start = start ∨
      count xs (max start y.start-1)+inc ≠ count xs (max start y.start) := by
  have hcount := hs.count_eq
  rcases hs.head with rfl | hlt
  · -- the first node failed
    have hy := tiles_nil.mp hs.done_tiles
    have hmax : max start y.start = start := Nat.max_eq_left (by omega)
    refine ⟨fun _ => .inl hmax,fun _ a => ?_⟩
    rw [hzs,hcount,← hy]
    split_ifs <;> omega
  · have hmax : max start y.start = y.start := Nat.max_eq_right (by omega)
    rw [hmax] at hkept hsle ⊢
    obtain ⟨d,hd⟩ : ∃ d, (pre++done.map (·.bump inc)).getLast? = some d := by
      cases done with
      | nil =>
        have := tiles_nil.mp hs.done_tiles
        omega
      | cons d done => exact ⟨_,List.getLast?_eq_some_getLast (by simp)⟩
    -- the node before it holds the address before its own
    obtain ⟨front,hfront⟩ := List.getLast?_eq_some_iff.mp hd
    have htiles := hs.holds.tiles
    have hcount₁ := hcount (y.start-1)
    have hcount₂ := hcount y.start
    rw [hs.holds.tiles.count_eq (by have := tiles_cons.mp hs.todo_tiles; omega)] at hcount₂
    rw [hfront,List.append_assoc,List.singleton_append] at htiles hcount₁
    obtain ⟨e,hf,hrest⟩ := tiles_append.mp htiles
    obtain ⟨-,hdle,hy⟩ := tiles_cons.mp hrest
    have hdstop : y.start = d.stop+1 := (tiles_cons.mp hy).1
    rw [htiles.count_eq (by omega),if_neg (by omega),if_pos (by omega)] at hcount₁
    rw [if_neg (by omega),if_neg (by omega)] at hcount₂
    constructor
    · intro hsame
      refine .inr fun heq => ?_
      have hslt := hmerged (by omega) ⟨d,hd,by omega⟩
      have hbad := hsame (y.start-1)
      rw [hzs,hcount,if_neg (by omega),if_pos (by omega),if_neg (by omega),if_neg (by omega)] at hbad
      omega
    · rintro (heq | hne) a
      · omega
      · have hseq : s = y.start := by
          refine hkept fun _ u hu hucount => hne ?_
          obtain rfl : d = u := by simpa [hd] using hu
          omega
        rw [hzs,hcount,hseq]
        split_ifs <;> omega

/-- When one `madvise` fails, the counts are as before the call unless the
addresses before the failing ones have their count now. -/
theorem Holds.adviseRange_failed (h : Holds m xs) (hstop : start ≤ stop) (hmax : stop < 2^64)
    (hret : ForkRanges.adviseRange m start stop advice = some (m',-1)) (hmem : false ∉ m.mallocs)
    {cs : List Call} {f : Call} (hcs : m'.calls = m.calls++cs)
    (hone : cs.filter (fun c => !c.ok) = [f]) : ∃ xs', Holds m' xs' ∧ (Exact m xs → Exact m' xs') ∧
      start ≤ f.addr ∧ f.addr ≤ stop ∧ advises advice (count xs f.addr) = true ∧
      ((∀ a, count xs' a = count xs a) ↔
        f.addr = start ∨ count xs (f.addr-1)+advice.inc ≠ count xs f.addr) := by
  rw [ForkRanges.adviseRange] at hret
  rcases h.pass (lt_of_le_of_lt hstop hmax) stop advice with ⟨m₁,hpass,-,-,-,hfail⟩ |
    ⟨m₁,m₂,o,pre,z,post,done,todo,hpass,hb,hw⟩
  · exact absurd hfail hmem
  · rw [hpass] at hret
    simp only [Option.bind_eq_bind,Option.bind_some] at hret
    cases o with
    | passed p =>
      obtain ⟨m₃,-,heq⟩ := Option.map_eq_some_iff.mp hret
      cases heq
    | noMemory =>
      obtain ⟨last,hended,-⟩ := hw.ended
      cases hended with
      | noMemory _ _ hfail => exact absurd (hb.mallocs.subset hfail) hmem
    | failed p =>
      obtain ⟨y,rest,rfl,rfl,hys,hye,hadv,hs,hcalls⟩ := hw.failed_node hb hstop
      obtain ⟨m₃,xs₃,ds,hrecover,hholds,hds,-,hcount,hexact⟩ := hs.holds.recover hys hmax hye advice
      simp only [hrecover,Option.map_some,Option.some.injEq,Prod.mk.injEq,and_true] at hret
      subst hret
      -- the failing call is the one of the round, and going back did not fail
      rw [hds,hcalls,List.append_assoc,List.append_assoc] at hcs
      obtain rfl := List.append_cancel_left hcs
      have hdone : (done.flatMap (called start advice)).filter (fun c => !c.ok) = [] := by
        refine List.filter_eq_nil_iff.mpr fun c hc => ?_
        obtain ⟨x,-,hc⟩ := List.mem_flatMap.mp hc
        simp [called_ok hc]
      rw [List.filter_append,hdone,List.nil_append,List.singleton_append,
        List.filter_cons_of_pos (by rfl)] at hone
      obtain ⟨rfl,hds'⟩ := List.cons.inj hone
      have hok : ∀ c ∈ ds, c.ok = true := fun c hc => by
        simpa using List.filter_eq_nil_iff.mp hds' c hc
      have hmem₂ : false ∉ m₂.mallocs := fun hf => hmem (hb.mallocs.subset (hw.mallocs.subset hf))
      obtain ⟨s,hmerged,hkept,hsle,hfinal⟩ := hcount hok hmem₂
      have hz := hb.start_le
      have hhead : y.start = z.start ∨ start < y.start :=
        hs.head.imp (fun hnil => (tiles_nil.mp (hnil ▸ hs.done_tiles)).symm) id
      refine ⟨xs₃,hholds,fun h => hexact hok hmem₂ fun a => ?_,Nat.le_max_left _ _,
        Nat.max_le.mpr ⟨hstop,hys⟩,?_,
        hs.restored_iff hb.start_le advice.inc_ne_zero hmerged hkept hsle hfinal⟩
      · rw [hcalls,keptOut_append,hs.keptOut_eq hb h,hs.count_eq]
        exact decide_eq_decide.mpr (by split_ifs <;> omega)
      · have hcount := hs.count_eq (max start y.start)
        have hyle := (tiles_cons.mp hs.todo_tiles).2.1
        rw [hs.holds.tiles.count_eq ⟨Nat.le_max_right _ _,Nat.max_le.mpr ⟨hye,hyle⟩⟩,
          if_neg (by omega),if_neg (by omega)] at hcount
        rw [show count xs (max start y.start) = y.refcnt by omega]
        exact hadv

end FreeFlow.ForkRanges
