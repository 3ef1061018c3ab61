import FreeFlow.ForkRanges
import FreeFlow.RedBlackBalance
import FreeFlow.LaidOut
import Mathlib.Data.List.Chain

/-!
# The tree of ranges as a list

The nodes in order tile a part of the address space. Each operation on the tree
is an operation on the list at the node it is given, and none of them meets a
null pointer.
-/

set_option autoImplicit false

namespace FreeFlow.ForkRanges

open RedBlack (RbTree locate locate_split locate_fill Located Balanced Sorted)
open RedBlack.RbTree
open LaidOut

/-! ## Lists of nodes -/

/-- The ranges follow one another from `lo` up to `hi`. -/
def Tiles (lo : ℕ) (xs : List MemNode) (hi : ℕ) : Prop :=
  Laid (fun _ x => x.stop+1) (fun b x => x.start = b ∧ x.start ≤ x.stop) lo xs hi

variable {lo mid hi : ℕ} {xs ys pre post : List MemNode} {x y : MemNode}

theorem tiles_nil : Tiles lo [] hi ↔ lo = hi := by
  constructor
  · intro h
    cases h
    rfl
  · rintro rfl
    exact .nil lo

theorem tiles_cons : Tiles lo (x::xs) hi ↔ x.start = lo ∧ x.start ≤ x.stop ∧ Tiles (x.stop+1) xs hi := by
  rw [Tiles,laid_cons,and_assoc]
  rfl

theorem tiles_append : Tiles lo (xs++ys) hi ↔ ∃ mid, Tiles lo xs mid ∧ Tiles mid ys hi := laid_append

theorem Tiles.le (h : Tiles lo xs hi) : lo ≤ hi := by
  induction xs generalizing lo with
  | nil => exact le_of_eq (tiles_nil.mp h)
  | cons x xs ih =>
    obtain ⟨hstart,hle,hxs⟩ := tiles_cons.mp h
    have := ih hxs
    omega

theorem Tiles.bounds (h : Tiles lo xs hi) (hx : x ∈ xs) :
    lo ≤ x.start ∧ x.start ≤ x.stop ∧ x.stop < hi := by
  induction xs generalizing lo with
  | nil => cases hx
  | cons y xs ih =>
    obtain ⟨hstart,hle,hxs⟩ := tiles_cons.mp h
    have hend := hxs.le
    rcases List.mem_cons.mp hx with rfl | hx
    · omega
    · have := ih hxs hx
      omega

theorem Tiles.sorted (h : Tiles lo xs hi) : Sorted MemNode.start xs := by
  induction xs generalizing lo with
  | nil => exact List.Pairwise.nil
  | cons x xs ih =>
    obtain ⟨hstart,hle,hxs⟩ := tiles_cons.mp h
    refine List.pairwise_cons.mpr ⟨fun y hy => ?_,ih hxs⟩
    have := hxs.bounds hy
    omega

/-- What a range counts for an address. -/
def MemNode.weight (x : MemNode) (a : ℕ) : ℤ := if x.start ≤ a ∧ a ≤ x.stop then x.refcnt else 0

/-- The count of an address. -/
def count (xs : List MemNode) (a : ℕ) : ℤ := (xs.map fun x => x.weight a).sum

@[simp] theorem count_nil (a : ℕ) : count [] a = 0 := rfl

@[simp] theorem count_cons (a : ℕ) : count (x::xs) a = x.weight a+count xs a := by
  rw [count,List.map_cons,List.sum_cons]
  rfl

@[simp] theorem count_append (a : ℕ) : count (xs++ys) a = count xs a+count ys a := by
  rw [count,List.map_append,List.sum_append]
  rfl

theorem MemNode.weight_of_mem {a : ℕ} (h : x.start ≤ a ∧ a ≤ x.stop) : x.weight a = x.refcnt := if_pos h

theorem MemNode.weight_of_not_mem {a : ℕ} (h : ¬(x.start ≤ a ∧ a ≤ x.stop)) : x.weight a = 0 := if_neg h

/-- No address outside a tiling is counted. -/
theorem Tiles.count_outside (h : Tiles lo xs hi) {a : ℕ} (ha : a < lo ∨ hi ≤ a) : count xs a = 0 := by
  induction xs generalizing lo with
  | nil => rfl
  | cons x xs ih =>
    obtain ⟨hstart,hle,hxs⟩ := tiles_cons.mp h
    have hend := hxs.le
    rw [count_cons,ih hxs (by omega),MemNode.weight_of_not_mem (by omega)]
    rfl

/-- The count of an address is that of the range it lies in. -/
theorem Tiles.count_eq (h : Tiles lo (pre++x::post) hi) {a : ℕ} (ha : x.start ≤ a ∧ a ≤ x.stop) :
    count (pre++x::post) a = x.refcnt := by
  obtain ⟨mid,hpre,hrest⟩ := tiles_append.mp h
  obtain ⟨hstart,hle,hpost⟩ := tiles_cons.mp hrest
  rw [count_append,count_cons,hpre.count_outside (by omega),hpost.count_outside (by omega),
    MemNode.weight_of_mem ha]
  omega

/-- Neighbours have different counts. -/
def Apart (xs : List MemNode) : Prop := xs.IsChain fun x y => x.refcnt ≠ y.refcnt

theorem Apart.cons_congr (h : Apart (x::post)) (hy : y.refcnt = x.refcnt) : Apart (y::post) := by
  obtain ⟨hhead,htail⟩ := List.isChain_cons.mp h
  exact List.isChain_cons.mpr ⟨fun w hw => by rw [hy]; exact hhead w hw,htail⟩

/-! ## The tree -/

/-- A balanced tree with the given nodes. -/
structure Rep (t : RbTree MemNode) (xs : List MemNode) : Prop where
  balanced : Balanced t
  nodes : t.toList = xs
  sorted : Sorted MemNode.start xs

variable {m : Mm}

theorem Rep.located (h : Rep m.root (pre++x::post)) : ∃ z : Located MemNode,
    locate MemNode.start x.start m.root [] = some z ∧ z.value = x ∧ z.smaller = pre ∧
      z.larger = post := by
  have hsorted := h.sorted
  rw [← h.nodes] at hsorted
  obtain ⟨z,hz,-,hx,hpre,hpost⟩ := locate_split m.root hsorted h.nodes
  exact ⟨z,hz,hx,hpre,hpost⟩

theorem Rep.load (h : Rep m.root (pre++x::post)) : m.load x.start = some x := by
  obtain ⟨z,hz,hx,-⟩ := h.located
  rw [Mm.load,hz,Option.map_some,hx]

theorem Rep.mmPrev (h : Rep m.root (pre++x::post)) : mmPrev m x.start = some pre.getLast? := by
  obtain ⟨z,hz,-,hpre,-⟩ := h.located
  rw [ForkRanges.mmPrev,hz,Option.map_some,z.prev_eq,hpre]

theorem Rep.mmNext (h : Rep m.root (pre++x::post)) : mmNext m x.start = some post.head? := by
  obtain ⟨z,hz,-,-,hpost⟩ := h.located
  rw [ForkRanges.mmNext,hz,Option.map_some,z.next_eq,hpost]

theorem Rep.store (h : Rep m.root (pre++x::post)) (f : MemNode → MemNode) (hf : (f x).start = x.start) :
    ∃ t, m.store x.start f = some {m with root := t} ∧ Rep t (pre++f x::post) := by
  obtain ⟨z,hz,hx,hpre,hpost⟩ := h.located
  refine ⟨z.modify f,by rw [Mm.store,hz,Option.map_some],
    RedBlack.locate_modify_balanced h.balanced f hz,?_,?_⟩
  · rw [z.toList_modify,hpre,hx,hpost]
  · have hmap : (pre++f x::post).map MemNode.start = (pre++x::post).map MemNode.start := by simp [hf]
    have hsorted := h.sorted
    rw [Sorted,← List.pairwise_map] at hsorted ⊢
    rw [hmap]
    exact hsorted

theorem Rep.mmRemove (h : Rep m.root (pre++x::post)) :
    ∃ t, mmRemove m x.start = some {m with root := t} ∧ Rep t (pre++post) := by
  obtain ⟨z,hz,hx,hpre,hpost⟩ := h.located
  obtain ⟨t,ht,hbal⟩ := RedBlack.locate_remove_balanced h.balanced hz
  refine ⟨t,by rw [ForkRanges.mmRemove,hz,Option.bind_some,ht,Option.map_some],hbal,?_,?_⟩
  · rw [z.toList_remove ht,hpre,hpost]
  · exact h.sorted.sublist ((List.Sublist.refl pre).append (List.sublist_cons_self x post))

theorem Rep.mmAdd (h : Rep m.root (pre++post)) (new : MemNode) (hne : pre++post ≠ [])
    (hpre : ∀ x ∈ pre, x.start < new.start) (hpost : ∀ x ∈ post, new.start < x.start) :
    ∃ t, mmAdd m new = some {m with root := t} ∧ Rep t (pre++new::post) := by
  have hleaf : m.root ≠ leaf := by
    intro hleaf
    have hnodes := h.nodes
    rw [hleaf] at hnodes
    exact hne hnodes.symm
  obtain ⟨t,ht,hbal⟩ := RedBlack.add_balanced (fun x => decide (x.start < new.start)) new h.balanced hleaf
  refine ⟨t,by rw [ForkRanges.mmAdd,ht,Option.map_some],hbal,?_,?_⟩
  · have hmono : m.root.toList.Pairwise fun x y =>
        decide (y.start < new.start) = true → decide (x.start < new.start) = true := by
      rw [h.nodes]
      refine h.sorted.imp fun hlt hy => ?_
      simp only [decide_eq_true_eq] at hy ⊢
      omega
    rw [RedBlack.toList_add _ _ _ hmono ht,h.nodes,List.filter_append,List.filter_append]
    have hall : pre.filter (fun x => decide (x.start < new.start)) = pre :=
      List.filter_eq_self.mpr fun x hx => decide_eq_true (hpre x hx)
    have hnone : post.filter (fun x => decide (x.start < new.start)) = [] := by
      refine List.filter_eq_nil_iff.mpr fun x hx => ?_
      have := hpost x hx
      simp only [decide_eq_true_eq]
      omega
    have hnone' : pre.filter (fun x => !decide (x.start < new.start)) = [] := by
      refine List.filter_eq_nil_iff.mpr fun x hx => ?_
      simp [hpre x hx]
    have hall' : post.filter (fun x => !decide (x.start < new.start)) = post := by
      refine List.filter_eq_self.mpr fun x hx => ?_
      have := hpost x hx
      simp only [Bool.not_eq_true',decide_eq_false_iff_not]
      omega
    rw [hall,hnone,hnone',hall',List.append_nil,List.nil_append]
  · obtain ⟨hp,hq,hpq⟩ := List.pairwise_append.mp h.sorted
    refine List.pairwise_append.mpr ⟨hp,List.pairwise_cons.mpr ⟨hpost,hq⟩,fun x hx y hy => ?_⟩
    rcases List.mem_cons.mp hy with rfl | hy
    · exact hpre x hx
    · exact hpq x hx y hy

/-- The search for the range of an address. -/
theorem mmFindStart_spec (t : RbTree MemNode) {start : ℕ} (h : Tiles lo t.toList hi) (hlo : lo ≤ start)
    (hhi : start < hi) : ∃ pre x post, mmFindStart start t = some x ∧ t.toList = pre++x::post ∧
      x.start ≤ start ∧ start ≤ x.stop := by
  induction t generalizing lo hi with
  | leaf =>
    have := tiles_nil.mp h
    omega
  | node c l y r ihl ihr =>
    obtain ⟨mid,hl,hyr⟩ := tiles_append.mp h
    obtain ⟨hstart,hle,hr⟩ := tiles_cons.mp hyr
    rw [mmFindStart]
    by_cases hin : y.start ≤ start ∧ start ≤ y.stop
    · exact ⟨l.toList,y,r.toList,if_pos hin,rfl,hin⟩
    · rw [if_neg hin]
      by_cases hright : y.start < start
      · rw [if_pos hright]
        obtain ⟨pre,x,post,hfind,hsplit,hx⟩ := ihr hr (by omega) hhi
        exact ⟨l.toList++y::pre,x,post,hfind,by simp [toList,hsplit],hx⟩
      · rw [if_neg hright]
        obtain ⟨pre,x,post,hfind,hsplit,hx⟩ := ihl hl hlo (by omega)
        exact ⟨pre,x,post++y::r.toList,hfind,by simp [toList,hsplit],hx⟩

/-! ## Splitting and merging -/

theorem Rep.mergeRanges (h : Rep m.root (pre++y::x::post)) :
    ∃ t, mergeRanges m x.start y.start = some ({m with root := t},y.start) ∧
      Rep t (pre++{y with stop := x.stop,refcnt := x.refcnt}::post) := by
  have hx : Rep m.root ((pre++[y])++x::post) := by simpa using h
  obtain ⟨t,hstore,ht⟩ := h.store (fun y => {y with stop := x.stop,refcnt := x.refcnt}) rfl
  have ht' : Rep ({m with root := t} : Mm).root
      ((pre++[{y with stop := x.stop,refcnt := x.refcnt}])++x::post) := by simpa using ht
  obtain ⟨t',hremove,ht''⟩ := ht'.mmRemove
  refine ⟨t',?_,by simpa using ht''⟩
  simp [ForkRanges.mergeRanges,hx.load,hstore,hremove]

theorem Rep.splitRange (h : Rep m.root (pre++x::post)) {cut : ℕ} (hcut : x.start < cut)
    (hpost : ∀ z ∈ post, cut < z.start) :
    (m.mallocs.headD true = false → splitRange m x.start cut = some (m.malloc,none)) ∧
      (m.mallocs.headD true = true →
        ∃ t, splitRange m x.start cut = some ({m.malloc with root := t},some cut) ∧
          Rep t (pre++{x with stop := cut-1}::⟨cut,x.stop,x.refcnt⟩::post)) := by
  constructor
  · intro hfail
    rw [ForkRanges.splitRange,if_neg (by rw [hfail]; decide)]
  · intro hok
    have hmalloc : Rep m.malloc.root (pre++x::post) := h
    obtain ⟨t,hstore,ht⟩ := hmalloc.store (fun y => {y with stop := cut-1}) rfl
    have ht' : Rep ({m.malloc with root := t} : Mm).root ((pre++[{x with stop := cut-1}])++post) := by
      simpa using ht
    have hpre : ∀ z ∈ pre++[{x with stop := cut-1}], z.start < cut := by
      intro z hz
      rcases List.mem_append.mp hz with hz | hz
      · exact lt_trans ((List.pairwise_append.mp h.sorted).2.2 z hz x List.mem_cons_self) hcut
      · rw [List.mem_singleton.mp hz]
        exact hcut
    obtain ⟨t',hadd,ht''⟩ := ht'.mmAdd ⟨cut,x.stop,x.refcnt⟩ (by simp) hpre hpost
    refine ⟨t',?_,by simpa using ht''⟩
    rw [ForkRanges.splitRange,if_pos hok]
    simp [h.load,hstore,hadd]

/-- A node before `x` is merged with it when it has the count `c`. -/
inductive JoinedPrev (c : ℤ) (x : MemNode) : List MemNode → List MemNode → MemNode → Prop
  | kept (pre : List MemNode) (h : ∀ y ∈ pre.getLast?, y.refcnt ≠ c) : JoinedPrev c x pre pre x
  | merged (pre : List MemNode) (y : MemNode) (h : y.refcnt = c) :
      JoinedPrev c x (pre++[y]) pre {y with stop := x.stop,refcnt := x.refcnt}

theorem Rep.mergePrev (h : Rep m.root (pre++x::post)) (c : ℤ) :
    ∃ t pre' z, mergePrev m x.start c = some ({m with root := t},z.start) ∧ Rep t (pre'++z::post) ∧
      JoinedPrev c x pre pre' z := by
  rw [ForkRanges.mergePrev,h.mmPrev]
  rcases List.eq_nil_or_concat pre with rfl | ⟨pre,y,rfl⟩
  · exact ⟨m.root,[],x,rfl,h,.kept [] (by simp)⟩
  · rw [List.concat_eq_append] at h ⊢
    rw [List.getLast?_concat]
    simp only [Option.bind_eq_bind,Option.bind_some]
    by_cases hc : y.refcnt = c
    · obtain ⟨t,hmerge,ht⟩ := Rep.mergeRanges (by simpa using h : Rep m.root (pre++y::x::post))
      rw [if_pos hc]
      exact ⟨t,pre,{y with stop := x.stop,refcnt := x.refcnt},hmerge,ht,.merged pre y hc⟩
    · rw [if_neg hc]
      exact ⟨m.root,pre++[y],x,rfl,h,.kept _ (by simpa using hc)⟩

theorem JoinedPrev.tiles {c : ℤ} {pre' : List MemNode} {z : MemNode} (h : JoinedPrev c x pre pre' z)
    (ht : Tiles lo (pre++x::post) hi) : Tiles lo (pre'++z::post) hi := by
  cases h with
  | kept _ h => exact ht
  | merged _ y h =>
    rw [List.append_assoc] at ht
    obtain ⟨mid,hpre,hrest⟩ := tiles_append.mp ht
    obtain ⟨hstart,hle,hx⟩ := tiles_cons.mp hrest
    obtain ⟨hstart',hle',hpost⟩ := tiles_cons.mp hx
    exact tiles_append.mpr ⟨mid,hpre,tiles_cons.mpr ⟨hstart,show y.start ≤ x.stop by omega,hpost⟩⟩

/-- Merging takes the count of the later node for both. -/
theorem JoinedPrev.count_eq {c : ℤ} {pre' : List MemNode} {z : MemNode} (h : JoinedPrev c x pre pre' z)
    (ht : Tiles lo (pre++x::post) hi) (a : ℕ) :
    count (pre'++z::post) a = count (pre++x::post) a+
      if z.start ≤ a ∧ a < x.start then x.refcnt-c else 0 := by
  cases h with
  | kept _ h =>
    rw [if_neg (by omega)]
    omega
  | merged _ y h =>
    rw [List.append_assoc] at ht
    obtain ⟨mid,hpre,hrest⟩ := tiles_append.mp ht
    obtain ⟨hstart,hle,hx⟩ := tiles_cons.mp hrest
    obtain ⟨hstart',hle',hpost⟩ := tiles_cons.mp hx
    simp only [count_append,count_cons,count_nil,MemNode.weight]
    split_ifs <;> omega

theorem JoinedPrev.start_le {c : ℤ} {pre' : List MemNode} {z : MemNode} (h : JoinedPrev c x pre pre' z)
    (ht : Tiles lo (pre++x::post) hi) : z.start ≤ x.start ∧ z.stop = x.stop ∧ z.refcnt = x.refcnt := by
  cases h with
  | kept _ h => exact ⟨le_refl _,rfl,rfl⟩
  | merged _ y h =>
    have hle := ((List.pairwise_append.mp ht.sorted).2.2 y (by simp) x List.mem_cons_self)
    exact ⟨le_of_lt hle,rfl,rfl⟩

/-- The node behind `x` is merged with it when it has the same count. -/
inductive JoinedNext (x : MemNode) : List MemNode → MemNode → List MemNode → Prop
  | kept (post : List MemNode) : JoinedNext x post x post
  | merged (y : MemNode) (post : List MemNode) (h : y.refcnt = x.refcnt) :
      JoinedNext x (y::post) {x with stop := y.stop,refcnt := y.refcnt} post

theorem Rep.mergeNext (h : Rep m.root (pre++x::post)) :
    ∃ t z post', mergeNext m x.start = some ({m with root := t},z.start) ∧ Rep t (pre++z::post') ∧
      JoinedNext x post z post' := by
  rw [ForkRanges.mergeNext,h.load,h.mmNext]
  simp only [Option.bind_eq_bind,Option.bind_some]
  cases post with
  | nil => exact ⟨m.root,x,[],rfl,h,.kept []⟩
  | cons y post =>
    by_cases hc : y.refcnt = x.refcnt
    · obtain ⟨t,hmerge,ht⟩ := h.mergeRanges
      simp only [List.head?_cons]
      rw [if_pos hc]
      exact ⟨t,{x with stop := y.stop,refcnt := y.refcnt},post,hmerge,ht,.merged y post hc⟩
    · simp only [List.head?_cons]
      rw [if_neg hc]
      exact ⟨m.root,x,_,rfl,h,.kept _⟩

theorem JoinedNext.tiles {z : MemNode} {post' : List MemNode} (h : JoinedNext x post z post')
    (ht : Tiles lo (pre++x::post) hi) : Tiles lo (pre++z::post') hi := by
  cases h with
  | kept => exact ht
  | merged y _ h =>
    obtain ⟨mid,hpre,hrest⟩ := tiles_append.mp ht
    obtain ⟨hstart,hle,hy⟩ := tiles_cons.mp hrest
    obtain ⟨hstart',hle',hpost⟩ := tiles_cons.mp hy
    exact tiles_append.mpr ⟨mid,hpre,tiles_cons.mpr ⟨hstart,show x.start ≤ y.stop by omega,hpost⟩⟩

theorem JoinedNext.count_eq {z : MemNode} {post' : List MemNode} (h : JoinedNext x post z post')
    (ht : Tiles lo (pre++x::post) hi) (a : ℕ) :
    count (pre++z::post') a = count (pre++x::post) a ∧ z.start = x.start ∧ x.stop ≤ z.stop := by
  cases h with
  | kept => exact ⟨rfl,rfl,le_refl _⟩
  | merged y _ h =>
    obtain ⟨mid,hpre,hrest⟩ := tiles_append.mp ht
    obtain ⟨hstart,hle,hy⟩ := tiles_cons.mp hrest
    obtain ⟨hstart',hle',hpost⟩ := tiles_cons.mp hy
    refine ⟨?_,rfl,show x.stop ≤ y.stop by omega⟩
    simp only [count_append,count_cons,MemNode.weight]
    split_ifs <;> omega

end FreeFlow.ForkRanges
