import Mathlib.Data.List.Basic
import Mathlib.Order.Lattice

/-!
# Red-black trees with parent links

A node that knows its parent is a position in the tree: the subtree at it and
the path from its parent to the root. Insertion and removal change the tree at
a position and repair the colours on the way up. A step that would follow a
missing child or parent has no result.

`near` and `far` are the children of a node on the side of a given child and on
the other side, so that each case of an algorithm stands for its mirror image
too.
-/

set_option autoImplicit false

namespace RedBlack

variable {α κ : Type*}

inductive Color
  | red
  | black
  deriving DecidableEq

inductive RbTree (α : Type*)
  | leaf
  | node (color : Color) (left : RbTree α) (value : α) (right : RbTree α)
  deriving DecidableEq

namespace RbTree

/-- The values in order. -/
def toList : RbTree α → List α
  | leaf => []
  | node _ l x r => l.toList++x::r.toList

def isRed : RbTree α → Bool
  | node .red _ _ _ => true
  | _ => false

def paint (c : Color) : RbTree α → RbTree α
  | leaf => leaf
  | node _ l x r => node c l x r

@[simp] theorem toList_paint (c : Color) (t : RbTree α) : (t.paint c).toList = t.toList := by
  cases t <;> rfl

def rotateLeft : RbTree α → Option (RbTree α)
  | node c a x (node d b y e) => some (node d (node c a x b) y e)
  | _ => none

def rotateRight : RbTree α → Option (RbTree α)
  | node c (node d a x b) y e => some (node d a x (node c b y e))
  | _ => none

def rotate (left : Bool) (t : RbTree α) : Option (RbTree α) :=
  if left then t.rotateLeft else t.rotateRight

theorem toList_rotate (left : Bool) (t : RbTree α) {t' : RbTree α} (h : t.rotate left = some t') :
    t'.toList = t.toList := by
  cases left with
  | true =>
    match t, h with
    | node c a x (node d b y e), h =>
      cases h
      simp [toList]
  | false =>
    match t, h with
    | node c (node d a x b) y e, h =>
      cases h
      simp [toList]

/-- A node by its children on the two sides. -/
def join (left : Bool) (c : Color) (near : RbTree α) (x : α) (far : RbTree α) : RbTree α :=
  if left then node c near x far else node c far x near

/-- The child on a side. -/
def side (left : Bool) (l r : RbTree α) : RbTree α := if left then l else r

theorem join_side (left : Bool) (c : Color) (l : RbTree α) (x : α) (r : RbTree α) :
    join left c (side left l r) x (side (!left) l r) = node c l x r := by
  cases left <;> rfl

/-- The far child of a node gets black. -/
def blackenFar (left : Bool) : RbTree α → RbTree α
  | leaf => leaf
  | node c l x r => if left then node c l x (r.paint .black) else node c (l.paint .black) x r

@[simp] theorem toList_blackenFar (left : Bool) (t : RbTree α) :
    (t.blackenFar left).toList = t.toList := by
  cases t with
  | leaf => rfl
  | node c l x r => cases left <;> simp [blackenFar,toList]

end RbTree

open RbTree

/-! ## Positions -/

/-- A node above a position, without the subtree that holds the position. -/
structure Frame (α : Type*) where
  color : Color
  left : Bool
  value : α
  sibling : RbTree α

/-- The nodes above a position, the parent first. -/
abbrev Path (α : Type*) := List (Frame α)

def Frame.plug (f : Frame α) (t : RbTree α) : RbTree α := join f.left f.color t f.value f.sibling

def fill (t : RbTree α) : Path α → RbTree α
  | [] => t
  | f::p => fill (f.plug t) p

/-- The values before a position. -/
def before : Path α → List α
  | [] => []
  | f::p => before p++if f.left then [] else f.sibling.toList++[f.value]

/-- The values behind a position. -/
def after : Path α → List α
  | [] => []
  | f::p => (if f.left then f.value::f.sibling.toList else [])++after p

theorem toList_join_append (f : Frame α) (p : Path α) (t s : RbTree α) (c : Color)
    (hs : s.toList = f.sibling.toList) :
    before p++(join f.left c t f.value s).toList++after p = before (f::p)++t.toList++after (f::p) := by
  cases hleft : f.left <;> simp [join,toList,before,after,hleft,hs]

theorem toList_plug_append (f : Frame α) (p : Path α) (t : RbTree α) :
    before p++(f.plug t).toList++after p = before (f::p)++t.toList++after (f::p) :=
  toList_join_append f p t f.sibling f.color rfl

theorem toList_fill (t : RbTree α) (p : Path α) : (fill t p).toList = before p++t.toList++after p := by
  induction p generalizing t with
  | nil => simp [fill,before,after]
  | cons f p ih => rw [fill,ih,toList_plug_append]

theorem before_append (p q : Path α) : before (p++q) = before q++before p := by
  induction p with
  | nil => simp [before]
  | cons f p ih => rw [List.cons_append,before,before,ih,List.append_assoc]

theorem after_append (p q : Path α) : after (p++q) = after p++after q := by
  induction p with
  | nil => rfl
  | cons f p ih => rw [List.cons_append,after,after,ih,List.append_assoc]

/-- A node with the path to it. -/
structure Located (α : Type*) where
  color : Color
  left : RbTree α
  value : α
  right : RbTree α
  path : Path α

def Located.subtree (z : Located α) : RbTree α := node z.color z.left z.value z.right

/-- The values before a node and behind it. -/
def Located.smaller (z : Located α) : List α := before z.path++z.left.toList
def Located.larger (z : Located α) : List α := z.right.toList++after z.path

theorem Located.toList_fill (z : Located α) :
    (fill z.subtree z.path).toList = z.smaller++z.value::z.larger := by
  simp [RedBlack.toList_fill,Located.subtree,Located.smaller,Located.larger,toList]

/-- Another value at a node. -/
def Located.modify (f : α → α) (z : Located α) : RbTree α :=
  fill (node z.color z.left (f z.value) z.right) z.path

theorem Located.toList_modify (f : α → α) (z : Located α) :
    (z.modify f).toList = z.smaller++f z.value::z.larger := by
  simp [RedBlack.toList_fill,Located.modify,Located.smaller,Located.larger,toList]

/-! ## Neighbours -/

/-- The leftmost value of a subtree. -/
def first : RbTree α → Option α
  | leaf => none
  | node _ l x _ => some ((first l).getD x)

/-- The rightmost value of a subtree. -/
def last : RbTree α → Option α
  | leaf => none
  | node _ _ x r => some ((last r).getD x)

/-- The nearest node above that has the position on its left. -/
def climbNext : Path α → Option α
  | [] => none
  | f::p => if f.left then some f.value else climbNext p

/-- The nearest node above that has the position on its right. -/
def climbPrev : Path α → Option α
  | [] => none
  | f::p => if f.left then climbPrev p else some f.value

def Located.next (z : Located α) : Option α :=
  match z.right with
  | leaf => climbNext z.path
  | r => first r

def Located.prev (z : Located α) : Option α :=
  match z.left with
  | leaf => climbPrev z.path
  | l => last l

theorem first_eq (t : RbTree α) : first t = t.toList.head? := by
  induction t with
  | leaf => rfl
  | node c l x r ihl ihr =>
    rw [first,ihl,toList]
    cases l.toList <;> rfl

theorem last_eq (t : RbTree α) : last t = t.toList.getLast? := by
  induction t with
  | leaf => rfl
  | node c l x r ihl ihr =>
    rw [last,ihr,toList,List.getLast?_append,List.getLast?_cons]
    rfl

theorem climbNext_eq (p : Path α) : climbNext p = (after p).head? := by
  induction p with
  | nil => rfl
  | cons f p ih =>
    rw [climbNext,after]
    cases f.left with
    | true => rfl
    | false => exact ih

theorem climbPrev_eq (p : Path α) : climbPrev p = (before p).getLast? := by
  induction p with
  | nil => rfl
  | cons f p ih =>
    rw [climbPrev,before]
    cases f.left with
    | true => simpa using ih
    | false => simp [List.getLast?_append]

theorem Located.next_eq (z : Located α) : z.next = z.larger.head? := by
  obtain ⟨c,l,x,r,p⟩ := z
  cases r with
  | leaf => exact climbNext_eq p
  | node d a y b =>
    show first (node d a y b) = _
    rw [first_eq]
    simp [Located.larger,toList]

theorem Located.prev_eq (z : Located α) : z.prev = z.smaller.getLast? := by
  obtain ⟨c,l,x,r,p⟩ := z
  cases l with
  | leaf =>
    show climbPrev p = _
    rw [climbPrev_eq]
    simp [Located.smaller,toList]
  | node d a y b =>
    show last (node d a y b) = _
    rw [last_eq]
    simp [Located.smaller,toList,List.getLast?_append,List.getLast?_cons]

/-! ## Search -/

section
variable [LinearOrder κ] (key : α → κ)

/-- The values are in the order of their keys. -/
def Sorted (xs : List α) : Prop := xs.Pairwise fun x y => key x < key y

/-- The node of a key. -/
def locate (k : κ) : RbTree α → Path α → Option (Located α)
  | leaf, _ => none
  | node c l x r, p =>
    if key x = k then some ⟨c,l,x,r,p⟩
    else if key x < k then locate k r (⟨c,false,x,l⟩::p)
    else locate k l (⟨c,true,x,r⟩::p)

variable {key}

theorem locate_fill {k : κ} (t : RbTree α) (p : Path α) {z : Located α}
    (h : locate key k t p = some z) : fill z.subtree z.path = fill t p ∧ key z.value = k := by
  induction t generalizing p with
  | leaf => cases h
  | node c l x r ihl ihr =>
    rw [locate] at h
    split at h
    case isTrue hk =>
      cases h
      exact ⟨rfl,hk⟩
    case isFalse hk =>
      split at h
      · exact ihr _ h
      · exact ihl _ h

theorem locate_of_mem {k : κ} (t : RbTree α) (p : Path α) (ht : Sorted key t.toList) {x : α}
    (hx : x ∈ t.toList) (hk : key x = k) : ∃ z, locate key k t p = some z := by
  induction t generalizing p with
  | leaf => cases hx
  | node c l y r ihl ihr =>
    obtain ⟨hl,hyr,hlt⟩ := List.pairwise_append.mp ht
    obtain ⟨hyr,hr⟩ := List.pairwise_cons.mp hyr
    rw [locate]
    by_cases heq : key y = k
    · exact ⟨_,if_pos heq⟩
    · rw [if_neg heq]
      rcases List.mem_append.mp hx with hxl | hxr
      · have hlty := hlt x hxl y List.mem_cons_self
        rw [if_neg (by rw [← hk]; exact not_lt_of_gt hlty)]
        exact ihl _ hl hxl
      · rcases List.mem_cons.mp hxr with rfl | hxr
        · exact absurd hk heq
        · rw [if_pos (by rw [← hk]; exact hyr x hxr)]
          exact ihr _ hr hxr

theorem Sorted.split_unique {pre post pre' post' : List α} {x x' : α}
    (h : Sorted key (pre++x::post)) (heq : pre++x::post = pre'++x'::post') (hk : key x = key x') :
    pre = pre' ∧ x = x' ∧ post = post' := by
  induction pre generalizing pre' with
  | nil =>
    cases pre' with
    | nil =>
      obtain ⟨hx,hpost⟩ := List.cons.inj heq
      exact ⟨rfl,hx,hpost⟩
    | cons y pre' =>
      obtain ⟨rfl,hpost⟩ := List.cons.inj heq
      have hmem : x' ∈ post := by simp [hpost]
      exact absurd hk (ne_of_lt ((List.pairwise_cons.mp h).1 x' hmem))
  | cons y pre ih =>
    cases pre' with
    | nil =>
      obtain ⟨rfl,hpre⟩ := List.cons.inj heq
      have hmem : x ∈ pre++x::post := by simp
      exact absurd hk.symm (ne_of_lt ((List.pairwise_cons.mp h).1 x hmem))
    | cons y' pre' =>
      obtain ⟨rfl,hrest⟩ := List.cons.inj heq
      obtain ⟨rfl,hx,hpost⟩ := ih (List.pairwise_cons.mp h).2 hrest
      exact ⟨rfl,hx,hpost⟩

/-- The node of a value splits the tree at that value. -/
theorem locate_split (t : RbTree α) {pre post : List α} {x : α} (hsorted : Sorted key t.toList)
    (ht : t.toList = pre++x::post) : ∃ z, locate key (key x) t [] = some z ∧
      fill z.subtree z.path = t ∧ z.value = x ∧ z.smaller = pre ∧ z.larger = post := by
  obtain ⟨z,hz⟩ := locate_of_mem t [] hsorted (x := x) (by simp [ht]) rfl
  obtain ⟨hfill,hkey⟩ := locate_fill t [] hz
  have hlist := z.toList_fill
  rw [hfill,fill,ht] at hlist
  rw [ht] at hsorted
  obtain ⟨hpre,hx,hpost⟩ := hsorted.split_unique hlist hkey.symm
  exact ⟨z,hz,hfill,hx.symm,hpre.symm,hpost.symm⟩

end

/-! ## Insertion -/

/-- The position of a new value: to the right of the values that `right` says. -/
def descend (right : α → Bool) : RbTree α → Path α → Path α
  | leaf, p => p
  | node c l x r, p =>
    if right x then descend right r (⟨c,false,x,l⟩::p) else descend right l (⟨c,true,x,r⟩::p)

/-- The red node goes to the outer side of its grandparent. -/
def outward (f g : Frame α) (t : RbTree α) : Option (RbTree α) :=
  if f.left = g.left then some (f.plug t) else (f.plug t).rotate g.left

/-- The parent takes the place of the grandparent. -/
def raise (g : Frame α) (parent : RbTree α) : Option (RbTree α) :=
  (join g.left .red (parent.paint .black) g.value g.sibling).rotate !g.left

/-- A red node is at a position whose parent may be red. -/
def addRebalance : RbTree α → Path α → Option (RbTree α)
  | t, [] => some (t.paint .black)
  | t, [f] => if f.color = .red then none else some ((f.plug t).paint .black)
  | t, f::g::p =>
    if f.color = .red then
      if g.sibling.isRed then
        -- parent and uncle get black, and the grandparent is the red node now
        addRebalance
          (join g.left .red ((f.plug t).paint .black) g.value (g.sibling.paint .black)) p
      else ((outward f g t).bind (raise g)).map fun top => (fill top p).paint .black
    else some ((fill t (f::g::p)).paint .black)

def add (right : α → Bool) (x : α) (t : RbTree α) : Option (RbTree α) :=
  match descend right t [] with
  | [] => none
  | p => addRebalance (node .red leaf x leaf) p

theorem descend_split (right : α → Bool) (t : RbTree α) (p : Path α)
    (ht : t.toList.Pairwise fun x y => right y → right x) :
    before (descend right t p) = before p++t.toList.filter (fun x => right x) ∧
      after (descend right t p) = t.toList.filter (fun x => !right x)++after p := by
  induction t generalizing p with
  | leaf => simp [descend,toList]
  | node c l x r ihl ihr =>
    obtain ⟨hl,hxr,hlt⟩ := List.pairwise_append.mp ht
    obtain ⟨hxr,hr⟩ := List.pairwise_cons.mp hxr
    rw [descend]
    cases hx : right x with
    | true =>
      have hall : ∀ y ∈ l.toList, right y = true := fun y hy => hlt y hy x List.mem_cons_self hx
      have hnone : l.toList.filter (fun y => !right y) = [] := by
        rw [List.filter_eq_nil_iff]
        intro y hy
        simp [hall y hy]
      obtain ⟨hb,ha⟩ := ihr (⟨c,false,x,l⟩::p) hr
      rw [if_pos rfl,hb,ha]
      simp [before,after,toList,hx,hnone,List.filter_eq_self.mpr hall]
    | false =>
      have hnone : ∀ y ∈ r.toList, right y = false := by
        intro y hy
        by_contra hright
        rw [Bool.not_eq_false] at hright
        rw [hxr y hy hright] at hx
        cases hx
      have hnil : r.toList.filter (fun y => right y) = [] := by
        rw [List.filter_eq_nil_iff]
        intro y hy
        simp [hnone y hy]
      have hall : r.toList.filter (fun y => !right y) = r.toList := by
        rw [List.filter_eq_self]
        intro y hy
        simp [hnone y hy]
      obtain ⟨hb,ha⟩ := ihl (⟨c,true,x,r⟩::p) hl
      rw [if_neg (by simp),hb,ha]
      simp [before,after,toList,hx,hnil,hall]

theorem toList_outward {f g : Frame α} {t parent : RbTree α} (h : outward f g t = some parent) :
    parent.toList = (f.plug t).toList := by
  rw [outward] at h
  split at h
  · cases h
    rfl
  · exact toList_rotate _ _ h

theorem toList_addRebalance (t : RbTree α) (p : Path α) {t' : RbTree α}
    (h : addRebalance t p = some t') : t'.toList = before p++t.toList++after p := by
  fun_induction addRebalance t p with
  | case1 t =>
    cases h
    simp [before,after]
  | case2 t f hred => cases h
  | case3 t f hred =>
    cases h
    have hplug := toList_plug_append f [] t
    simpa [before,after] using hplug
  | case4 t f g p hred huncle ih =>
    rw [ih h,toList_join_append g p _ _ _ (toList_paint _ _),toList_paint,toList_plug_append]
  | case5 t f g p hred huncle =>
    obtain ⟨top,htop,rfl⟩ := Option.map_eq_some_iff.mp h
    obtain ⟨parent,hparent,htop⟩ := Option.bind_eq_some_iff.mp htop
    rw [toList_paint,toList_fill,toList_rotate _ _ htop,toList_join_append g p _ _ _ rfl,toList_paint,
      toList_outward hparent,toList_plug_append]
  | case6 t f g p hred =>
    cases h
    rw [toList_paint,toList_fill]

theorem toList_add (right : α → Bool) (x : α) (t : RbTree α) {t' : RbTree α}
    (ht : t.toList.Pairwise fun x y => right y → right x) (h : add right x t = some t') :
    t'.toList = t.toList.filter (fun y => right y)++x::t.toList.filter (fun y => !right y) := by
  obtain ⟨hb,ha⟩ := descend_split right t [] ht
  rw [add] at h
  split at h
  · cases h
  · rw [toList_addRebalance _ _ h,hb,ha]
    simp [before,after,toList]

/-! ## Removal -/

/-- The sibling of a position that lacks a black node, with a red child on its
far side. -/
def redFar (left : Bool) (c : Color) (near : RbTree α) (y : α) (far : RbTree α) : Option (RbTree α) :=
  if far.isRed then some (join left c near y far)
  else (join left .red (near.paint .black) y far).rotate !left

/-- The sibling takes the place of the parent. -/
def raiseSibling (f : Frame α) (child sib : RbTree α) : Option (RbTree α) :=
  (join f.left .black child f.value ((sib.paint f.color).blackenFar f.left)).rotate f.left

/-- The sibling of a position that lacks a black node is black. Either the
shortage goes up to the parent, or a nephew makes up for it. -/
def borrow (f : Frame α) (child : RbTree α) : Option (RbTree α × Bool) :=
  match f.sibling with
  | leaf => none
  | node c a y b =>
    if (side f.left a b).isRed = false ∧ (side (!f.left) a b).isRed = false then
      some (join f.left f.color child f.value (node .red a y b),false)
    else ((redFar f.left c (side f.left a b) y (side (!f.left) a b)).bind
      (raiseSibling f child)).map fun top => (top,true)

/-- A position lacks a black node, or has a red one to paint. -/
def removeRebalance : RbTree α → Path α → Option (RbTree α)
  | child, [] => some (child.paint .black)
  | child, f::p =>
    if child.isRed then some (fill (child.paint .black) (f::p))
    else
      match f.sibling with
      | node .red a y b =>
        -- the parent is rotated below its sibling, and as it is red the loop ends with it
        (borrow ⟨.red,f.left,f.value,side f.left a b⟩ child).map fun out =>
          if out.2 then (fill out.1 (⟨.black,f.left,y,side (!f.left) a b⟩::p)).paint .black
          else fill (out.1.paint .black) (⟨.black,f.left,y,side (!f.left) a b⟩::p)
      | _ =>
        (borrow f child).bind fun out =>
          if out.2 then some ((fill out.1 p).paint .black) else removeRebalance out.1 p

/-- The rightmost node of a subtree. -/
def locateLast : RbTree α → Path α → Option (Located α)
  | leaf, _ => none
  | node c l x leaf, p => some ⟨c,l,x,leaf,p⟩
  | node c l x r, p => locateLast r (⟨c,false,x,l⟩::p)

/-- The colour that is taken out, and the position where it is missing. A node
with two children is replaced by the one before it. -/
def unlink (z : Located α) : Color × RbTree α × Path α :=
  match z.right, locateLast z.left [] with
  | leaf, none => (z.color,leaf,z.path)
  | leaf, some _ => (z.color,z.left,z.path)
  | r, none => (z.color,r,z.path)
  | r, some tmp => (tmp.color,tmp.left,tmp.path++⟨z.color,true,tmp.value,r⟩::z.path)

def Located.remove (z : Located α) : Option (RbTree α) :=
  let out := unlink z
  if out.1 = .red then some (fill out.2.1 out.2.2) else removeRebalance out.2.1 out.2.2

theorem toList_redFar {left : Bool} {c : Color} {near far : RbTree α} {y : α} {sib : RbTree α}
    (h : redFar left c near y far = some sib) : sib.toList = (join left c near y far).toList := by
  rw [redFar] at h
  split at h
  · cases h
    rfl
  · rw [toList_rotate _ _ h]
    cases left <;> simp [join,toList]

theorem toList_borrow (f : Frame α) (p : Path α) (child : RbTree α) {out : RbTree α × Bool}
    (h : borrow f child = some out) :
    before p++out.1.toList++after p = before (f::p)++child.toList++after (f::p) := by
  rw [borrow] at h
  split at h
  · cases h
  case h_2 c a y b hsib =>
    split at h
    · cases h
      exact toList_join_append f p child _ _ (by rw [hsib]; rfl)
    · obtain ⟨top,htop,rfl⟩ := Option.map_eq_some_iff.mp h
      obtain ⟨sib,hfar,htop⟩ := Option.bind_eq_some_iff.mp htop
      have hlist : sib.toList = f.sibling.toList := by rw [toList_redFar hfar,join_side,hsib]
      rw [toList_rotate _ _ htop]
      exact toList_join_append f p child _ _ (by simpa using hlist)

/-- A parent that is rotated below its red child keeps its place in the order. -/
theorem around_raised (f : Frame α) (p : Path α) (a b : RbTree α) {y : α} {c : Color}
    (hsib : f.sibling = node c a y b) (ys : List α) :
    before (⟨.red,f.left,f.value,side f.left a b⟩::⟨.black,f.left,y,side (!f.left) a b⟩::p)++ys++
        after (⟨.red,f.left,f.value,side f.left a b⟩::⟨.black,f.left,y,side (!f.left) a b⟩::p) =
      before (f::p)++ys++after (f::p) := by
  cases hleft : f.left <;> simp [before,after,hleft,hsib,toList,side]

theorem toList_removeRebalance (child : RbTree α) (p : Path α) {t' : RbTree α}
    (h : removeRebalance child p = some t') : t'.toList = before p++child.toList++after p := by
  induction p generalizing child with
  | nil =>
    cases h
    simp [before,after]
  | cons f p ih =>
    rw [removeRebalance] at h
    split at h
    · cases h
      rw [toList_fill,toList_paint]
    · split at h
      case h_1 a y b hsib =>
        obtain ⟨out,hout,rfl⟩ := Option.map_eq_some_iff.mp h
        have hinner := toList_borrow _ (⟨.black,f.left,y,side (!f.left) a b⟩::p) _ hout
        rw [around_raised f p a b hsib] at hinner
        split
        · rw [toList_paint,toList_fill,hinner]
        · rw [toList_fill,toList_paint,hinner]
      · obtain ⟨out,hout,h⟩ := Option.bind_eq_some_iff.mp h
        have hinner := toList_borrow f p child hout
        split at h
        · cases h
          rw [toList_paint,toList_fill,hinner]
        · rw [ih _ h,hinner]

theorem locateLast_spec (t : RbTree α) (p : Path α) {z : Located α} (h : locateLast t p = some z) :
    fill z.subtree z.path = fill t p ∧ z.right = leaf ∧ after z.path = after p := by
  fun_induction locateLast t p with
  | case1 => cases h
  | case2 p c l x =>
    cases h
    exact ⟨rfl,rfl,rfl⟩
  | case3 p c l x r hr ih =>
    obtain ⟨hfill,hright,hafter⟩ := ih h
    exact ⟨hfill,hright,hafter⟩

theorem locateLast_eq_none {t : RbTree α} {p : Path α} (h : locateLast t p = none) : t = leaf := by
  fun_induction locateLast t p with
  | case1 => rfl
  | case2 p c l x => cases h
  | case3 p c l x r hr ih => exact absurd (ih h) (by simpa using hr)

theorem toList_unlink (z : Located α) :
    before (unlink z).2.2++(unlink z).2.1.toList++after (unlink z).2.2 = z.smaller++z.larger := by
  obtain ⟨c,l,x,r,p⟩ := z
  rw [unlink]
  split
  case h_1 hr hl =>
    simp only at hr hl
    simp [Located.smaller,Located.larger,hr,locateLast_eq_none hl,toList]
  case h_2 hr hl =>
    simp only at hr
    simp [Located.smaller,Located.larger,hr,toList]
  case h_3 hl hr =>
    simp only at hl
    simp [Located.smaller,Located.larger,locateLast_eq_none hl,toList]
  case h_4 tmp hl hr =>
    obtain ⟨hfill,hright,hafter⟩ := locateLast_spec _ _ hl
    have hlist := tmp.toList_fill
    rw [hfill,fill,Located.larger,hright,hafter] at hlist
    simp only [Located.smaller,Located.larger] at hlist ⊢
    rw [before_append,after_append,hafter,hlist]
    simp [before,after,toList]

theorem Located.toList_remove (z : Located α) {t' : RbTree α} (h : z.remove = some t') :
    t'.toList = z.smaller++z.larger := by
  rw [Located.remove] at h
  split at h
  · cases h
    rw [RedBlack.toList_fill,toList_unlink]
  · rw [toList_removeRebalance _ _ h,toList_unlink]

end RedBlack
