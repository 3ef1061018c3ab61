import FreeFlow.RedBlack
import Mathlib.Data.Nat.Log
import Mathlib.Tactic.Ring

/-!
# Balance of red-black trees

A position in a balanced tree says what may stand there: a subtree of a given
black height, red only below a black node. Insertion puts a red node where a
black one was, and removal a subtree that is one black node short; the repair
moves either of them towards the root.
-/

set_option autoImplicit false

namespace RedBlack

open RbTree

variable {α κ : Type*}

/-- No red node has a red child, and `n` black nodes are met on every way down. -/
inductive Bal : RbTree α → Color → ℕ → Prop
  | leaf : Bal leaf .black 0
  | red {l r : RbTree α} {x : α} {n : ℕ} (hl : Bal l .black n) (hr : Bal r .black n) :
      Bal (node .red l x r) .red n
  | black {l r : RbTree α} {x : α} {n : ℕ} {c d : Color} (hl : Bal l c n) (hr : Bal r d n) :
      Bal (node .black l x r) .black (n+1)

/-- A whole tree that is balanced. -/
def Balanced (t : RbTree α) : Prop := ∃ n, Bal t .black n

/-- A position where a black subtree of height `n` may stand, or with `b` a red
one too. -/
inductive Hole : Path α → Bool → ℕ → Prop
  | root (n : ℕ) : Hole [] false n
  | red {d : Bool} {x : α} {s : RbTree α} {p : Path α} {n : ℕ} (hs : Bal s .black n)
      (hp : Hole p true n) : Hole (⟨.red,d,x,s⟩::p) false n
  | black {d b : Bool} {x : α} {s : RbTree α} {p : Path α} {n : ℕ} {c : Color} (hs : Bal s c n)
      (hp : Hole p b (n+1)) : Hole (⟨.black,d,x,s⟩::p) true n

variable {t s near far : RbTree α} {p : Path α} {b : Bool} {c d : Color} {n : ℕ} {x : α}

theorem Bal.black_of_isRed (h : Bal t c n) (hred : t.isRed = false) : Bal t .black n := by
  cases h with
  | leaf => exact .leaf
  | red hl hr => cases hred
  | black hl hr => exact .black hl hr

theorem Bal.red_of_isRed (h : Bal t c n) (hred : t.isRed = true) : Bal t .red n := by
  cases h with
  | leaf => cases hred
  | red hl hr => exact .red hl hr
  | black hl hr => cases hred

theorem Bal.paint_eq (h : Bal t .black n) : t.paint .black = t := by
  cases h <;> rfl

theorem Bal.paint_red (h : Bal t .red n) : Bal (t.paint .black) .black (n+1) := by
  cases h with
  | red hl hr => exact .black hl hr

theorem Bal.balanced_paint (h : Bal t c n) : Balanced (t.paint .black) := by
  cases c with
  | red => exact ⟨_,h.paint_red⟩
  | black => exact ⟨n,by rw [h.paint_eq]; exact h⟩

theorem Bal.join_red (hn : Bal near .black n) (hf : Bal far .black n) (left : Bool) :
    Bal (join left .red near x far) .red n := by
  cases left with
  | true => exact .red hn hf
  | false => exact .red hf hn

theorem Bal.join_black (hn : Bal near c n) (hf : Bal far d n) (left : Bool) :
    Bal (join left .black near x far) .black (n+1) := by
  cases left with
  | true => exact .black hn hf
  | false => exact .black hf hn

theorem paint_join (left : Bool) : (join left c near x far).paint d = join left d near x far := by
  cases left <;> rfl

theorem blackenFar_join (left : Bool) :
    (join left c near x far).blackenFar left = join left c near x (far.paint .black) := by
  cases left <;> rfl

theorem isRed_join (left : Bool) : (join left c near x far).isRed = decide (c = .red) := by
  cases left <;> cases c <;> rfl

theorem rotate_join (left : Bool) (y : α) (e : RbTree α) :
    (join left c t x (join left d near y e)).rotate left =
      some (join left d (join left c t x near) y e) := by
  cases left <;> rfl

theorem rotate_not_join (left : Bool) (y : α) (e : RbTree α) :
    (join left c (join left d near y t) x e).rotate (!left) =
      some (join left d near y (join left c t x e)) := by
  cases left <;> rfl

theorem join_not (left : Bool) : join (!left) c near x far = join left c far x near := by
  cases left <;> rfl

theorem join_eq_node (left : Bool) (l : RbTree α) (r : RbTree α) :
    node c l x r = join left c (side left l r) x (side (!left) l r) := (join_side left c l x r).symm

theorem Hole.fill_balanced (hp : Hole p b n) (ht : Bal t c n) (hc : c = .red → b = true) :
    Balanced (fill t p) := by
  induction hp generalizing t c with
  | root n =>
    cases c with
    | red => exact absurd (hc rfl) (by decide)
    | black => exact ⟨n,ht⟩
  | red hs hp ih =>
    cases c with
    | red => exact absurd (hc rfl) (by decide)
    | black => exact ih (ht.join_red hs _) fun _ => rfl
  | black hs hp ih => exact ih (ht.join_black hs _) (by simp)

theorem Hole.fill_black (hp : Hole p b n) (ht : Bal t .black n) : Balanced (fill t p) :=
  hp.fill_balanced ht (by simp)

theorem Balanced.paint (h : Balanced t) : Balanced (t.paint .black) := h.elim fun _ h => h.balanced_paint

/-- The two ways down from a node. -/
theorem Hole.down (hp : Hole p b n) {l r : RbTree α} (ht : Bal (node c l x r) c n)
    (hc : c = .red → b = true) (left : Bool) (y : α) :
    ∃ b' m d, Hole (⟨c,left,y,side (!left) l r⟩::p) b' m ∧ Bal (side left l r) d m ∧
      (d = .red → b' = true) := by
  cases ht with
  | red hl hr =>
    rw [hc rfl] at hp
    cases left with
    | true => exact ⟨_,_,_,.red hr hp,hl,by simp⟩
    | false => exact ⟨_,_,_,.red hl hp,hr,by simp⟩
  | black hl hr =>
    cases left with
    | true => exact ⟨_,_,_,.black hr hp,hl,fun _ => rfl⟩
    | false => exact ⟨_,_,_,.black hl hp,hr,fun _ => rfl⟩

theorem Bal.color_eq {l r : RbTree α} (h : Bal (node d l x r) c n) : d = c := by
  cases h <;> rfl

/-! ## Insertion -/

theorem descend_hole (right : α → Bool) (t : RbTree α) (p : Path α) {b : Bool} {c : Color} {n : ℕ}
    (hp : Hole p b n) (ht : Bal t c n) (hc : c = .red → b = true) :
    ∃ b', Hole (descend right t p) b' 0 := by
  induction t generalizing p b c n with
  | leaf =>
    cases ht
    exact ⟨b,hp⟩
  | node d l x r ihl ihr =>
    obtain rfl := ht.color_eq
    rw [descend]
    split
    · obtain ⟨b',m,e,hdown,hbal,he⟩ := hp.down ht hc false x
      exact ihr _ hdown hbal he
    · obtain ⟨b',m,e,hdown,hbal,he⟩ := hp.down ht hc true x
      exact ihl _ hdown hbal he

theorem outward_spec (f g : Frame α) {t : RbTree α} {n : ℕ} (ht : Bal t .red n) (hf : f.color = .red)
    (hs : Bal f.sibling .black n) : ∃ a y e, outward f g t = some (join g.left .red a y e) ∧
      Bal a .red n ∧ Bal e .black n := by
  obtain ⟨c,left,v,s⟩ := f
  obtain rfl : c = .red := hf
  rw [outward]
  by_cases heq : left = g.left
  · exact ⟨t,v,s,by rw [if_pos heq,Frame.plug,heq],ht,hs⟩
  · have hnot : left = !g.left := by
      cases left <;> cases hg : g.left <;> simp_all
    cases ht with
    | @red l r x n hl hr =>
      have hside : ∀ e : Bool, Bal (side e l r) .black n := by
        intro e
        cases e with
        | true => exact hl
        | false => exact hr
      refine ⟨join g.left .red s v (side g.left l r),x,side (!g.left) l r,?_,
        hs.join_red (hside g.left) g.left,hside _⟩
      rw [if_neg heq,Frame.plug,hnot,join_not,join_eq_node g.left l r,rotate_join]

theorem addRebalance_balanced (t : RbTree α) (p : Path α) {b : Bool} {n : ℕ} (ht : Bal t .red n)
    (hp : Hole p b n) : ∃ t', addRebalance t p = some t' ∧ Balanced t' := by
  fun_induction addRebalance t p generalizing b n with
  | case1 t => exact ⟨_,rfl,_,ht.paint_red⟩
  | case2 t f hred =>
    cases hp with
    | red hs hp => cases hp
    | black hs hp => cases hred
  | case3 t f hred =>
    cases hp with
    | red hs hp => exact absurd rfl hred
    | black hs hp => exact ⟨_,rfl,(ht.join_black hs _).balanced_paint⟩
  | case4 t f g p hred huncle ih =>
    cases hp with
    | black hs hp => cases hred
    | red hs hp =>
      cases hp with
      | black hs' hp' =>
        refine ih (Bal.join_red (n := n+1) ?_ (hs'.red_of_isRed huncle).paint_red _) hp'
        rw [Frame.plug,paint_join]
        exact ht.join_black hs _
  | case5 t f g p hred huncle =>
    cases hp with
    | black hs hp => cases hred
    | red hs hp =>
      cases hp with
      | black hs' hp' =>
        obtain ⟨a,y,e,houtward,ha,he⟩ := outward_spec ⟨.red,_,_,_⟩ ⟨.black,_,_,_⟩ ht rfl hs
        rw [houtward,Option.bind_some,raise,paint_join,rotate_not_join]
        have huncle' := hs'.black_of_isRed (Bool.not_eq_true _ ▸ huncle)
        exact ⟨_,rfl,(hp'.fill_black (ha.join_black (he.join_red huncle' _) _)).paint⟩
  | case6 t f g p hred =>
    cases hp with
    | red hs hp => exact absurd rfl hred
    | black hs hp =>
      exact ⟨_,rfl,(Hole.fill_balanced (.black hs hp) ht fun _ => rfl).paint⟩

theorem add_balanced (right : α → Bool) (x : α) {t : RbTree α} (ht : Balanced t) (hne : t ≠ leaf) :
    ∃ t', add right x t = some t' ∧ Balanced t' := by
  obtain ⟨n,ht⟩ := ht
  obtain ⟨b,hp⟩ := descend_hole right t [] (.root n) ht (by simp)
  have hpath : descend right t [] ≠ [] := by
    cases t with
    | leaf => exact absurd rfl hne
    | node c l y r =>
      have hlong : ∀ (t : RbTree α) (p : Path α), p ≠ [] → descend right t p ≠ [] := by
        intro t
        induction t with
        | leaf => exact fun p hp => hp
        | node c l y r ihl ihr =>
          intro p hp
          rw [descend]
          split
          · exact ihr _ (List.cons_ne_nil _ _)
          · exact ihl _ (List.cons_ne_nil _ _)
      rw [descend]
      split
      · exact hlong _ _ (List.cons_ne_nil _ _)
      · exact hlong _ _ (List.cons_ne_nil _ _)
  rw [add]
  split
  case h_1 hnil => exact absurd hnil hpath
  · exact addRebalance_balanced _ _ (.red .leaf .leaf) hp

/-! ## Removal -/

/-- A subtree that a position of height `n+1` needs painted, or that is one
black node short of it. -/
def Short (t : RbTree α) (n : ℕ) : Prop :=
  if t.isRed then Bal (t.paint .black) .black (n+1) else Bal t .black n

theorem Bal.short (h : Bal t c n) : Short t n := by
  rw [Short]
  split
  case isTrue hred => exact (h.red_of_isRed hred).paint_red
  case isFalse hred => exact h.black_of_isRed (Bool.not_eq_true _ ▸ hred)

/-- The height that the subtree of a parent has above its children. -/
def above (c : Color) (n : ℕ) : ℕ :=
  match c with
  | .red => n
  | .black => n+1

theorem Bal.join (hn : Bal near .black n) (hf : Bal far .black n) (c : Color) (left : Bool) :
    Bal (join left c near x far) c (above c n) := by
  cases c with
  | red => exact hn.join_red hf left
  | black => exact hn.join_black hf left

theorem redFar_spec (left : Bool) (hn : Bal near c n) (hf : Bal far d n)
    (hred : ¬(near.isRed = false ∧ far.isRed = false)) :
    ∃ c' a y e ca, redFar left .black near x far = some (join left c' a y e) ∧ Bal a ca n ∧
      Bal (e.paint .black) .black (n+1) := by
  rw [redFar]
  by_cases hfar : far.isRed
  · exact ⟨_,near,x,far,c,if_pos hfar,hn,(hf.red_of_isRed hfar).paint_red⟩
  · have hfar' : far.isRed = false := Bool.not_eq_true _ ▸ hfar
    have hnear : near.isRed = true := by
      by_contra h
      exact hred ⟨Bool.not_eq_true _ ▸ h,hfar'⟩
    cases hn.red_of_isRed hnear with
    | @red l r z n hl hr =>
      have hside : ∀ e : Bool, Bal (side e l r) .black n := by
        intro e
        cases e with
        | true => exact hl
        | false => exact hr
      refine ⟨.black,side left l r,z,join left .red (side (!left) l r) x far,.black,?_,hside _,?_⟩
      · rw [if_neg hfar,paint,join_eq_node left l r,rotate_not_join]
      · rw [paint_join]
        exact (hside _).join_black (hf.black_of_isRed hfar') left

theorem raiseSibling_spec (f : Frame α) {child : RbTree α} (left : f.left = b) (hchild : Bal child .black n)
    (hnear : Bal near c n) (hfar : Bal (far.paint .black) .black (n+1)) :
    ∃ top, raiseSibling f child (join b d near x far) = some top ∧
      Bal top f.color (above f.color (n+1)) := by
  refine ⟨_,?_,(hchild.join_black hnear f.left (x := f.value)).join hfar f.color f.left (x := x)⟩
  rw [raiseSibling,← left,paint_join,blackenFar_join,rotate_join]

/-- The position of the child is repaired, or its parent is red or short. -/
theorem borrow_spec (f : Frame α) {child : RbTree α} (hchild : Bal child .black n)
    (hsib : Bal f.sibling .black (n+1)) : ∃ out, borrow f child = some out ∧
      if out.2 then Bal out.1 f.color (above f.color (n+1))
      else ∃ s, out.1 = join f.left f.color child f.value s ∧ Bal s .red n := by
  obtain ⟨fc,left,v,s⟩ := f
  cases hsib with
  | @black l r y n cl cr hl hr =>
    rw [borrow]
    simp only
    have hside : ∀ e : Bool, ∃ c, Bal (side e l r) c n := by
      intro e
      cases e with
      | true => exact ⟨_,hl⟩
      | false => exact ⟨_,hr⟩
    obtain ⟨cn,hnear⟩ := hside left
    obtain ⟨cf,hfar⟩ := hside !left
    by_cases hblack : (side left l r).isRed = false ∧ (side (!left) l r).isRed = false
    · rw [if_pos hblack]
      refine ⟨_,rfl,?_⟩
      rw [if_neg (by simp),join_eq_node left l r]
      exact ⟨_,rfl,(hnear.black_of_isRed hblack.1).join_red (hfar.black_of_isRed hblack.2) left⟩
    · rw [if_neg hblack]
      obtain ⟨c',a,z,e,ca,hredFar,ha,he⟩ := redFar_spec left hnear hfar hblack (x := y)
      obtain ⟨top,htop,hbal⟩ := raiseSibling_spec ⟨fc,left,v,node .black l y r⟩ rfl hchild ha he
      rw [hredFar,Option.bind_some,htop]
      exact ⟨_,rfl,by rw [if_pos rfl]; exact hbal⟩

theorem removeRebalance_balanced (child : RbTree α) (p : Path α) {b : Bool} {n : ℕ} (ht : Short child n)
    (hp : Hole p b (n+1)) : ∃ t', removeRebalance child p = some t' ∧ Balanced t' := by
  induction p generalizing child b n with
  | nil =>
    refine ⟨_,rfl,?_⟩
    rw [Short] at ht
    split at ht
    · exact ⟨_,ht⟩
    · exact ht.balanced_paint
  | cons f p ih =>
    rw [removeRebalance]
    by_cases hchild : child.isRed
    · rw [Short,if_pos hchild] at ht
      rw [if_pos hchild]
      exact ⟨_,rfl,hp.fill_black ht⟩
    · rw [Short,if_neg hchild] at ht
      rw [if_neg hchild]
      split
      case h_1 l y r hsib =>
        -- a red sibling has black children, and its parent is black
        cases hp with
        | red hs hp =>
          simp only at hsib
          rw [hsib] at hs
          cases hs
        | @black d b x s p n c hs hp =>
          simp only at hsib
          rw [hsib] at hs
          cases hs with
          | red hl hr =>
            have hside : ∀ e : Bool, Bal (side e l r) .black (n+1) := by
              intro e
              cases e with
              | true => exact hl
              | false => exact hr
            have hup : Hole (⟨.black,d,y,side (!d) l r⟩::p) true (n+1) := .black (hside _) hp
            obtain ⟨out,hout,hspec⟩ := borrow_spec ⟨.red,d,x,side d l r⟩ ht (hside d)
            rw [hout,Option.map_some]
            refine ⟨_,rfl,?_⟩
            split at hspec
            case isTrue hdone =>
              rw [if_pos hdone]
              exact (hup.fill_balanced hspec fun _ => rfl).paint
            case isFalse hdone =>
              obtain ⟨s',hs',hbal⟩ := hspec
              rw [if_neg hdone,hs',paint_join]
              exact hup.fill_black (ht.join_black hbal d)
      case h_2 hsib =>
        cases hp with
        | @red d x s p n hs hp =>
          obtain ⟨out,hout,hspec⟩ := borrow_spec ⟨.red,d,x,s⟩ ht hs
          rw [hout,Option.bind_some]
          split at hspec
          case isTrue hdone =>
            rw [if_pos hdone]
            exact ⟨_,rfl,(hp.fill_balanced hspec fun _ => rfl).paint⟩
          case isFalse hdone =>
            obtain ⟨s',hs',hbal⟩ := hspec
            rw [if_neg hdone]
            refine ih _ ?_ hp
            rw [hs',Short,isRed_join,if_pos (decide_eq_true rfl),paint_join]
            exact ht.join_black hbal d
        | @black d b x s p n c hs hp =>
          have hblack : s.isRed = false := by
            by_contra hred
            cases hs.red_of_isRed (Bool.not_eq_false _ ▸ hred)
            exact hsib _ _ _ rfl
          obtain ⟨out,hout,hspec⟩ := borrow_spec ⟨.black,d,x,s⟩ ht (hs.black_of_isRed hblack)
          rw [hout,Option.bind_some]
          split at hspec
          case isTrue hdone =>
            rw [if_pos hdone]
            exact ⟨_,rfl,(hp.fill_black hspec).paint⟩
          case isFalse hdone =>
            obtain ⟨s',hs',hbal⟩ := hspec
            rw [if_neg hdone]
            refine ih _ ?_ hp
            rw [hs']
            exact (ht.join_black hbal d).short

/-- A node of a balanced tree: what may stand at its place. -/
def Placed (z : Located α) : Prop :=
  ∃ b n, Hole z.path b n ∧ Bal z.subtree z.color n ∧ (z.color = .red → b = true)

theorem locate_placed [LinearOrder κ] {key : α → κ} {k : κ} (t : RbTree α) (p : Path α) {b : Bool}
    {c : Color} {n : ℕ} (hp : Hole p b n) (ht : Bal t c n) (hc : c = .red → b = true)
    {z : Located α} (h : locate key k t p = some z) : Placed z := by
  induction t generalizing p b c n with
  | leaf => cases h
  | node d l x r ihl ihr =>
    obtain rfl := ht.color_eq
    rw [locate] at h
    split at h
    · cases h
      exact ⟨b,n,hp,ht,hc⟩
    · split at h
      · obtain ⟨b',m,e,hdown,hbal,he⟩ := hp.down ht hc false x
        exact ihr _ hdown hbal he h
      · obtain ⟨b',m,e,hdown,hbal,he⟩ := hp.down ht hc true x
        exact ihl _ hdown hbal he h

theorem locateLast_placed (t : RbTree α) (p : Path α) {b : Bool} {c : Color} {n : ℕ} (hp : Hole p b n)
    (ht : Bal t c n) (hc : c = .red → b = true) {z : Located α} (h : locateLast t p = some z) :
    Placed z := by
  fun_induction locateLast t p generalizing b c n with
  | case1 => cases h
  | case2 p d l x =>
    obtain rfl := ht.color_eq
    cases h
    exact ⟨b,n,hp,ht,hc⟩
  | case3 d l x r p hr ih =>
    obtain rfl := ht.color_eq
    obtain ⟨b',m,e,hdown,hbal,he⟩ := hp.down ht hc false x
    exact ih hdown hbal he h

theorem locateLast_append (t : RbTree α) (p q : Path α) :
    locateLast t (p++q) = (locateLast t p).map fun z => {z with path := z.path++q} := by
  fun_induction locateLast t p with
  | case1 => rfl
  | case2 p c l x => rfl
  | case3 c l x r p hr ih =>
    cases r with
    | leaf => exact absurd rfl hr
    | node d a y e => exact ih

/-- A node gives its place to one of its children. -/
theorem Placed.close {z : Located α} (hz : Placed z) (left : Bool) :
    ∃ t', (if z.color = .red then some (fill (side left z.left z.right) z.path)
        else removeRebalance (side left z.left z.right) z.path) = some t' ∧ Balanced t' := by
  obtain ⟨c,l,x,r,p⟩ := z
  obtain ⟨b,n,hp,hbal,hc⟩ := hz
  cases hbal with
  | red hl hr =>
    refine ⟨_,if_pos rfl,hp.fill_black ?_⟩
    cases left with
    | true => exact hl
    | false => exact hr
  | black hl hr =>
    rw [if_neg (by simp)]
    refine removeRebalance_balanced _ p ?_ hp
    cases left with
    | true => exact hl.short
    | false => exact hr.short

theorem remove_balanced {z : Located α} (hz : Placed z) : ∃ t', z.remove = some t' ∧ Balanced t' := by
  obtain ⟨c,l,x,r,p⟩ := z
  rw [Located.remove,unlink]
  split
  case h_1 hr hl =>
    have hclose := hz.close true
    simp only at hr hl
    rw [locateLast_eq_none hl] at hclose
    exact hclose
  case h_2 tmp hr hl => exact hz.close true
  case h_3 hl hr => exact hz.close false
  case h_4 tmp hl hr =>
    obtain ⟨b,n,hp,hbal,hc⟩ := hz
    obtain ⟨b',m,d,hdown,hbal',hd⟩ := hp.down hbal hc true tmp.value
    have hlast := locateLast_append l [] (⟨c,true,tmp.value,r⟩::p)
    simp only at hl
    rw [hl,Option.map_some] at hlast
    have hplaced := locateLast_placed l _ hdown hbal' hd hlast
    exact hplaced.close true

/-- A value of a balanced tree can be taken out. -/
theorem locate_remove_balanced [LinearOrder κ] {key : α → κ} {k : κ} {t : RbTree α} (ht : Balanced t)
    {z : Located α} (h : locate key k t [] = some z) : ∃ t', z.remove = some t' ∧ Balanced t' := by
  obtain ⟨n,ht⟩ := ht
  exact remove_balanced (locate_placed t [] (.root n) ht (by simp) h)

theorem locate_modify_balanced [LinearOrder κ] {key : α → κ} {k : κ} {t : RbTree α} (ht : Balanced t)
    (f : α → α) {z : Located α} (h : locate key k t [] = some z) : Balanced (z.modify f) := by
  obtain ⟨m,ht⟩ := ht
  obtain ⟨b,n,hp,hbal,hc⟩ := locate_placed t [] (.root m) ht (by simp) h
  refine hp.fill_balanced (c := z.color) ?_ hc
  rw [Located.subtree] at hbal
  cases hcolor : z.color with
  | red =>
    rw [hcolor] at hbal
    cases hbal with
    | red hl hr => exact .red hl hr
  | black =>
    rw [hcolor] at hbal
    cases hbal with
    | black hl hr => exact .black hl hr

/-! ## Height -/

def depth : RbTree α → ℕ
  | leaf => 0
  | node _ l _ r => max (depth l) (depth r)+1

theorem Bal.depth_le (h : Bal t c n) : depth t+(if c = .red then 0 else 1) ≤ 2*n+1 := by
  induction h with
  | leaf => simp [depth]
  | red hl hr ihl ihr =>
    simp only [depth,reduceCtorEq,if_false,if_true] at *
    omega
  | @black l r x n c d hl hr ihl ihr =>
    have hl' : depth l ≤ 2*n+1 := by omega
    have hr' : depth r ≤ 2*n+1 := by omega
    simp only [depth,reduceCtorEq,if_false]
    omega

theorem Bal.two_pow_le (h : Bal t c n) : 2^n ≤ t.toList.length+1 := by
  induction h with
  | leaf => simp
  | red hl hr ihl ihr =>
    rw [toList,List.length_append,List.length_cons]
    omega
  | @black l r x n c d hl hr ihl ihr =>
    rw [toList,List.length_append,List.length_cons,pow_succ]
    omega

/-- The height is logarithmic in the number of values. -/
theorem Balanced.depth_le (h : Balanced t) : depth t ≤ 2*Nat.log 2 (t.toList.length+1) := by
  obtain ⟨n,h⟩ := h
  have hdepth := h.depth_le
  have hlog : n ≤ Nat.log 2 (t.toList.length+1) := Nat.le_log_of_pow_le (by decide) h.two_pow_le
  simp only [reduceCtorEq,if_false] at hdepth
  omega

end RedBlack
