import Atcd.Core.Ring
/-!
# `ACE_Ordered_MultiSet`: a sorted list with hints

Nodes in a doubly linked list that ends in null pointers, with `head_` and `tail_`. `locate`
searches from any node in both directions; what it returns is the place where `insert_from`
links the new node.

The null pointer's `next` is `head_` and its `prev` is `tail_`. Nodes are numbered as they
are allocated. An iterator is given by the number of steps from the first node; behind the
last one it is past the end. The loops have fuel, and `none` is a search that is not done.

* `stays_sorted`: in every run on any number of sets, with any hints, the calls return, the
  answers are those of multisets, and the lists are sorted, linked and counted right.
-/
namespace Atcd.Maps.OrderedMultiSet
open Atcd.Core List Function Or

/-- `operator<`, a strict weak order. -/
structure Order (α : Type*) where
  less : α → α → Bool
  irrefl : ∀ x, less x x = false
  trans : ∀ {x y z}, less x y = true → less y z = true → less x z = true
  weak : ∀ {x z}, less x z = true → ∀ y, less x y = true ∨ less y z = true

namespace Order

variable {α : Type*} (o : Order α)

theorem le_trans {x y z : α} (hxy : o.less y x = false) (hyz : o.less z y = false) :
    o.less z x = false := by
  by_contra h
  obtain h | h := o.weak (by simpa using h) y
  · simp [hyz] at h
  · simp [hxy] at h

theorem lt_of_lt_of_le {x y z : α} (hxy : o.less x y = true) (hyz : o.less z y = false) :
    o.less x z = true := by
  obtain h | h := o.weak hxy z
  · exact h
  · simp [hyz] at h

theorem le_of_lt {x y : α} (hxy : o.less x y = true) : o.less y x = false := by
  by_contra h
  have hxx := o.trans hxy (by simpa using h)
  simp [o.irrefl] at hxx

def equal (x y : α) : Prop := o.less x y = false ∧ o.less y x = false

end Order

structure MultiSet (α : Type*) where
  links : Links (Option Nat)
  /-- `item_` of the nodes. -/
  item : Nat → α
  curSize : Nat
  /-- Number of nodes allocated so far. -/
  fresh : Nat

namespace MultiSet

variable {α : Type*} (o : Order α) (s : MultiSet α)

def empty [Inhabited α] : MultiSet α := ⟨⟨fun _ => none, fun _ => none⟩, fun _ => default, 0, 0⟩

/-- If starting before the item, move forward until at or just before it. -/
def forward (x : α) : Nat → Option Nat → Option (Option Nat)
  | 0, _ => none
  | _ + 1, none => some none
  | n + 1, some a =>
    if o.less (s.item a) x && (s.links.next (some a)).isSome then
      forward x n (s.links.next (some a))
    else some (some a)

/-- If starting after the item, move back until at or just after it. -/
def backward (x : α) : Nat → Option Nat → Option (Option Nat)
  | 0, _ => none
  | _ + 1, none => some none
  | n + 1, some a =>
    if o.less x (s.item a) && (s.links.prev (some a)).isSome then
      backward x n (s.links.prev (some a))
    else some (some a)

/-- Whether the location is after (1), before (-1) or at (0) the item. -/
def side (x : α) : Option Nat → Int
  | none => 1
  | some a => if o.less x (s.item a) then 1 else if o.less (s.item a) x then -1 else 0

/-- mirrors ACE/ace/Containers_T.cpp:1714-1743 -/
def locate (x : α) (start : Option Nat) : Option (Int × Option Nat) :=
  (forward o s x (s.curSize + 1) (start <|> s.links.next none)).bind fun p =>
    (backward o s x (s.curSize + 1) p).map fun p => (side o s x p, p)

/-- The new node between `p` and `q`; where one is null, `head_` or `tail_` is set. -/
def linkNew (x : α) (p q : Option Nat) : MultiSet α where
  links :=
    { next := update (update s.links.next (some s.fresh) q) p (some s.fresh)
      prev := update (update s.links.prev (some s.fresh) p) q (some s.fresh) }
  item := update s.item s.fresh x
  curSize := s.curSize + 1
  fresh := s.fresh + 1

/-- The set, with the new node's number.
mirrors Containers_T.cpp:1640-1712 -/
def insertFrom (x : α) (position : Option Nat) : Option (MultiSet α × Nat) :=
  (locate o s x position).map fun (result, position) =>
    (match position with
      | none => linkNew s x none none
      | some a =>
        if result = -1 then linkNew s x (some a) (s.links.next (some a))
        else linkNew s x (s.links.prev (some a)) (some a), s.fresh)

/-- mirrors Containers_T.cpp:1554-1587 -/
def remove (x : α) : Option (Int × MultiSet α) :=
  (locate o s x none).map fun
    | (0, some a) => (0, { s with links := s.links.unlink (some a), curSize := s.curSize - 1 })
    | _ => (-1, s)

/-- The answer, with the iterator's item.
mirrors Containers_T.cpp:1589-1605 -/
def find (x : α) (current : Option Nat) : Option (Int × Option α) :=
  (locate o s x current).map fun
    | (0, some a) => (0, some (s.item a))
    | _ => (-1, none)

/-- The nodes are freed.
mirrors Containers_T.cpp:1770-1791 -/
def deleteNodes : MultiSet α :=
  { s with
    links := ⟨update s.links.next none none, update s.links.prev none none⟩
    curSize := 0 }

/-- Each node is inserted from where the one before was.
mirrors Containers_T.cpp:1758-1768 -/
def insertAll : MultiSet α → Option Nat → List α → Option (MultiSet α)
  | s, _, [] => some s
  | s, position, x :: xs =>
    (insertFrom o s x position).bind fun (s, a) => insertAll s (some a) xs

def copyNodes (us : MultiSet α) : Option (MultiSet α) :=
  (walk (fun a => us.links.next (some a)) us.curSize (us.links.next none)).bind fun nodes =>
    insertAll o s (s.links.next none) (nodes.map us.item)

/-- An iterator after so many calls of `advance`. -/
def iterator : Nat → Option Nat
  | 0 => s.links.next none
  | k + 1 => (iterator k).bind fun a => s.links.next (some a)

end MultiSet

/-- Calls on the sets; `assign i j` is `operator=`, on a new set the copy constructor. -/
inductive Op (α : Type*)
  | insert (i : Nat) (x : α)
  | insertAt (i : Nat) (x : α) (k : Nat)
  | remove (i : Nat) (x : α)
  | find (i : Nat) (x : α) (k : Nat)
  | assign (i j : Nat)

section Calls

open MultiSet

variable {α : Type*} (o : Order α)

/-- An answer, and the sets. -/
def apply (s : Nat → MultiSet α) : Op α → Option ((Int × Option α) × (Nat → MultiSet α))
  | .insert i x => (insertFrom o (s i) x ((s i).links.next none)).map fun r =>
      ((0, none), update s i r.1)
  | .insertAt i x k => (insertFrom o (s i) x (iterator (s i) k)).map fun r =>
      ((0, none), update s i r.1)
  | .remove i x => ((s i).remove o x).map fun r => ((r.1, none), update s i r.2)
  | .find i x k => ((s i).find o x (iterator (s i) k)).map fun r => (r, s)
  | .assign i j => if i = j then some ((0, none), s)
      else (copyNodes o (s i).deleteNodes (s j)).map fun t => ((0, none), update s i t)

/-- All answers, and the sets afterwards. -/
def exec : (Nat → MultiSet α) → List (Op α) →
    Option (List (Int × Option α) × (Nat → MultiSet α))
  | s, [] => some ([], s)
  | s, op :: ops => (apply o s op).bind fun r => (exec r.2 ops).map fun t => (r.1 :: t.1, t.2)

/-- What a call does to multisets; equal items are taken for each other by `remove`. -/
def Answers (m : Nat → Multiset α) (op : Op α) (r : Int × Option α) (m' : Nat → Multiset α) :
    Prop :=
  match op with
  | .insert i x => r.1 = 0 ∧ m' = update m i (x ::ₘ m i)
  | .insertAt i x _ => r.1 = 0 ∧ m' = update m i (x ::ₘ m i)
  | .remove i x =>
    (r.1 = 0 ∧ ∃ y rest, o.equal x y ∧ m i = y ::ₘ rest ∧ m' = update m i rest) ∨
      (r.1 = -1 ∧ (∀ y ∈ m i, ¬o.equal x y) ∧ m' = m)
  | .find i x _ => m' = m ∧ ((∃ y ∈ m i, o.equal x y ∧ r = (0, some y)) ∨
      (r = (-1, none) ∧ ∀ y ∈ m i, ¬o.equal x y))
  | .assign i j => r.1 = 0 ∧ m' = update m i (m j)

def AllAnswers : (Nat → Multiset α) → List (Op α) → List (Int × Option α) →
    (Nat → Multiset α) → Prop
  | m, [], rs, m' => rs = [] ∧ m' = m
  | m, op :: ops, rs, m' =>
    ∃ r rest t, rs = r :: rest ∧ Answers o m op r t ∧ AllAnswers t ops rest m'

/-- The nodes: linked from `head_` to `tail_`, sorted, counted, and allocated. -/
structure Sorted (s : MultiSet α) (l : List Nat) : Prop where
  lists : s.links.Lists l
  size : s.curSize = l.length
  sorted : l.Pairwise fun a b => o.less (s.item b) (s.item a) = false
  old : ∀ a ∈ l, a < s.fresh

def Holds (s : MultiSet α) (m : Multiset α) : Prop :=
  ∃ l, Sorted o s l ∧ (l.map s.item : Multiset α) = m

end Calls

namespace MultiSet

variable {α : Type*} {o : Order α} {s : MultiSet α} {l : List Nat}

theorem sorted_empty [Inhabited α] : Sorted o (empty : MultiSet α) [] :=
  ⟨Links.Ring.empty ⟨rfl, rfl⟩, rfl, Pairwise.nil, by simp⟩

/-! ## `locate` -/

variable {l₁ l₂ : List Nat}

theorem forward_eq (h : s.links.Lists l) (x : α) {a fuel : Nat} (hl : l = l₁ ++ a :: l₂)
    (hfuel : l₂.length < fuel) :
    ∃ m₁ b m₂, l = m₁ ++ b :: m₂ ∧ forward o s x fuel (some a) = some (some b) ∧
      (o.less (s.item b) x = true → m₂ = []) := by
  induction l₂ generalizing l₁ a fuel with
  | nil =>
    obtain ⟨n, rfl⟩ : ∃ n, fuel = n + 1 := ⟨fuel - 1, by simp at hfuel; omega⟩
    have hnext : s.links.next (some a) = none := by
      have hat := h
      rw [hl] at hat
      exact hat.at.1
    exact ⟨l₁, a, [], hl, by simp [forward, hnext], fun _ => rfl⟩
  | cons c l₂ ih =>
    obtain ⟨n, rfl⟩ : ∃ n, fuel = n + 1 := ⟨fuel - 1, by simp at hfuel; omega⟩
    have hnext : s.links.next (some a) = some c := by
      have hat := h
      rw [hl] at hat
      exact hat.at.1
    cases hless : o.less (s.item a) x with
    | true =>
      have hmove : l = (l₁ ++ [a]) ++ c :: l₂ := by rw [hl, append_cons]
      obtain ⟨m₁, b, m₂, hm, hrest⟩ := ih hmove
        (show l₂.length < n by simpa using hfuel)
      refine ⟨m₁, b, m₂, hm, ?_⟩
      simpa [forward, hless, hnext] using hrest
    | false => exact ⟨l₁, a, c :: l₂, hl, by simp [forward, hless], by simp [hless]⟩

theorem backward_eq (h : Sorted o s l) (x : α) {a fuel : Nat} (hl : l = l₁ ++ a :: l₂)
    (hfuel : l₁.length < fuel) :
    ∃ m₁ b m₂, l = m₁ ++ b :: m₂ ∧ backward o s x fuel (some a) = some (some b) ∧
      (o.less x (s.item b) = true → m₁ = []) ∧
      (m₂ = l₂ ∧ b = a ∨ ∀ c ∈ m₂, o.less x (s.item c) = true) := by
  induction l₁ using reverseRecOn generalizing l₂ a fuel with
  | nil =>
    obtain ⟨n, rfl⟩ : ∃ n, fuel = n + 1 := ⟨fuel - 1, by simp at hfuel; omega⟩
    have hprev : s.links.prev (some a) = none := by
      have hat := h.lists
      rw [hl] at hat
      exact hat.at.2
    exact ⟨[], a, l₂, hl, by simp [backward, hprev], fun _ => rfl, inl ⟨rfl, rfl⟩⟩
  | append_singleton l₁ c ih =>
    obtain ⟨n, rfl⟩ : ∃ n, fuel = n + 1 := ⟨fuel - 1, by simp at hfuel; omega⟩
    have hprev : s.links.prev (some a) = some c := by
      have hat := h.lists
      rw [hl] at hat
      simpa using hat.at.2
    cases hless : o.less x (s.item a) with
    | true =>
      -- From here on all nodes behind are greater than the item.
      have hgreater : ∀ d ∈ a :: l₂, o.less x (s.item d) = true := by
        intro d hd
        obtain rfl | hd := mem_cons.mp hd
        · exact hless
        · have hsorted := h.sorted
          rw [hl] at hsorted
          have htail := (pairwise_append.mp hsorted).2.1
          exact o.lt_of_lt_of_le hless ((pairwise_cons.mp htail).1 d hd)
      have hmove : l = l₁ ++ c :: (a :: l₂) := by rw [hl, ← append_cons]
      obtain ⟨m₁, b, m₂, hm, hb, hfirst, hback⟩ := ih hmove
        (show l₁.length < n by simpa using hfuel)
      refine ⟨m₁, b, m₂, hm, by simpa [backward, hless, hprev] using hb, hfirst, inr ?_⟩
      obtain ⟨rfl, -⟩ | hback := hback
      · exact hgreater
      · exact hback
    | false =>
      refine ⟨l₁ ++ [c], a, l₂, hl, by simp [backward, hless], by simp [hless], ?_⟩
      exact inl ⟨rfl, rfl⟩

/-- **`locate`**: there are no nodes, or it stops at one that is less than the item with
greater ones behind it, equal to it, or the first one and greater. -/
theorem locate_eq (h : Sorted o s l) (x : α) {start : Option Nat} (hstart : ∀ a ∈ start, a ∈ l) :
    (l = [] ∧ locate o s x start = some (1, none)) ∨
    ∃ m₁ b m₂ r, l = m₁ ++ b :: m₂ ∧ locate o s x start = some (r, some b) ∧
      ((r = -1 ∧ o.less (s.item b) x = true ∧ ∀ c ∈ m₂, o.less x (s.item c) = true) ∨
        (r = 0 ∧ o.equal x (s.item b)) ∨ (r = 1 ∧ o.less x (s.item b) = true ∧ m₁ = [])) := by
  cases l with
  | nil =>
    have hnone : start = none := by
      cases start with
      | none => rfl
      | some a => exact absurd (hstart a rfl) not_mem_nil
    refine inl ⟨rfl, ?_⟩
    have hhead : s.links.next none = none := h.lists.head
    simp [hnone, locate, hhead, forward, backward, side]
  | cons d l =>
    obtain ⟨a, ha, hmem⟩ : ∃ a, (start <|> s.links.next none) = some a ∧ a ∈ d :: l := by
      cases start with
      | none => exact ⟨d, h.lists.head, mem_cons_self⟩
      | some a => exact ⟨a, rfl, hstart a rfl⟩
    obtain ⟨l₁, l₂, hl⟩ := append_of_mem hmem
    have hlen := congrArg length hl
    rw [length_append, length_cons, length_cons] at hlen
    have hsize := h.size
    rw [length_cons] at hsize
    obtain ⟨k₁, b, k₂, hk, hf, hlast⟩ := forward_eq (o := o) h.lists x hl
      (show l₂.length < s.curSize + 1 by omega)
    have hklen := congrArg length hk
    rw [length_append, length_cons, length_cons] at hklen
    obtain ⟨m₁, c, m₂, hm, hb, hfirst, hback⟩ := backward_eq h x hk
      (show k₁.length < s.curSize + 1 by omega)
    refine inr ⟨m₁, c, m₂, side o s x (some c), hm, by simp [locate, ha, hf, hb], ?_⟩
    cases hgt : o.less x (s.item c) with
    | true => exact inr (inr ⟨by simp [side, hgt], rfl, hfirst hgt⟩)
    | false =>
      cases hlt : o.less (s.item c) x with
      | false => exact inr (inl ⟨by simp [side, hgt, hlt], hgt, hlt⟩)
      | true =>
        refine inl ⟨by simp [side, hgt, hlt], rfl, ?_⟩
        obtain ⟨rfl, rfl⟩ | hback := hback
        · rw [hlast hlt]
          simp
        · exact hback

/-! ## The calls -/

theorem linkNew_item (h : Sorted o s l) (x : α) (p q : Option Nat) {a : Nat} (ha : a ∈ l) :
    (linkNew s x p q).item a = s.item a := update_of_ne (Nat.ne_of_lt (h.old a ha)) _ _

/-- **A node is linked in** where it keeps the order. -/
theorem linkNew_sorted (h : Sorted o s (l₁ ++ l₂)) {x : α}
    (hleft : ∀ a ∈ l₁, o.less x (s.item a) = false) (hright : ∀ a ∈ l₂, o.less (s.item a) x = false) :
    Sorted o (linkNew s x l₁.getLast? l₂.head?) (l₁ ++ s.fresh :: l₂) := by
  have hnew : s.fresh ∉ l₁ ++ l₂ := fun hmem => (h.old _ hmem).false
  have hitem : ∀ a ∈ l₁ ++ l₂, (linkNew s x l₁.getLast? l₂.head?).item a = s.item a :=
    fun a ha => linkNew_item h x _ _ ha
  have hself : (linkNew s x l₁.getLast? l₂.head?).item s.fresh = x := update_self _ _ _
  have hp : l₁.getLast? ≠ some s.fresh := fun e =>
    hnew (mem_append_left _ (mem_of_getLast? e))
  have hq : l₂.head? ≠ some s.fresh := fun e =>
    hnew (mem_append_right _ (mem_of_head? e))
  refine ⟨?_, ?_, ?_, ?_⟩
  · refine h.lists.insert (c := [s.fresh]) (.singleton _) (nodup_singleton _) ?_ rfl rfl
      (fun z hz hza => ?_) (fun z hz hza => ?_) ⟨?_, ?_⟩ ⟨?_, ?_⟩
    · intro z hz
      rwa [mem_singleton.mp hz]
    · exact (update_of_ne hz _ _).trans (update_of_ne hza _ _)
    · exact (update_of_ne hz _ _).trans (update_of_ne hza _ _)
    · exact update_self _ _ _
    · exact (update_of_ne hq.symm _ _).trans (update_self _ _ _)
    · exact (update_of_ne hp.symm _ _).trans (update_self _ _ _)
    · exact update_self _ _ _
  · change s.curSize + 1 = _
    rw [h.size, length_append, length_append, length_cons, Nat.add_assoc]
  · obtain ⟨h₁, h₂, h₁₂⟩ := pairwise_append.mp h.sorted
    refine pairwise_append.mpr ⟨?_, pairwise_cons.mpr ⟨?_, ?_⟩, ?_⟩
    · refine h₁.imp_of_mem fun ha hb hab => ?_
      rwa [hitem _ (mem_append_left _ ha), hitem _ (mem_append_left _ hb)]
    · intro b hb
      rw [hself, hitem b (mem_append_right _ hb)]
      exact hright b hb
    · refine h₂.imp_of_mem fun ha hb hab => ?_
      rwa [hitem _ (mem_append_right _ ha), hitem _ (mem_append_right _ hb)]
    · intro a ha b hb
      rw [hitem a (mem_append_left _ ha)]
      obtain rfl | hb := mem_cons.mp hb
      · rw [hself]
        exact hleft a ha
      · rw [hitem b (mem_append_right _ hb)]
        exact h₁₂ a ha b hb
  · intro a ha
    have hold : a = s.fresh ∨ a ∈ l₁ ++ l₂ := by
      rw [mem_append, mem_cons] at ha
      rw [mem_append]
      tauto
    obtain rfl | ha := hold
    · exact Nat.lt_succ_self _
    · exact Nat.lt_succ_of_lt (h.old a ha)

theorem linkNew_items (h : Sorted o s (l₁ ++ l₂)) (x : α) (p q : Option Nat) :
    ((l₁ ++ s.fresh :: l₂).map (linkNew s x p q).item : Multiset α) =
      x ::ₘ ((l₁ ++ l₂).map s.item : Multiset α) := by
  have hself : (linkNew s x p q).item s.fresh = x := update_self _ _ _
  have h₁ : l₁.map (linkNew s x p q).item = l₁.map s.item :=
    map_congr_left fun a ha => linkNew_item h x p q (mem_append_left _ ha)
  have h₂ : l₂.map (linkNew s x p q).item = l₂.map s.item :=
    map_congr_left fun a ha => linkNew_item h x p q (mem_append_right _ ha)
  rw [map_append, map_cons, hself, h₁, h₂, map_append, Multiset.cons_coe, Multiset.coe_eq_coe]
  exact perm_middle

/-- The place that `locate` found, between the nodes that are not greater and those that are
not less. -/
theorem insertFrom_holds (h : Sorted o s l) (x : α) {position : Option Nat}
    (hpos : ∀ a ∈ position, a ∈ l) : ∃ s', insertFrom o s x position = some (s', s.fresh) ∧
      ∃ l', Sorted o s' l' ∧ s.fresh ∈ l' ∧
        (l'.map s'.item : Multiset α) = x ::ₘ (l.map s.item : Multiset α) := by
  suffices hsplit : ∃ l₁ l₂, l = l₁ ++ l₂ ∧
      insertFrom o s x position = some (linkNew s x l₁.getLast? l₂.head?, s.fresh) ∧
      (∀ a ∈ l₁, o.less x (s.item a) = false) ∧ ∀ a ∈ l₂, o.less (s.item a) x = false by
    obtain ⟨l₁, l₂, rfl, heq, hleft, hright⟩ := hsplit
    exact ⟨_, heq, _, linkNew_sorted h hleft hright, by simp, linkNew_items h x _ _⟩
  obtain ⟨rfl, heq⟩ | ⟨m₁, b, m₂, r, rfl, heq, hcase⟩ := locate_eq h x hpos
  · exact ⟨[], [], rfl, by simp [insertFrom, heq], by simp, by simp⟩
  have hat := h.lists.at
  have hsorted := pairwise_append.mp h.sorted
  have htail := pairwise_cons.mp hsorted.2.1
  obtain ⟨rfl, hless, hgreater⟩ | hbefore := hcase
  · refine ⟨m₁ ++ [b], m₂, by simp, by simp [insertFrom, heq, hat.1], ?_, ?_⟩
    · intro a ha
      refine o.le_trans ?_ (o.le_of_lt hless)
      obtain ha | ha := mem_append.mp ha
      · exact hsorted.2.2 a ha b mem_cons_self
      · rw [mem_singleton.mp ha]
        exact o.irrefl _
    · exact fun a ha => o.le_of_lt (hgreater a ha)
  · have hr : r ≠ -1 := by
      obtain ⟨rfl, -⟩ | ⟨rfl, -⟩ := hbefore <;> decide
    have hle : o.less (s.item b) x = false := by
      obtain ⟨-, heq⟩ | ⟨-, hless, -⟩ := hbefore
      · exact heq.2
      · exact o.le_of_lt hless
    refine ⟨m₁, b :: m₂, rfl, by simp [insertFrom, heq, hr, hat.2], ?_, ?_⟩
    · intro a ha
      obtain ⟨-, heq⟩ | ⟨-, -, rfl⟩ := hbefore
      · exact o.le_trans (hsorted.2.2 a ha b mem_cons_self) heq.1
      · cases ha
    · intro a ha
      obtain rfl | ha := mem_cons.mp ha
      · exact hle
      · exact o.le_trans hle (htail.1 a ha)

theorem insertAll_holds {xs : List α} (h : Sorted o s l) {position : Option Nat}
    (hpos : ∀ a ∈ position, a ∈ l) : ∃ s', insertAll o s position xs = some s' ∧
      Holds o s' ((xs : Multiset α) + (l.map s.item : Multiset α)) := by
  induction xs generalizing s l position with
  | nil => exact ⟨s, rfl, l, h, by simp⟩
  | cons x xs ih =>
    obtain ⟨t, ht, l', hl', hmem, hitems⟩ := insertFrom_holds h x hpos
    have hlast : ∀ a ∈ some s.fresh, a ∈ l' := by simpa using hmem
    obtain ⟨s', hs', hholds⟩ := ih hl' hlast
    refine ⟨s', by simp [insertAll, ht, hs'], ?_⟩
    rw [hitems, Multiset.add_cons, ← Multiset.cons_add, Multiset.cons_coe] at hholds
    exact hholds

theorem copyNodes_holds {us : MultiSet α} (h : Sorted o us l) :
    ∃ s', copyNodes o s.deleteNodes us = some s' ∧ Holds o s' (l.map us.item) := by
  have hempty : Sorted o s.deleteNodes [] :=
    ⟨Links.Ring.empty ⟨by simp [deleteNodes], by simp [deleteNodes]⟩, rfl,
      Pairwise.nil, by simp⟩
  have hhead : s.deleteNodes.links.next none = none := by simp [deleteNodes]
  have hfirst : ∀ a ∈ s.deleteNodes.links.next none, a ∈ ([] : List Nat) := by simp [hhead]
  obtain ⟨s', hs', hholds⟩ := insertAll_holds hempty hfirst
  refine ⟨s', ?_, by simpa using hholds⟩
  rw [copyNodes, h.lists.walks.walk (le_of_eq h.size.symm)]
  exact hs'

theorem not_equal_of_locate (h : Sorted o s l) {m₁ m₂ : List Nat} {b : Nat} {x : α}
    (hl : l = m₁ ++ b :: m₂)
    (hcase : (o.less (s.item b) x = true ∧ ∀ c ∈ m₂, o.less x (s.item c) = true) ∨
      (o.less x (s.item b) = true ∧ m₁ = [])) : ∀ a ∈ l, ¬o.equal x (s.item a) := by
  rintro a ha ⟨hxa, hax⟩
  have hsorted := h.sorted
  rw [hl] at hsorted ha
  obtain ⟨-, htail, hall⟩ := pairwise_append.mp hsorted
  rw [mem_append, mem_cons] at ha
  obtain ⟨hless, hgreater⟩ | ⟨hless, rfl⟩ := hcase
  · obtain ha | rfl | ha := ha
    · -- What is before `b` is less than the item.
      obtain hba | hlt := o.weak hless (s.item a)
      · simp [hall a ha b mem_cons_self] at hba
      · simp [hlt] at hax
    · simp [hax] at hless
    · simp [hgreater a ha] at hxa
  · obtain ha | rfl | ha := ha
    · cases ha
    · simp [hxa] at hless
    · have hlt := o.lt_of_lt_of_le hless ((pairwise_cons.mp htail).1 a ha)
      simp [hlt] at hxa

/-- **`locate` finds** an equal node from any node if there is one. -/
theorem locate_finds (h : Sorted o s l) (x : α) {start : Option Nat} (hstart : ∀ a ∈ start, a ∈ l) :
    (∃ b ∈ l, o.equal x (s.item b) ∧ locate o s x start = some (0, some b)) ∨
      ∃ r p, locate o s x start = some (r, p) ∧ r ≠ 0 ∧ ∀ a ∈ l, ¬o.equal x (s.item a) := by
  obtain ⟨rfl, heq⟩ | ⟨m₁, b, m₂, r, hl, heq, hcase⟩ := locate_eq h x hstart
  · exact inr ⟨_, _, heq, by decide, by simp⟩
  obtain ⟨rfl, hless, hgreater⟩ | ⟨rfl, hequal⟩ | ⟨rfl, hless, hfirst⟩ := hcase
  · exact inr ⟨_, _, heq, by decide, not_equal_of_locate h hl (inl ⟨hless, hgreater⟩)⟩
  · exact inl ⟨b, by simp [hl], hequal, heq⟩
  · exact inr ⟨_, _, heq, by decide, not_equal_of_locate h hl (inr ⟨hless, hfirst⟩)⟩

theorem unlink_sorted {b : Nat} (h : Sorted o s (l₁ ++ b :: l₂)) :
    Sorted o { s with links := s.links.unlink (some b), curSize := s.curSize - 1 }
      (l₁ ++ l₂) := by
  have hsub : (l₁ ++ l₂).Sublist (l₁ ++ b :: l₂) :=
    Sublist.append_left (sublist_cons_self b l₂) l₁
  refine ⟨?_, ?_, h.sorted.sublist hsub, fun a ha => h.old a (hsub.subset ha)⟩
  · have hring : s.links.Ring none (l₁.map some ++ some b :: l₂.map some) := by
      have hlists := h.lists
      unfold Links.Lists at hlists
      rwa [map_append, map_cons] at hlists
    unfold Links.Lists
    rw [map_append]
    exact hring.unlink
  · change s.curSize - 1 = _
    rw [h.size, length_append, length_append, length_cons, ← Nat.add_assoc, Nat.add_sub_cancel]

theorem iterator_mem (h : Sorted o s l) (k : Nat) : ∀ a ∈ iterator s k, a ∈ l := by
  have hget : iterator s k = l[k]? := by
    induction k with
    | zero => exact h.lists.head.trans head?_eq_getElem?
    | succ k ih =>
      rw [iterator, ih]
      cases hk : l[k]? with
      | none =>
        have hlen := getElem?_eq_none_iff.mp hk
        exact (getElem?_eq_none_iff.mpr (by omega)).symm
      | some a =>
        obtain ⟨hlt, ha⟩ := List.getElem?_eq_some_iff.mp hk
        have hl : l = l.take k ++ a :: l.drop (k + 1) := by
          rw [← ha, cons_getElem_drop_succ, take_append_drop]
        have hat := h.lists
        rw [hl] at hat
        change s.links.next (some a) = _
        rw [hat.at.1, head?_drop]
  intro a ha
  rw [hget] at ha
  exact mem_of_getElem? ha

end MultiSet

section Runs

open MultiSet

variable {α : Type*} {o : Order α}

def AllHold (o : Order α) (s : Nat → MultiSet α) (m : Nat → Multiset α) : Prop :=
  ∀ i, Holds o (s i) (m i)

variable {m : Nat → Multiset α} {s : Nat → MultiSet α}

theorem AllHold.update (h : AllHold o s m) (i : Nat) {t : MultiSet α} {n : Multiset α}
    (ht : Holds o t n) : AllHold o (update s i t) (update m i n) := by
  intro j
  by_cases hj : j = i
  · subst hj
    simpa using ht
  · simpa [hj] using h j

theorem insertFrom_all (h : AllHold o s m) (i : Nat) (x : α) {position : Option Nat}
    (hpos : ∀ l, Sorted o (s i) l → ∀ a ∈ position, a ∈ l) :
    ∃ r, insertFrom o (s i) x position = some r ∧
      AllHold o (update s i r.1) (update m i (x ::ₘ m i)) := by
  obtain ⟨l, hl, hm⟩ := h i
  obtain ⟨t, ht, l', hl', -, hitems⟩ := insertFrom_holds hl x (hpos l hl)
  exact ⟨_, ht, h.update i ⟨l', hl', by rw [hitems, hm]⟩⟩

theorem remove_all (h : AllHold o s m) (i : Nat) (x : α) :
    ∃ r m', apply o s (.remove i x) = some r ∧ Answers o m (.remove i x) r.1 m' ∧
      AllHold o r.2 m' := by
  obtain ⟨l, hl, hm⟩ := h i
  have hnull : ∀ a ∈ (none : Option Nat), a ∈ l := by simp
  obtain ⟨b, hb, hequal, heq⟩ | ⟨r, p, heq, hr, hnone⟩ := locate_finds hl x hnull
  · obtain ⟨l₁, l₂, rfl⟩ := append_of_mem hb
    have hremove : apply o s (.remove i x) = some ((0, none), update s i
        { s i with links := (s i).links.unlink (some b), curSize := (s i).curSize - 1 }) := by
      simp [apply, MultiSet.remove, heq]
    refine ⟨_, _, hremove, inl ⟨rfl, _, _, hequal, ?_, rfl⟩,
      h.update i ⟨_, unlink_sorted hl, rfl⟩⟩
    rw [← hm, Multiset.cons_coe, Multiset.coe_eq_coe, map_append, map_append, map_cons]
    exact perm_middle
  · have hremove : apply o s (.remove i x) = some ((-1, none), s) := by
      simp only [apply, MultiSet.remove, heq, Option.map_some]
      split
      · rename_i e
        exact absurd (congrArg Prod.fst e) hr
      · simp
    refine ⟨_, m, hremove, inr ⟨rfl, ?_, rfl⟩, h⟩
    rw [← hm]
    simpa using hnone

theorem find_all (h : AllHold o s m) (i : Nat) (x : α) (k : Nat) :
    ∃ r, apply o s (.find i x k) = some r ∧ r.2 = s ∧ Answers o m (.find i x k) r.1 m := by
  obtain ⟨l, hl, hm⟩ := h i
  obtain ⟨b, hb, hequal, heq⟩ | ⟨r, p, heq, hr, hnone⟩ := locate_finds hl x (iterator_mem hl k)
  · have hfind : apply o s (.find i x k) = some ((0, some ((s i).item b)), s) := by
      simp [apply, MultiSet.find, heq]
    refine ⟨_, hfind, rfl, rfl, inl ⟨_, ?_, hequal, rfl⟩⟩
    rw [← hm]
    simpa using ⟨b, hb, rfl⟩
  · have hfind : apply o s (.find i x k) = some ((-1, none), s) := by
      simp only [apply, MultiSet.find, heq, Option.map_some]
      split
      · rename_i e
        exact absurd (congrArg Prod.fst e) hr
      · rfl
    refine ⟨_, hfind, rfl, rfl, inr ⟨rfl, ?_⟩⟩
    rw [← hm]
    simpa using hnone

/-- **One call.** -/
theorem apply_holds (h : AllHold o s m) (op : Op α) :
    ∃ r m', apply o s op = some r ∧ Answers o m op r.1 m' ∧ AllHold o r.2 m' := by
  cases op with
  | insert i x =>
    have hfirst : ∀ l, Sorted o (s i) l → ∀ a ∈ (s i).links.next none, a ∈ l :=
      fun l hl => iterator_mem hl 0
    obtain ⟨r, hr, hall⟩ := insertFrom_all h i x hfirst
    exact ⟨((0, none), update s i r.1), _, by simp [apply, hr], ⟨rfl, rfl⟩, hall⟩
  | insertAt i x k =>
    obtain ⟨r, hr, hall⟩ := insertFrom_all h i x fun l hl => iterator_mem hl k
    exact ⟨((0, none), update s i r.1), _, by simp [apply, hr], ⟨rfl, rfl⟩, hall⟩
  | remove i x => exact remove_all h i x
  | find i x k =>
    obtain ⟨r, hr, hsame, hans⟩ := find_all h i x k
    exact ⟨r, m, hr, hans, by rwa [hsame]⟩
  | assign i j =>
    by_cases hij : i = j
    · subst hij
      exact ⟨((0, none), s), m, by simp [apply], ⟨rfl, by simp⟩, h⟩
    · obtain ⟨l, hl, hm⟩ := h j
      obtain ⟨t, ht, hholds⟩ := copyNodes_holds (s := s i) hl
      rw [hm] at hholds
      exact ⟨((0, none), update s i t), _, by simp [apply, hij, ht], ⟨rfl, rfl⟩,
        h.update i hholds⟩

theorem exec_holds (h : AllHold o s m) (ops : List (Op α)) :
    ∃ rs s' m', exec o s ops = some (rs, s') ∧ AllAnswers o m ops rs m' ∧ AllHold o s' m' := by
  induction ops generalizing s m with
  | nil => exact ⟨[], s, m, rfl, ⟨rfl, rfl⟩, h⟩
  | cons op ops ih =>
    obtain ⟨r, m₁, hr, hans, hall⟩ := apply_holds h op
    obtain ⟨rs, s', m', hrs, hrest, hall'⟩ := ih hall
    exact ⟨r.1 :: rs, s', m', by simp [exec, hr, hrs], ⟨r.1, rs, m₁, rfl, hans, hrest⟩, hall'⟩

/-- **The sets stay sorted**, and answer as multisets do. -/
theorem stays_sorted [Inhabited α] (o : Order α) (ops : List (Op α)) :
    ∃ rs s' m', exec o (fun _ => empty) ops = some (rs, s') ∧
      AllAnswers o (fun _ => 0) ops rs m' ∧ AllHold o s' m' :=
  exec_holds (fun _ => ⟨[], sorted_empty, rfl⟩) ops

/-- Numbers by their tens: 17 is linked before 15, but behind it in the copy. -/
example : (exec ⟨fun x y : Nat => x / 10 < y / 10, by simp, by simp; omega, by simp; omega⟩
      (fun _ => empty) [.insert 0 15, .insertAt 0 25 1, .insertAt 0 17 1, .assign 1 0,
        .remove 1 10, .find 1 12 7, .find 0 31 0]).map (·.1) =
    some [(0, none), (0, none), (0, none), (0, none), (0, none), (0, some 17), (-1, none)] := by
  decide

end Runs

end Atcd.Maps.OrderedMultiSet
