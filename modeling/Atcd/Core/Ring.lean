import Mathlib
/-!
# Doubly linked lists

Nodes with a `next` and a `prev` pointer. A list that ends in null pointers, with
a head and a tail pointer beside it, is a ring through the null pointer: its
`next` is the head and its `prev` the tail. So an empty list, the first and the
last node need no cases of their own.

`Ring r b l`: from `b` the ring goes through the nodes of `l` and back to `b`.
The writes of an operation are described pointwise, in any order.
-/
namespace Atcd.Core

open List Function Option

structure Links (P : Type*) where
  next : P → P
  prev : P → P

namespace Links

variable {P : Type*} {r r' : Links P} {b p q x y : P} {l l₁ l₂ c : List P}

def Linked (r : Links P) (p q : P) : Prop := r.next p = q ∧ r.prev q = p

def Path (r : Links P) (l : List P) : Prop := l.IsChain r.Linked

theorem Path.frame (h : r.Path l) (hnext : ∀ z ∈ l.dropLast, r'.next z = r.next z)
    (hprev : ∀ z ∈ l.tail, r'.prev z = r.prev z) : r'.Path l := by
  induction l with
  | nil => exact .nil
  | cons a l ih =>
    cases l with
    | nil => exact .singleton a
    | cons d l =>
      obtain ⟨hab, hrest⟩ := isChain_cons_cons.mp h
      have hnext' : ∀ z ∈ a :: (d :: l).dropLast, r'.next z = r.next z := hnext
      refine isChain_cons_cons.mpr ⟨⟨?_, ?_⟩, ih hrest (fun z hz => ?_) (fun z hz => ?_)⟩
      · rw [hnext' a mem_cons_self]
        exact hab.1
      · rw [hprev d mem_cons_self]
        exact hab.2
      · exact hnext' z (mem_cons_of_mem _ hz)
      · exact hprev z (mem_cons_of_mem _ hz)

/-- The ring from `b` through `l` back to `b`. -/
structure Ring (r : Links P) (b : P) (l : List P) : Prop where
  path : r.Path (b :: l ++ [b])
  nodup : (b :: l).Nodup

theorem Ring.empty (h : r.Linked b b) : r.Ring b [] :=
  ⟨isChain_cons_cons.mpr ⟨h, .singleton b⟩, nodup_singleton b⟩

theorem Ring.linked (h : r.Ring b (l₁ ++ l₂)) (hp : (b :: l₁).getLast? = some p)
    (hq : (l₂ ++ [b]).head? = some q) : r.Linked p q := by
  have hpath : r.Path ((b :: l₁) ++ (l₂ ++ [b])) := by
    have hpath := h.path
    rwa [cons_append, append_assoc] at hpath
  exact (isChain_append.mp hpath).2.2 p hp q hq

theorem getLast?_mem_or {a : P} (hp : (b :: l).getLast? = some a) : a = b ∨ a ∈ l :=
  mem_cons.mp (mem_of_getLast? hp)

theorem head?_mem_or {a : P} (hq : (l ++ [b]).head? = some a) : a = b ∨ a ∈ l := by
  rcases mem_append.mp (mem_of_head? hq) with h | h
  · exact .inr h
  · exact .inl (mem_singleton.mp h)

theorem getLast?_not_mem_dropLast {a : P} (hl : l.Nodup) (hp : l.getLast? = some a) :
    a ∉ l.dropLast := by
  have hcat := dropLast_append_getLast? a hp
  rw [← hcat, nodup_append] at hl
  exact fun hmem => hl.2.2 a hmem a (mem_singleton_self a) rfl

theorem head?_not_mem_tail {a : P} (hl : l.Nodup) (hq : l.head? = some a) : a ∉ l.tail := by
  cases l with
  | nil => cases hq
  | cons d l =>
    cases hq
    exact (nodup_cons.mp hl).1

/-- The two parts of a ring, after writes to the seam and outside. -/
theorem Path.halves (r' : Links P) (h₁ : r.Path (b :: l₁)) (h₂ : r.Path (l₂ ++ [b]))
    (hnodup : (b :: (l₁ ++ l₂)).Nodup) (hp : (b :: l₁).getLast? = some p)
    (hq : (l₂ ++ [b]).head? = some q)
    (hnext : ∀ z, z = b ∨ z ∈ l₁ ++ l₂ → z ≠ p → r'.next z = r.next z)
    (hprev : ∀ z, z = b ∨ z ∈ l₁ ++ l₂ → z ≠ q → r'.prev z = r.prev z) :
    r'.Path (b :: l₁) ∧ r'.Path (l₂ ++ [b]) := by
  obtain ⟨hb, hnodup⟩ := nodup_cons.mp hnodup
  obtain ⟨hl₁, hl₂, hdisj⟩ := nodup_append.mp hnodup
  have hb₁ : b ∉ l₁ := fun hm => hb (mem_append_left _ hm)
  have hb₂ : b ∉ l₂ := fun hm => hb (mem_append_right _ hm)
  have hA : (b :: l₁).Nodup := nodup_cons.mpr ⟨hb₁, hl₁⟩
  have hB : (l₂ ++ [b]).Nodup := nodup_append.mpr ⟨hl₂, nodup_singleton b, fun z hz w hw e => by
      rw [mem_singleton.mp hw] at e
      exact hb₂ (e ▸ hz)⟩
  constructor
  · refine h₁.frame (fun z hz => ?_) (fun z hz => ?_)
    · have hzl : z = b ∨ z ∈ l₁ := mem_cons.mp (dropLast_subset _ hz)
      refine hnext z (hzl.imp_right (mem_append_left _)) fun e => ?_
      exact getLast?_not_mem_dropLast hA hp (e ▸ hz)
    · have hz₁ : z ∈ l₁ := hz
      refine hprev z (.inr (mem_append_left _ hz₁)) fun e => ?_
      rcases head?_mem_or hq with hqb | hq₂
      · exact hb₁ (hqb ▸ e ▸ hz₁)
      · exact hdisj z hz₁ q hq₂ e
  · refine h₂.frame (fun z hz => ?_) (fun z hz => ?_)
    · have hz₂ : z ∈ l₂ := by rwa [dropLast_concat] at hz
      refine hnext z (.inr (mem_append_right _ hz₂)) fun e => ?_
      rcases getLast?_mem_or hp with hpb | hp₁
      · exact hb₂ (hpb ▸ e ▸ hz₂)
      · exact hdisj p hp₁ z hz₂ e.symm
    · have hzl : z ∈ l₂ ++ [b] := mem_of_mem_tail hz
      refine hprev z ?_ fun e => head?_not_mem_tail hB hq (e ▸ hz)
      rcases mem_append.mp hzl with h | h
      · exact .inr (mem_append_right _ h)
      · exact .inl (mem_singleton.mp h)

theorem Path.append (h₁ : r.Path l₁) (h₂ : r.Path l₂) (hp : l₁.getLast? = some p)
    (hq : l₂.head? = some q) (hpq : r.Linked p q) : r.Path (l₁ ++ l₂) := by
  refine isChain_append.mpr ⟨h₁, h₂, ?_⟩
  rintro _ hp' _ hq'
  rw [hp] at hp'
  rw [hq] at hq'
  cases hp'
  cases hq'
  exact hpq

theorem perm_base_append (b : P) (l₁ c l₂ : List P) :
    (b :: (l₁ ++ (c ++ l₂))).Perm (c ++ b :: (l₁ ++ l₂)) :=
  ((perm_append_comm_assoc l₁ c l₂).cons b).trans perm_middle.symm

/-- **A path is linked in** between `p` and `q`. -/
theorem Ring.insert (h : r.Ring b (l₁ ++ l₂)) (hc : r.Path c) (hnodup : c.Nodup)
    (hfresh : ∀ z ∈ c, z ≠ b ∧ z ∉ l₁ ++ l₂)
    (hp : (b :: l₁).getLast? = some p) (hq : (l₂ ++ [b]).head? = some q)
    (hx : c.head? = some x) (hy : c.getLast? = some y)
    (hnext : ∀ z, z ≠ p → z ≠ y → r'.next z = r.next z)
    (hprev : ∀ z, z ≠ q → z ≠ x → r'.prev z = r.prev z)
    (hpx : r'.Linked p x) (hyq : r'.Linked y q) : r'.Ring b (l₁ ++ (c ++ l₂)) := by
  have hold : ∀ {a z}, a ∈ c → (z = b ∨ z ∈ l₁ ++ l₂) → z ≠ a := by
    rintro a z ha (rfl | hz) e
    · exact (hfresh a ha).1 e.symm
    · exact (hfresh a ha).2 (e ▸ hz)
  have hpath : r.Path ((b :: l₁) ++ (l₂ ++ [b])) := by simpa using h.path
  obtain ⟨hleft, hright⟩ := Path.halves r' hpath.left_of_append hpath.right_of_append h.nodup
    hp hq (fun z hz hzp => hnext z hzp (hold (mem_of_getLast? hy) hz))
    (fun z hz hzq => hprev z hzq (hold (mem_of_head? hx) hz))
  have hmid : r'.Path c := by
    refine hc.frame (fun z hz => ?_) (fun z hz => ?_)
    · have hzc := dropLast_subset _ hz
      refine hnext z (fun e => ?_) fun e => getLast?_not_mem_dropLast hnodup hy (e ▸ hz)
      exact hold hzc ((getLast?_mem_or hp).imp_right (mem_append_left _)) e.symm
    · have hzc := mem_of_mem_tail hz
      refine hprev z (fun e => ?_) fun e => head?_not_mem_tail hnodup hx (e ▸ hz)
      exact hold hzc ((head?_mem_or hq).imp_right (mem_append_right _)) e.symm
  have hhead : (c ++ (l₂ ++ [b])).head? = some x := by
    rw [head?_append, hx]
    rfl
  constructor
  · simpa using hleft.append (hmid.append hright hy hq hyq) hp hhead hpx
  · refine (perm_base_append b l₁ c l₂).nodup_iff.mpr (nodup_append.mpr
      ⟨hnodup, h.nodup, fun z hz w hw e => ?_⟩)
    exact hold hz (mem_cons.mp hw) e.symm

/-- **A part is taken out** from between `p` and `q`. -/
theorem Ring.remove (h : r.Ring b (l₁ ++ (c ++ l₂))) (hp : (b :: l₁).getLast? = some p)
    (hq : (l₂ ++ [b]).head? = some q) (hnext : ∀ z, z ≠ p → z ∉ c → r'.next z = r.next z)
    (hprev : ∀ z, z ≠ q → z ∉ c → r'.prev z = r.prev z) (hpq : r'.Linked p q) :
    r'.Ring b (l₁ ++ l₂) := by
  obtain ⟨_, hnodup, hdisj⟩ :=
    nodup_append.mp ((perm_base_append b l₁ c l₂).nodup_iff.mp h.nodup)
  have hkeep : ∀ {z}, z = b ∨ z ∈ l₁ ++ l₂ → z ∉ c := fun hz hc =>
    hdisj _ hc _ (mem_cons.mpr hz) rfl
  have hpath : r.Path ((b :: l₁) ++ (c ++ (l₂ ++ [b]))) := by simpa using h.path
  obtain ⟨hleft, hright⟩ := Path.halves r' hpath.left_of_append
    hpath.right_of_append.right_of_append hnodup hp hq (fun z hz hzp => hnext z hzp (hkeep hz))
    (fun z hz hzq => hprev z hzq (hkeep hz))
  exact ⟨by simpa using hleft.append hright hp hq hpq, hnodup⟩

theorem Ring.frame (h : r.Ring b l) (hnext : ∀ z, z = b ∨ z ∈ l → r'.next z = r.next z)
    (hprev : ∀ z, z = b ∨ z ∈ l → r'.prev z = r.prev z) : r'.Ring b l := by
  refine ⟨h.path.frame (fun z hz => hnext z ?_) fun z hz => hprev z ?_, h.nodup⟩
  · rw [dropLast_concat] at hz
    exact mem_cons.mp hz
  · rcases mem_append.mp (show z ∈ l ++ [b] from hz) with h | h
    · exact .inr h
    · exact .inl (mem_singleton.mp h)

/-! ### A node that changes its ring -/

/-- The neighbours of a node. -/
theorem Ring.at {a : P} (h : r.Ring b (l₁ ++ a :: l₂)) :
    (b :: l₁).getLast? = some (r.prev a) ∧ (l₂ ++ [b]).head? = some (r.next a) := by
  have h' : r.Ring b ((l₁ ++ [a]) ++ l₂) := by rwa [append_assoc]
  constructor
  · cases hp : (b :: l₁).getLast? with
    | none => simp at hp
    | some p => rw [(h.linked hp rfl).2]
  · cases hq : (l₂ ++ [b]).head? with
    | none => simp at hq
    | some q =>
      have hlast : (b :: (l₁ ++ [a])).getLast? = some a := by
        rw [← cons_append, getLast?_concat]
      rw [(h'.linked hlast hq).1]

theorem Ring.head? (h : r.Ring b l) : (l ++ [b]).head? = some (r.next b) := by
  have h' : r.Ring b ([] ++ l) := h
  cases hq : (l ++ [b]).head? with
  | none => simp at hq
  | some q =>
    have hbq : r.next b = q := (h'.linked rfl hq).1
    rw [hbq]

theorem Ring.getLast? (h : r.Ring b l) : (b :: l).getLast? = some (r.prev b) := by
  have h' : r.Ring b (l ++ []) := by rwa [append_nil]
  cases hp : (b :: l).getLast? with
  | none => simp at hp
  | some p =>
    have hpb : r.prev b = p := (h'.linked hp rfl).2
    rw [hpb]

section Move

variable [DecidableEq P] {a b' : P} {l' : List P}

/-- A node is taken out: its neighbours are linked. -/
def unlink (r : Links P) (a : P) : Links P where
  next := Function.update r.next (r.prev a) (r.next a)
  prev := Function.update r.prev (r.next a) (r.prev a)

/-- A node is put first. -/
def push (r : Links P) (b a : P) : Links P where
  next := Function.update (Function.update r.next a (r.next b)) b a
  prev := Function.update (Function.update r.prev a b) (r.next b) a

theorem Ring.unlink (h : r.Ring b (l₁ ++ a :: l₂)) : (r.unlink a).Ring b (l₁ ++ l₂) := by
  obtain ⟨hp, hq⟩ := h.at
  have h' : r.Ring b (l₁ ++ ([a] ++ l₂)) := h
  refine h'.remove hp hq (fun z hz _ => ?_) (fun z hz _ => ?_) ⟨?_, ?_⟩
  · exact update_of_ne hz _ _
  · exact update_of_ne hz _ _
  · exact update_self _ _ _
  · exact update_self _ _ _

theorem Ring.unlink_frame (h : r.Ring b (l₁ ++ a :: l₂)) (h' : r.Ring b' l')
    (hdisj : ∀ z, z = b' ∨ z ∈ l' → z ≠ b ∧ z ∉ l₁ ++ a :: l₂) : (r.unlink a).Ring b' l' := by
  obtain ⟨hp, hq⟩ := h.at
  refine h'.frame (fun z hz => update_of_ne ?_ _ _) fun z hz => update_of_ne ?_ _ _
  · rintro rfl
    rcases getLast?_mem_or hp with hb | hl
    · exact (hdisj _ hz).1 hb
    · exact (hdisj _ hz).2 (mem_append_left _ hl)
  · rintro rfl
    rcases head?_mem_or hq with hb | hl
    · exact (hdisj _ hz).1 hb
    · exact (hdisj _ hz).2 (mem_append_right _ (mem_cons_of_mem a hl))

theorem Ring.push (h : r.Ring b l) (hab : a ≠ b) (hal : a ∉ l) : (r.push b a).Ring b (a :: l) := by
  have hq := h.head?
  have hqa : r.next b ≠ a := by
    intro e
    rcases head?_mem_or hq with hb | hl
    · exact hab (e.symm.trans hb)
    · exact hal (e ▸ hl)
  have h' : r.Ring b ([] ++ l) := h
  refine h'.insert (c := [a]) (.singleton a) (nodup_singleton a) ?_ rfl hq rfl rfl
    (fun z hzb hza => ?_) (fun z hzq hza => ?_) ⟨?_, ?_⟩ ⟨?_, ?_⟩
  · intro z hz
    rw [mem_singleton.mp hz]
    exact ⟨hab, hal⟩
  · exact (update_of_ne hzb _ _).trans (update_of_ne hza _ _)
  · exact (update_of_ne hzq _ _).trans (update_of_ne hza _ _)
  · exact update_self _ _ _
  · exact (update_of_ne hqa.symm _ _).trans (update_self _ _ _)
  · exact (update_of_ne hab _ _).trans (update_self _ _ _)
  · exact update_self _ _ _

theorem Ring.push_frame (h : r.Ring b l) (h' : r.Ring b' l')
    (hdisj : ∀ z, z = b' ∨ z ∈ l' → z ≠ b ∧ z ≠ a ∧ z ∉ l) : (r.push b a).Ring b' l' := by
  refine h'.frame (fun z hz => ?_) fun z hz => ?_
  · obtain ⟨hb, ha, -⟩ := hdisj z hz
    exact (update_of_ne hb _ _).trans (update_of_ne ha _ _)
  · obtain ⟨hb, ha, hl⟩ := hdisj z hz
    refine (update_of_ne ?_ _ _).trans (update_of_ne ha _ _)
    rintro rfl
    rcases head?_mem_or h.head? with e | hm
    · exact hb e
    · exact hl hm

/-- **A node moves** from one ring to the front of another. -/
theorem Ring.move (h : r.Ring b (l₁ ++ a :: l₂)) (h' : r.Ring b' l') (hbb : b ≠ b')
    (hb : b ∉ l') (hb' : b' ∉ l₁ ++ a :: l₂) (hdisj : ∀ z ∈ l', z ∉ l₁ ++ a :: l₂) :
    ((r.unlink a).push b' a).Ring b (l₁ ++ l₂) ∧
      ((r.unlink a).push b' a).Ring b' (a :: l') := by
  have hmem : a ∈ l₁ ++ a :: l₂ := mem_append_right _ mem_cons_self
  obtain ⟨hbl, hl⟩ := nodup_cons.mp h.nodup
  have ha : a ∉ l₁ ++ l₂ := (nodup_cons.mp (perm_middle.nodup_iff.mp hl)).1
  have hsub : ∀ z, z ∈ l₁ ++ l₂ → z ∈ l₁ ++ a :: l₂ := fun z hz =>
    (mem_append.mp hz).elim (mem_append_left _)
      fun hz => mem_append_right _ (mem_cons_of_mem a hz)
  have hnew : (r.unlink a).Ring b' l' := by
    refine h.unlink_frame h' fun z hz => ?_
    rcases hz with rfl | hz
    · exact ⟨hbb.symm, hb'⟩
    · exact ⟨fun e => hb (e ▸ hz), hdisj z hz⟩
  refine ⟨hnew.push_frame h.unlink fun z hz => ?_, hnew.push ?_ fun hz => hdisj a hz hmem⟩
  · rcases hz with rfl | hz
    · exact ⟨hbb, fun e => hbl (e ▸ hmem), hb⟩
    · exact ⟨fun e => hb' (e ▸ hsub z hz), fun e => ha (e ▸ hz), fun hl => hdisj z hl (hsub z hz)⟩
  · exact fun e => hb' (e ▸ hmem)

/-- The pointer back to the base ends a walk along the ring. -/
def stop (b p : P) : Option P := if p = b then none else some p

end Move

theorem Ring.range' {r : Links Nat} {b s n : Nat} (hb : ∀ i, s ≤ i → i ≤ s + n → i ≠ b)
    (hfirst : r.Linked b s) (hmid : ∀ i, s ≤ i → i < s + n → r.Linked i (i + 1))
    (hlast : r.Linked (s + n) b) : r.Ring b (range' s (n + 1)) := by
  have hpath : r.Path (List.range' s (n + 1) ++ [b]) := by
    clear hb hfirst
    induction n generalizing s with
    | zero => exact isChain_cons_cons.mpr ⟨hlast, .singleton b⟩
    | succ n ih =>
      have hrest : r.Path (List.range' (s + 1) (n + 1) ++ [b]) := by
        refine ih (fun i hs hi => hmid i (by omega) (by omega)) ?_
        rwa [Nat.add_right_comm, Nat.add_assoc]
      exact isChain_cons_cons.mpr ⟨hmid s (by omega) (by omega), hrest⟩
  refine ⟨?_, nodup_cons.mpr ⟨fun hmem => ?_, nodup_range'⟩⟩
  · exact isChain_cons_cons.mpr ⟨hfirst, hpath⟩
  · obtain ⟨hlo, hhi⟩ := mem_range'_1.mp hmem
    exact hb b hlo (by omega) rfl

end Links

/-! ## Rings through the null pointer -/

namespace Links

variable {α : Type*} {r r' : Links (Option α)} {l l₁ l₂ c : List α} {a x y : α}

/-- The list is `l`, its head is `next none` and its tail `prev none`. -/
def Lists (r : Links (Option α)) (l : List α) : Prop := r.Ring none (l.map some)

theorem getLast?_none_cons (l : List α) : (none :: l.map some).getLast? = some l.getLast? := by
  cases l using reverseRecOn with
  | nil => rfl
  | append_singleton l a =>
    rw [map_append, map_singleton, ← cons_append, getLast?_concat, getLast?_concat]

theorem head?_map_append (l : List α) : (l.map some ++ [none]).head? = some l.head? := by
  cases l <;> rfl

theorem Lists.nodup (h : r.Lists l) : l.Nodup :=
  Nodup.of_map some (nodup_cons.mp (Ring.nodup h)).2

theorem Lists.seam (h : r.Lists (l₁ ++ l₂)) :
    r.next l₁.getLast? = l₂.head? ∧ r.prev l₂.head? = l₁.getLast? := by
  have h' : r.Ring none (l₁.map some ++ l₂.map some) := by rwa [← map_append]
  exact h'.linked (getLast?_none_cons l₁) (head?_map_append l₂)

theorem Lists.head (h : r.Lists l) : r.next none = l.head? := by
  have h' : r.Lists ([] ++ l) := h
  exact h'.seam.1

theorem Lists.tail (h : r.Lists l) : r.prev none = l.getLast? := by
  have h' : r.Lists (l ++ []) := by rwa [append_nil]
  exact h'.seam.2

/-- The neighbours of a node. -/
theorem Lists.at (h : r.Lists (l₁ ++ a :: l₂)) :
    r.next (some a) = l₂.head? ∧ r.prev (some a) = l₁.getLast? := by
  refine ⟨?_, h.seam.2⟩
  have h' : r.Lists ((l₁ ++ [a]) ++ l₂) := by rwa [append_assoc]
  have hseam := h'.seam.1
  rwa [getLast?_concat] at hseam

theorem Lists.insert (h : r.Lists (l₁ ++ l₂))
    (hc : c.IsChain fun x y => r.next (some x) = some y ∧ r.prev (some y) = some x)
    (hnodup : c.Nodup) (hfresh : ∀ z ∈ c, z ∉ l₁ ++ l₂)
    (hx : c.head? = some x) (hy : c.getLast? = some y)
    (hnext : ∀ z, z ≠ l₁.getLast? → z ≠ some y → r'.next z = r.next z)
    (hprev : ∀ z, z ≠ l₂.head? → z ≠ some x → r'.prev z = r.prev z)
    (hpx : r'.next l₁.getLast? = some x ∧ r'.prev (some x) = l₁.getLast?)
    (hyq : r'.next (some y) = l₂.head? ∧ r'.prev l₂.head? = some y) :
    r'.Lists (l₁ ++ (c ++ l₂)) := by
  have h' : r.Ring none (l₁.map some ++ l₂.map some) := by rwa [← map_append]
  unfold Lists
  rw [map_append, map_append]
  refine h'.insert (x := some x) (y := some y) ((isChain_map some).mpr hc)
    (hnodup.map (fun _ _ => some.inj)) (fun z hz => ?_) (getLast?_none_cons l₁)
    (head?_map_append l₂) (by simp [hx]) (by simp [hy]) hnext hprev hpx hyq
  obtain ⟨w, hw, rfl⟩ := mem_map.mp hz
  refine ⟨some_ne_none w, fun hmem => hfresh w hw ?_⟩
  rw [← map_append] at hmem
  obtain ⟨v, hv, e⟩ := mem_map.mp hmem
  exact some.inj e ▸ hv

theorem Lists.remove (h : r.Lists (l₁ ++ a :: l₂))
    (hnext : ∀ z, z ≠ l₁.getLast? → z ≠ some a → r'.next z = r.next z)
    (hprev : ∀ z, z ≠ l₂.head? → z ≠ some a → r'.prev z = r.prev z)
    (hpq : r'.next l₁.getLast? = l₂.head? ∧ r'.prev l₂.head? = l₁.getLast?) :
    r'.Lists (l₁ ++ l₂) := by
  have h' : r.Ring none (l₁.map some ++ ([some a] ++ l₂.map some)) := by
    have h' := h
    unfold Lists at h'
    rwa [map_append] at h'
  unfold Lists
  rw [map_append]
  refine h'.remove (getLast?_none_cons l₁) (head?_map_append l₂) (fun z hz hza => ?_)
    (fun z hz hza => ?_) hpq
  · exact hnext z hz fun e => hza (mem_singleton.mpr e)
  · exact hprev z hz fun e => hza (mem_singleton.mpr e)

theorem Lists.frame (h : r.Lists l) (hhead : r'.next none = r.next none)
    (htail : r'.prev none = r.prev none) (hnext : ∀ z ∈ l, r'.next (some z) = r.next (some z))
    (hprev : ∀ z ∈ l, r'.prev (some z) = r.prev (some z)) : r'.Lists l := by
  refine Ring.frame h ?_ ?_
  · rintro z (rfl | hz)
    · exact hhead
    · obtain ⟨w, hw, rfl⟩ := mem_map.mp hz
      exact hnext w hw
  · rintro z (rfl | hz)
    · exact htail
    · obtain ⟨w, hw, rfl⟩ := mem_map.mp hz
      exact hprev w hw

end Links

/-! ## Walks -/

section Walk

variable {α : Type*} {next next' : α → Option α} {p : Option α} {l : List α}

/-- The nodes from `p` on, if the list ends within `fuel` nodes. -/
def walk (next : α → Option α) : Nat → Option α → Option (List α)
  | _, none => some []
  | 0, some _ => none
  | fuel + 1, some a => (walk next fuel (next a)).map (a :: ·)

/-- From `p` on there are the nodes of `l`, and then the null pointer. -/
def Walks (next : α → Option α) : Option α → List α → Prop
  | p, [] => p = none
  | p, a :: l => p = some a ∧ Walks next (next a) l

theorem Walks.unique {l' : List α} (h : Walks next p l) (h' : Walks next p l') : l = l' := by
  induction l generalizing p l' with
  | nil =>
    cases l' with
    | nil => rfl
    | cons a l' => cases h.symm.trans h'.1
  | cons a l ih =>
    cases l' with
    | nil => cases h'.symm.trans h.1
    | cons a' l' =>
      obtain rfl : a = a' := some.inj (h.1.symm.trans h'.1)
      rw [ih h.2 h'.2]

theorem Walks.suffix {l₁ l₂ : List α} {a : α} (h : Walks next p (l₁ ++ a :: l₂)) :
    Walks next (some a) (a :: l₂) := by
  induction l₁ generalizing p with
  | nil => exact ⟨rfl, h.2⟩
  | cons d l₁ ih => exact ih h.2

theorem Walks.nodup (h : Walks next p l) : l.Nodup := by
  induction l generalizing p with
  | nil => exact nodup_nil
  | cons a l ih =>
    refine nodup_cons.mpr ⟨fun hmem => ?_, ih h.2⟩
    obtain ⟨l₁, l₂, rfl⟩ := append_of_mem hmem
    have hlen := congrArg length (h.2.suffix.2.unique h.2)
    simp only [length_append, length_cons] at hlen
    omega

theorem walk_eq_some {fuel : Nat} (h : walk next fuel p = some l) : Walks next p l := by
  induction fuel generalizing p l with
  | zero =>
    cases p with
    | none => cases h; rfl
    | some a => cases h
  | succ fuel ih =>
    cases p with
    | none => cases h; rfl
    | some a =>
      obtain ⟨t, ht, rfl⟩ := map_eq_some_iff.mp h
      exact ⟨rfl, ih ht⟩

theorem Walks.walk {fuel : Nat} (h : Walks next p l) (hfuel : l.length ≤ fuel) :
    walk next fuel p = some l := by
  induction l generalizing p fuel with
  | nil =>
    cases h
    cases fuel <;> rfl
  | cons a l ih =>
    obtain ⟨rfl, hl⟩ := h
    cases fuel with
    | zero => simp at hfuel
    | succ fuel =>
      simp only [Atcd.Core.walk]
      rw [ih hl (by simpa using hfuel)]
      rfl

theorem Walks.congr (h : Walks next p l) (hnext : ∀ a ∈ l, next' a = next a) : Walks next' p l := by
  induction l generalizing p with
  | nil => exact h
  | cons a l ih =>
    refine ⟨h.1, ?_⟩
    rw [hnext a mem_cons_self]
    exact ih h.2 fun d hd => hnext d (mem_cons_of_mem a hd)

theorem Links.Path.walks {r : Links (Option α)} (h : r.Path (p :: l.map some ++ [none])) :
    Walks (fun a => r.next (some a)) (r.next p) l := by
  induction l generalizing p with
  | nil => exact (isChain_cons_cons.mp h).1.1
  | cons a l ih =>
    obtain ⟨hpa, hrest⟩ := isChain_cons_cons.mp h
    exact ⟨hpa.1, ih hrest⟩

theorem Links.Ring.walks [DecidableEq α] {r : Links α} {b : α} (h : r.Ring b l) :
    Walks (fun a => stop b (r.next a)) (stop b (r.next b)) l := by
  obtain ⟨hb, -⟩ := nodup_cons.mp h.nodup
  have hpath := h.path
  suffices ∀ a, r.Path (a :: l ++ [b]) → Walks (fun a => stop b (r.next a)) (stop b (r.next a)) l
    from this b hpath
  clear h hpath
  induction l with
  | nil =>
    intro a ha
    have hab : r.next a = b := (isChain_cons_cons.mp ha).1.1
    rw [hab]
    exact if_pos rfl
  | cons d l ih =>
    intro a ha
    obtain ⟨had, hrest⟩ := isChain_cons_cons.mp ha
    obtain ⟨hbd, hbl⟩ := not_or.mp (mem_cons.not.mp hb)
    refine ⟨?_, ih hbl d hrest⟩
    rw [had.1]
    exact if_neg fun e => hbd e.symm

/-- The nodes from a head pointer to a tail pointer. -/
def segment [DecidableEq α] (next : α → Option α) : Nat → Option α → Option α → List α
  | 0, _, _ => []
  | _, none, _ => []
  | fuel + 1, some a, tail => if tail = some a then [a] else a :: segment next fuel (next a) tail

theorem Links.Lists.segment_eq [DecidableEq α] {r : Links (Option α)} {l₁ c l₂ : List α}
    (h : r.Lists (l₁ ++ (c ++ l₂))) (fuel : Nat) (hfuel : c.length ≤ fuel) :
    segment (fun a => r.next (some a)) fuel c.head? c.getLast? = c := by
  induction c generalizing l₁ fuel with
  | nil => cases fuel <;> rfl
  | cons a c ih =>
    cases fuel with
    | zero => simp at hfuel
    | succ fuel =>
      have hnodup := h.nodup
      have hnext : r.next (some a) = (c ++ l₂).head? := h.at.1
      have h' : r.Lists ((l₁ ++ [a]) ++ (c ++ l₂)) := by rwa [append_assoc]
      simp only [head?_cons, segment]
      cases c with
      | nil => exact if_pos rfl
      | cons d c =>
        have hac : a ∉ d :: c := by
          have hsub := (nodup_append.mp hnodup).2.1
          exact fun hm => (nodup_cons.mp hsub).1 (mem_append_left _ hm)
        have hne : (a :: d :: c).getLast? ≠ some a := fun e => by
          exact hac (mem_of_getLast? e)
        rw [if_neg hne, hnext, getLast?_cons_cons]
        exact congrArg (a :: ·) (ih h' fuel (by simpa using hfuel))

theorem Links.Lists.walks {r : Links (Option α)} (h : r.Lists l) :
    Walks (fun a => r.next (some a)) (r.next none) l := Links.Path.walks h.path

end Walk

end Atcd.Core
