import Atcd.Core.Follows
import Atcd.Core.Run
import Atcd.Tokens.Local
/-!
# The queue of a token's proxies

`ACE_Token_Proxy_Queue` links its entries through `next_` and keeps the first one, the last one
and the number of them beside. `enqueue` at a position walks to the entry that is to be in
front; when that is the last one, `tail_` is not moved to the new one.

The state of a run has the list that the queue stands for, and how many entries were queued,
so that a walk that meets more of them goes round in a circle.

**Results.**
* `Keeps.enqueue`, `Keeps.dequeue`, `Keeps.remove`: the operations on a queue that has a list;
* `keeps_iff`: the queue has its list in all states of a run exactly when no entry is put behind
  the last one by its position.
-/
namespace Atcd.Token
open Atcd.Core List Function

variable {P : Type*} [DecidableEq P]

/-- mirrors ACE/ace/Local_Tokens.h:216-260 -/
structure ProxyQueue (P : Type*) where
  next : P → Option P
  head : Option P
  tail : Option P
  size : Int

namespace ProxyQueue

/-- mirrors ACE/ace/Local_Tokens.cpp:299-305 -/
def empty : ProxyQueue P := ⟨fun _ => none, none, none, 0⟩

/-- The loop to the insertion point.
mirrors Local_Tokens.cpp:341-352 -/
def walk (next : P → Option P) : Nat → P → P
  | 0, temp => temp
  | x + 1, temp =>
    match next temp with
    | none => temp
    | some p => walk next x p

/-- `none` where `tail_` is null and is followed.
mirrors Local_Tokens.cpp:307-357 -/
def enqueue (q : ProxyQueue P) (tpq : P) (position : Int) : Option (ProxyQueue P) :=
  let q := { q with next := update q.next tpq none, size := q.size + 1 }
  match q.head with
  | none => some { q with head := some tpq, tail := some tpq }
  | some head =>
    if position = 0 then
      some { q with next := update q.next tpq (some head), head := some tpq }
    else if position = -1 then
      q.tail.map fun tail =>
        { q with next := update q.next tail (some tpq), tail := some tpq }
    else
      let temp := walk q.next (position - 1).toNat head
      let next := update q.next tpq (q.next temp)
      some { q with next := update next temp (some tpq) }

/-- mirrors Local_Tokens.cpp:359-377 -/
def dequeue (q : ProxyQueue P) : ProxyQueue P :=
  match q.head with
  | none => q
  | some temp =>
    { q with head := q.next temp, next := update q.next temp none, size := q.size - 1 }

/-- The loop of `remove` behind the head.
mirrors Local_Tokens.cpp:418-437 -/
def removeLoop (q : ProxyQueue P) (remove_me : P) : Nat → P → Option P → Option (ProxyQueue P)
  | _, _, none => some q
  | 0, _, some _ => none
  | fuel + 1, previous, some temp =>
    if temp = remove_me then
      some { q with
        next := update q.next previous (q.next temp)
        tail := if q.tail = some temp then some previous else q.tail
        size := q.size - 1 }
    else removeLoop q remove_me fuel temp (q.next temp)

/-- mirrors Local_Tokens.cpp:398-442 -/
def remove (q : ProxyQueue P) (remove_me : P) (fuel : Nat) : Option (ProxyQueue P) :=
  match q.head with
  | none => some q
  | some head =>
    if head = remove_me then
      let tail := match q.next head with
        | none => none
        | some _ => q.tail
      some { q with head := q.next head, tail := tail, size := q.size - 1 }
    else removeLoop q remove_me fuel head (q.next head)

/-- The list of the queue from `head_` on, with its length and its last entry. -/
structure Keeps (q : ProxyQueue P) (l : List P) : Prop where
  follows : Follows some q.next q.head l none
  size : q.size = l.length
  tail : l ≠ [] → q.tail = l.getLast?

end ProxyQueue

/-! ## The reference -/

/-- At the position, and at the end for -1 and for positions behind it. -/
def place (l : List P) (e : P) (position : Int) : List P :=
  if position = -1 then l ++ [e] else l.take position.toNat ++ e :: l.drop position.toNat

inductive QueueOp (P : Type*)
  | enqueue (e : P) (position : Int)
  | dequeue
  | remove (e : P)
  deriving DecidableEq

structure QueueState (P : Type*) where
  queue : ProxyQueue P
  entries : List P
  calls : Nat

namespace QueueState

def start : QueueState P := ⟨.empty, [], 0⟩

/-- An entry that is in the queue is not queued again. -/
def step (s : QueueState P) : QueueOp P → Option (QueueState P)
  | .enqueue e position =>
    if e ∈ s.entries ∨ position < -1 then none
    else (s.queue.enqueue e position).map fun q =>
      ⟨q, place s.entries e position, s.calls + 1⟩
  | .dequeue => some ⟨s.queue.dequeue, s.entries.tail, s.calls⟩
  | .remove e => (s.queue.remove e s.calls).map fun q => ⟨q, s.entries.erase e, s.calls⟩

/-- The entry is not put behind the last one by its position. -/
def Inside (s : QueueState P) : QueueOp P → Prop
  | .enqueue e position =>
    e ∈ s.entries ∨ position < -1 ∨ s.entries = [] ∨ position < s.entries.length
  | _ => True

instance (s : QueueState P) (op : QueueOp P) : Decidable (s.Inside op) := by
  cases op <;> unfold Inside <;> infer_instance

end QueueState

/-! ## Operations on a queue that has a list -/

section Pointers
variable {next : P → Option P} {o : Option P} {l : List P}

/-- Entries that are not in the list can be linked anew. -/
theorem follows_update (h : Follows some next o l none) {e : P} (he : e ∉ l) (p : Option P) :
    Follows some (update next e p) o l none :=
  h.congr fun _ ha => ⟨rfl, update_of_ne (ne_of_mem_of_not_mem ha he) ..⟩

omit [DecidableEq P] in
theorem follows_head (h : Follows some next o l none) : o = l.head? := by
  cases l with
  | nil => exact h
  | cons a l => exact h.1

omit [DecidableEq P] in
theorem walk_spec {head : P} {n : Nat} (h : Follows some next (some head) l none) :
    ∃ l₁ l₂, l = l₁ ++ ProxyQueue.walk next n head :: l₂ ∧ l₁.length = min n (l.length - 1) := by
  induction n generalizing head l with
  | zero =>
    cases l with
    | nil => cases h
    | cons a l =>
      obtain ⟨hhead, -⟩ := h
      cases hhead
      exact ⟨[], l, rfl, by simp⟩
  | succ n ih =>
    cases l with
    | nil => cases h
    | cons a l =>
      obtain ⟨hhead, hrest⟩ := h
      cases hhead
      unfold ProxyQueue.walk
      cases hnext : next head with
      | none =>
        rw [hnext] at hrest
        have hl := follows_head hrest
        have hnil : l = [] := head?_eq_none_iff.mp hl.symm
        subst hnil
        exact ⟨[], [], rfl, by simp⟩
      | some p =>
        rw [hnext] at hrest
        obtain ⟨l₁, l₂, hl, hlen⟩ := ih hrest
        refine ⟨head :: l₁, l₂, congrArg (head :: ·) hl, ?_⟩
        have hpos : 0 < l.length := by
          rw [hl]
          simp
        simp only [length_cons, hlen]
        omega

/-- A new entry behind one of the list. -/
theorem follows_insert {l₁ l₂ : List P} {a e : P} (h : Follows some next o (l₁ ++ a :: l₂) none)
    (hnodup : (l₁ ++ a :: l₂).Nodup) (he : e ∉ l₁ ++ a :: l₂) :
    Follows some (update (update next e (next a)) a (some e)) o (l₁ ++ a :: e :: l₂) none := by
  obtain ⟨h₁, h₂, hdis⟩ := nodup_append.mp hnodup
  simp only [mem_append, mem_cons, not_or] at he
  have hother : ∀ b ∈ l₁ ++ l₂, update (update next e (next a)) a (some e) b =
      next b := by
    intro b hb
    have hba : b ≠ a := by
      rintro rfl
      rcases mem_append.mp hb with hb | hb
      · exact hdis b hb b mem_cons_self rfl
      · exact (nodup_cons.mp h₂).1 hb
    have hbe : b ≠ e := by
      rintro rfl
      rcases mem_append.mp hb with hb | hb
      · exact he.1 hb
      · exact he.2.2 hb
    rw [update_of_ne hba, update_of_ne hbe]
  obtain ⟨mid, hl₁, hmid, hl₂⟩ := follows_append.mp h
  refine follows_append.mpr ⟨mid, hl₁.congr fun b hb => ⟨rfl, ?_⟩, hmid, ?_, ?_⟩
  · exact hother b (mem_append_left _ hb)
  · rw [update_self]
  · have hea : e ≠ a := he.2.1
    rw [update_of_ne hea, update_self]
    exact hl₂.congr fun b hb => ⟨rfl, hother b (mem_append_right _ hb)⟩

end Pointers

omit [DecidableEq P] in
theorem place_back {l : List P} {e : P} {position : Int} (h : position = -1 ∨ l.length ≤ position) :
    place l e position = l ++ [e] := by
  unfold place
  split
  · rfl
  · have hlen : l.length ≤ position.toNat := by omega
    rw [take_of_length_le hlen, drop_eq_nil_of_le hlen]

omit [DecidableEq P] in
theorem place_behind {l l₁ l₂ : List P} {a e : P} {position : Int} (hl : l = l₁ ++ a :: l₂)
    (h : 0 < position ∧ l₁.length = min (position.toNat - 1) (l.length - 1)) :
    place l e position = l₁ ++ a :: e :: l₂ := by
  obtain ⟨hpos, hlen⟩ := h
  subst hl
  cases l₂ with
  | nil =>
    rw [place_back, append_assoc]
    · rfl
    · right
      simp only [length_append, length_cons, length_nil] at hlen ⊢
      omega
  | cons b l₂ =>
    simp only [length_append, length_cons] at hlen
    have hnat : position.toNat = l₁.length + 1 := by omega
    unfold place
    rw [if_neg (by omega), hnat, take_length_add_append, drop_length_add_append]
    simp

namespace ProxyQueue
variable {q q' : ProxyQueue P} {l : List P} {e : P}

omit [DecidableEq P] in
theorem Keeps.head_eq (h : q.Keeps l) : q.head = l.head? := follows_head h.follows

theorem Keeps.fresh (h : q.Keeps l) (he : e ∉ l) :
    Follows some (update q.next e none) q.head l none := follows_update h.follows he none

/-- What `enqueue` leaves; `tail_` is moved by a front or back position only. -/
theorem Keeps.enqueue (h : q.Keeps l) (hnodup : l.Nodup) (he : e ∉ l) {position : Int}
    (hpos : -1 ≤ position) : ∃ q', q.enqueue e position = some q' ∧
      Follows some q'.next q'.head (place l e position) none ∧ q'.size = l.length + 1 ∧
      q'.tail = if l = [] ∨ position = -1 then some e else q.tail := by
  have hfresh := h.fresh he
  have hsize : q.size + 1 = l.length + 1 := by rw [h.size]
  unfold ProxyQueue.enqueue
  cases l with
  | nil =>
    have hhead : q.head = none := h.head_eq
    simp only [hhead]
    refine ⟨_, rfl, ?_, hsize, by simp⟩
    have hplace : place [] e position = [e] := by
      unfold place
      split
      · rfl
      · simp
    rw [hplace]
    exact ⟨rfl, update_self ..⟩
  | cons a l =>
    have hhead : q.head = some a := h.head_eq
    rw [hhead] at hfresh
    simp only [hhead]
    split
    · rename_i h0
      subst h0
      refine ⟨_, rfl, ⟨rfl, ?_⟩, hsize, by simp⟩
      dsimp only
      rw [update_idem, update_self]
      exact follows_update (hhead ▸ h.follows) he _
    · split
      · rename_i hback
        -- behind the last entry, which `tail_` is
        obtain ⟨l', t, hl⟩ := (eq_nil_or_concat' (a :: l)).resolve_left (by simp)
        have htail : q.tail = some t := by
          rw [h.tail (by simp), hl, getLast?_concat]
        rw [hl] at hfresh hnodup he ⊢
        rw [htail]
        refine ⟨_, rfl, ?_, by rw [← hl]; exact hsize, by simp [hback]⟩
        rw [place_back (.inl hback)]
        have hins := follows_insert hfresh hnodup he
        have hnext : update q.next e none t = none := by
          have := (follows_concat.mp hfresh).2
          exact this
        rw [hnext, update_idem] at hins
        rw [append_assoc]
        exact hins
      · rename_i h0 hback
        obtain ⟨l₁, l₂, hl, hlen⟩ := walk_spec (n := (position - 1).toNat) hfresh
        refine ⟨_, rfl, ?_, hsize, by simp [hback]⟩
        have hplace : place (a :: l) e position =
            l₁ ++ walk (update q.next e none) (position - 1).toNat a :: e :: l₂ := by
          refine place_behind hl ?_
          omega
        rw [hplace]
        refine follows_insert ?_ ?_ ?_
        · exact hl ▸ hfresh
        · exact hl ▸ hnodup
        · exact hl ▸ he

omit [DecidableEq P] in
theorem getLast?_place {l : List P} {position : Int} (hpos : -1 ≤ position)
    (h : l = [] ∨ position < l.length) :
    (place l e position).getLast? = if l = [] ∨ position = -1 then some e else l.getLast? := by
  by_cases hback : l = [] ∨ position = -1
  · rw [if_pos hback]
    rcases hback with rfl | hback
    · unfold place
      split
      · rfl
      · simp
    · rw [place_back (.inl hback), getLast?_concat]
  · rw [if_neg hback]
    rw [not_or] at hback
    have hlt : position.toNat < l.length := by
      have := h.resolve_left hback.1
      omega
    -- something of the list is behind the entry
    have hne : l.drop position.toNat ≠ [] := by simpa using hlt
    unfold place
    rw [if_neg hback.2, getLast?_append_of_ne_nil _ (by simp), getLast?_cons_of_ne_nil hne,
      getLast?_drop, if_neg (by omega)]

theorem Keeps.dequeue (h : q.Keeps l) (hnodup : l.Nodup) : q.dequeue.Keeps l.tail := by
  unfold ProxyQueue.dequeue
  cases l with
  | nil =>
    have hhead : q.head = none := h.head_eq
    simp only [hhead]
    exact h
  | cons a l =>
    have hhead : q.head = some a := h.head_eq
    have hrest := h.follows.tail
    simp only [hhead, tail_cons]
    refine ⟨follows_update hrest (nodup_cons.mp hnodup).1 _, ?_, fun hne => ?_⟩
    · have hsize := h.size
      rw [length_cons] at hsize
      dsimp only
      omega
    · rw [← getLast?_cons_of_ne_nil hne]
      exact h.tail (by simp)

theorem Keeps.removeLoop {l₁ l₂ : List P} {previous : P} (h : q.Keeps (l₁ ++ previous :: l₂))
    (hnodup : (l₁ ++ previous :: l₂).Nodup) (he : e ∉ l₁ ++ [previous]) {fuel : Nat}
    (hfuel : l₂.length ≤ fuel) :
    ∃ q', q.removeLoop e fuel previous (q.next previous) = some q' ∧
      q'.Keeps (l₁ ++ previous :: l₂.erase e) := by
  induction l₂ generalizing l₁ previous fuel with
  | nil =>
    have hnext : q.next previous = none := (follows_concat.mp h.follows).2
    rw [hnext]
    unfold ProxyQueue.removeLoop
    exact ⟨q, rfl, h⟩
  | cons a l₂ ih =>
    obtain ⟨fuel, rfl⟩ : ∃ k, fuel = k + 1 := ⟨fuel - 1, by rw [length_cons] at hfuel; omega⟩
    obtain ⟨mid, hl₁, hmid, ha, hl₂⟩ := follows_append.mp h.follows
    rw [ha]
    unfold ProxyQueue.removeLoop
    by_cases hae : a = e
    · subst hae
      rw [if_pos rfl, erase_cons_head]
      refine ⟨_, rfl, ?_, ?_, fun _ => ?_⟩
      · have hself : ∀ c ∈ l₁ ++ l₂, c ≠ previous := by
          rintro c hc rfl
          simp only [nodup_append, nodup_cons, mem_append, mem_cons] at hnodup hc
          rcases hc with hc | hc
          · exact hnodup.2.2 c hc c (.inl rfl) rfl
          · exact hnodup.2.1.1 (.inr hc)
        refine h.follows.unlink (fun c _ => rfl) (fun c hc => ?_) ?_
        · exact update_of_ne (hself c hc) ..
        · exact update_self ..
      · have hsize := h.size
        simp only [length_append, length_cons] at hsize ⊢
        push_cast at hsize ⊢
        omega
      · have htail := h.tail (by simp)
        cases l₂ with
        | nil =>
          have hlast : (l₁ ++ [previous, a]).getLast? = some a := by simp
          rw [htail, hlast, if_pos rfl, getLast?_concat]
        | cons b l₂ =>
          have hne : (l₁ ++ previous :: a :: b :: l₂).getLast? ≠ some a := by
            intro hlast
            have hmem : a ∈ b :: l₂ := by
              have hsplit : l₁ ++ previous :: a :: b :: l₂ = (l₁ ++ [previous, a]) ++ b :: l₂ := by simp
              rw [hsplit, getLast?_append_of_ne_nil _ (by simp)] at hlast
              exact mem_of_getLast? hlast
            simp only [nodup_append, nodup_cons] at hnodup
            exact hnodup.2.1.2.1 hmem
          rw [htail, if_neg hne]
          have hsplit : l₁ ++ previous :: a :: b :: l₂ = (l₁ ++ [previous, a]) ++ b :: l₂ := by simp
          have hsplit' : l₁ ++ previous :: b :: l₂ = (l₁ ++ [previous]) ++ b :: l₂ := by simp
          rw [hsplit, hsplit', getLast?_append_of_ne_nil _ (by simp),
            getLast?_append_of_ne_nil _ (by simp)]
    · rw [if_neg hae, erase_cons_tail (by simpa using hae)]
      have hsplit : ∀ m, l₁ ++ previous :: a :: m = (l₁ ++ [previous]) ++ a :: m := by simp
      rw [hsplit] at h hnodup
      have hne : e ∉ (l₁ ++ [previous]) ++ [a] := by
        simp only [mem_append, mem_singleton] at he ⊢
        rintro (hmem | rfl)
        · exact he hmem
        · exact hae rfl
      obtain ⟨q', hq', hkeeps⟩ := ih h hnodup hne (Nat.le_of_succ_le_succ hfuel)
      exact ⟨q', hq', by rw [hsplit]; exact hkeeps⟩

theorem Keeps.remove (h : q.Keeps l) (hnodup : l.Nodup) {fuel : Nat} (hfuel : l.length ≤ fuel) :
    ∃ q', q.remove e fuel = some q' ∧ q'.Keeps (l.erase e) := by
  unfold ProxyQueue.remove
  cases l with
  | nil =>
    have hhead : q.head = none := h.head_eq
    simp only [hhead]
    exact ⟨q, rfl, h⟩
  | cons a l =>
    have hhead : q.head = some a := h.head_eq
    have hrest := h.follows.tail
    simp only [hhead]
    by_cases hae : a = e
    · subst hae
      rw [if_pos rfl, erase_cons_head]
      refine ⟨_, rfl, hrest, ?_, fun hne => ?_⟩
      · have hsize := h.size
        rw [length_cons] at hsize
        dsimp only
        omega
      · obtain ⟨b, l', rfl⟩ := exists_cons_of_ne_nil hne
        have hnext : q.next a = some b := follows_head hrest
        simp only [hnext]
        exact h.tail (by simp)
    · rw [if_neg hae, erase_cons_tail (by simpa using hae)]
      rw [length_cons] at hfuel
      have hne : e ∉ [] ++ [a] := by simpa using Ne.symm hae
      exact Keeps.removeLoop h hnodup hne (by omega)

end ProxyQueue

/-! ## Runs -/

namespace QueueState
variable {s t : QueueState P}

/-- The queue has the list of the run. -/
structure Good (s : QueueState P) : Prop where
  keeps : s.queue.Keeps s.entries
  nodup : s.entries.Nodup
  length : s.entries.length ≤ s.calls

omit [DecidableEq P] in
theorem start_good : (start : QueueState P).Good :=
  ⟨⟨rfl, rfl, fun h => absurd rfl h⟩, nodup_nil, Nat.le_refl 0⟩

omit [DecidableEq P] in
theorem place_perm (l : List P) (e : P) (position : Int) : (place l e position).Perm (e :: l) := by
  unfold place
  split
  · exact perm_append_singleton e l
  · exact perm_middle.trans (by rw [take_append_drop])

/-- The queue after an entry was put in has its list if and only if it was put inside. -/
theorem Good.enqueue (h : s.Good) {e : P} {position : Int} (he : e ∉ s.entries)
    (hpos : -1 ≤ position) :
    ∃ t, s.step (.enqueue e position) = some t ∧ t.entries.Nodup ∧ t.entries.length ≤ t.calls ∧
      (t.queue.Keeps t.entries ↔ s.Inside (.enqueue e position)) := by
  obtain ⟨q, hq, hfollows, hsize, htail⟩ := h.keeps.enqueue h.nodup he hpos
  have hperm := place_perm s.entries e position
  have hlen : (place s.entries e position).length = s.entries.length + 1 := hperm.length_eq
  refine ⟨⟨q, place s.entries e position, s.calls + 1⟩, ?_, ?_, ?_, ?_⟩
  · simp only [step]
    rw [if_neg (by rw [not_or]; exact ⟨he, by omega⟩), hq]
    rfl
  · exact hperm.nodup_iff.mpr (nodup_cons.mpr ⟨he, h.nodup⟩)
  · rw [hlen]
    exact Nat.succ_le_succ h.length
  · have hne : place s.entries e position ≠ [] := by
      intro hnil
      rw [hnil] at hlen
      cases hlen
    constructor
    · intro hkeeps
      by_contra hinside
      simp only [Inside, not_or] at hinside
      obtain ⟨-, -, hnil, hlt⟩ := hinside
      -- the last entry is the new one, and `tail_` an old one
      have hlast := hkeeps.tail hne
      rw [place_back (.inr (by omega)), getLast?_concat, htail, if_neg (by
        rw [not_or]; exact ⟨hnil, by omega⟩), h.keeps.tail hnil] at hlast
      exact he (mem_of_getLast? hlast)
    · intro hinside
      have hin : s.entries = [] ∨ position < s.entries.length := by
        rcases hinside with hmem | hlt | hin
        · exact absurd hmem he
        · omega
        · exact hin
      refine ⟨hfollows, ?_, fun _ => ?_⟩
      · dsimp only
        rw [hsize, hlen]
        norm_num
      · dsimp only
        rw [htail, ProxyQueue.getLast?_place hpos hin]
        by_cases hnil : s.entries = [] ∨ position = -1
        · rw [if_pos hnil, if_pos hnil]
        · rw [if_neg hnil, if_neg hnil]
          exact h.keeps.tail fun hn => hnil (.inl hn)

theorem Good.dequeue (h : s.Good) : ∃ t, s.step .dequeue = some t ∧ t.Good := by
  refine ⟨_, rfl, h.keeps.dequeue h.nodup, h.nodup.tail, ?_⟩
  have hlen : s.entries.tail.length = s.entries.length - 1 := length_tail
  have := h.length
  dsimp only
  omega

theorem Good.remove (h : s.Good) (e : P) : ∃ t, s.step (.remove e) = some t ∧ t.Good := by
  obtain ⟨q, hq, hkeeps⟩ := h.keeps.remove (e := e) h.nodup h.length
  refine ⟨⟨q, s.entries.erase e, s.calls⟩, ?_, hkeeps, h.nodup.erase e, ?_⟩
  · simp only [step]
    rw [hq]
    rfl
  · exact Nat.le_trans (length_erase_le ..) h.length

theorem Good.step (h : s.Good) (op : QueueOp P)
    (hop : ∀ e position, op = .enqueue e position → e ∉ s.entries ∧ -1 ≤ position) :
    ∃ t, s.step op = some t ∧ (s.Inside op → t.Good) := by
  cases op with
  | enqueue e position =>
    obtain ⟨he, hpos⟩ := hop e position rfl
    obtain ⟨t, ht, hnodup, hlen, hiff⟩ := h.enqueue he hpos
    exact ⟨t, ht, fun hin => ⟨hiff.mpr hin, hnodup, hlen⟩⟩
  | dequeue =>
    obtain ⟨t, ht, hgood⟩ := h.dequeue
    exact ⟨t, ht, fun _ => hgood⟩
  | remove e =>
    obtain ⟨t, ht, hgood⟩ := h.remove e
    exact ⟨t, ht, fun _ => hgood⟩

/-- In a state whose queue has its list. -/
theorem Good.inside_iff (h : s.Good) (op : QueueOp P) :
    (∀ t, s.step op = some t → t.queue.Keeps t.entries) ↔ s.Inside op := by
  cases op with
  | enqueue e position =>
    by_cases hdom : e ∈ s.entries ∨ position < -1
    · refine ⟨fun _ => ?_, fun _ t ht => ?_⟩
      · rcases hdom with hmem | hlt
        · exact .inl hmem
        · exact .inr (.inl hlt)
      · simp only [QueueState.step] at ht
        rw [if_pos hdom] at ht
        cases ht
    · rw [not_or] at hdom
      have hpos : -1 ≤ position := by omega
      obtain ⟨t, ht, -, -, hiff⟩ := h.enqueue hdom.1 hpos
      rw [← hiff, ht]
      simp
  | dequeue =>
    obtain ⟨t, ht, hgood⟩ := h.dequeue
    refine ⟨fun _ => trivial, fun _ u hu => ?_⟩
    rw [ht] at hu
    cases hu
    exact hgood.keeps
  | remove e =>
    obtain ⟨t, ht, hgood⟩ := h.remove e
    refine ⟨fun _ => trivial, fun _ u hu => ?_⟩
    rw [ht] at hu
    cases hu
    exact hgood.keeps

theorem Good.next (h : s.Good) {op : QueueOp P} (hin : s.Inside op) (hstep : s.step op = some t) :
    t.Good := by
  obtain ⟨u, hu, hgood⟩ := h.step op (by
    rintro e position rfl
    simp only [QueueState.step] at hstep
    split at hstep
    · cases hstep
    · rename_i hdom
      rw [not_or] at hdom
      exact ⟨hdom.1, by omega⟩)
  rw [hu] at hstep
  cases hstep
  exact hgood hin

/-- **The queue loses no entry** as long as none is put behind the last one by its position. -/
theorem keeps_iff (ops : List (QueueOp P)) :
    (∀ pre t, pre <+: ops → run QueueState.step start pre = some t → t.queue.Keeps t.entries) ↔
      AllSteps QueueState.step Inside start ops := by
  rw [reached_iff]
  have hcongr : AllSteps QueueState.step
      (fun s op => ∀ t, QueueState.step s op = some t → t.queue.Keeps t.entries) start ops ↔
        AllSteps QueueState.step Inside (start : QueueState P) ops :=
    allSteps_congr (fun s op (h : s.Good) => h.inside_iff op)
      (fun s op t h hin hstep => h.next hin hstep) start_good
  rw [hcongr]
  exact ⟨fun h => h.2, fun h => ⟨start_good.keeps, h⟩⟩

/-- A client that is requeued behind the last one is dropped by the next one that is queued. -/
theorem requeued_dropped : ∃ t, run QueueState.step (start : QueueState Nat)
    [.enqueue 1 (-1), .enqueue 2 (-1), .dequeue, .enqueue 1 5, .enqueue 3 (-1)] = some t ∧
    t.entries = [2, 1, 3] ∧ t.queue.head = some 2 ∧ t.queue.next 2 = some 3 ∧
    ¬ t.queue.Keeps t.entries := by
  refine ⟨_, rfl, rfl, rfl, rfl, fun h => ?_⟩
  have hnext : (some 3 : Option Nat) = some 1 := h.follows.2.1
  cases hnext

end QueueState

end Atcd.Token
