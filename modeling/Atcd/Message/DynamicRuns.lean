import Atcd.Message.Dynamic
import Atcd.Message.QueueRuns
/-!
# Runs of a dynamic message queue

The list of the queue is that of the sublists, one after the other: beyond late,
late, pending. Time moves the boundaries. The refresh operations look for them
from the head of a sublist on, and an enqueue operation looks for its place from
the tail: both take a message of another status for the boundary, wherever in the
sublist it stands.

Results:
* `partition_of_keeps`: the sublists partition the list, and no message is lost,
  in runs in which no message of another status is met within a sublist.
* `enqueue_loses_messages`: a run in which one is.
-/
namespace Atcd.Message

open Atcd.Core Atcd.Time MessageQueue Function DynamicStrategy PriorityStatus
open List (append_assoc append_nil cons_append dropWhile_cons_of_neg getLast?_append_of_ne_nil
  getLast?_eq_none_iff head?_cons length_append mem_append_left mem_append_right mem_of_getLast?
  mem_singleton ne_nil_of_mem nil_append not_mem_nil perm_middle sum takeWhile_append_dropWhile)

/-- The messages of the three sublists. -/
structure Sublists where
  beyondLate : List Addr
  late : List Addr
  pending : List Addr

namespace Sublists

def all (x : Sublists) : List Addr := x.beyondLate ++ (x.late ++ x.pending)

variable (σ : Addr → PriorityStatus)

def lateRun (x : Sublists) : Sublists :=
  ⟨x.beyondLate, x.late ++ x.pending.takeWhile (σ · = .late), x.pending.dropWhile (σ · = .late)⟩

/-- What time does to the pending messages: where their head is beyond late, the
late messages become beyond late with it. -/
def refreshPending (x : Sublists) : Sublists :=
  match x.pending with
  | [] => x
  | head :: _ =>
    match σ head with
    | .beyondLate => lateRun σ ⟨x.beyondLate ++ (x.late ++ x.pending.takeWhile (σ · = .beyondLate)), [],
        x.pending.dropWhile (σ · = .beyondLate)⟩
    | .late => lateRun σ x
    | .pending => x

/-- What time does to the late messages. -/
def refreshLate (x : Sublists) : Sublists :=
  ⟨x.beyondLate ++ x.late.takeWhile (σ · = .beyondLate), x.late.dropWhile (σ · = .beyondLate),
    x.pending⟩

def refresh (x : Sublists) : Sublists := (x.refreshPending σ).refreshLate σ

/-- Behind the pending messages that are beyond late now, and those that are late
now, there is a pending one. -/
def Steady (x : Sublists) : Prop :=
  ∀ a ∈ ((x.pending.dropWhile (σ · = .beyondLate)).dropWhile (σ · = .late)).head?, σ a = .pending

/-- From the tail of the sublist on, a message of the status of the new one comes
first that is of another status or of at least its priority, if any. -/
def Clear (priority : Addr → UInt64) (new : Addr) (l : List Addr) : Prop :=
  ∀ a ∈ l.reverse.find? (fun a => σ a ≠ σ new ∨ priority new ≤ priority a), σ a = σ new

variable {σ}

theorem all_lateRun (x : Sublists) : (x.lateRun σ).all = x.all := by
  unfold lateRun all
  simp only [append_assoc, takeWhile_append_dropWhile]

theorem all_refreshPending (x : Sublists) : (x.refreshPending σ).all = x.all := by
  unfold refreshPending
  split
  · rfl
  · split
    · rw [all_lateRun]
      unfold all
      simp only [append_assoc, nil_append, takeWhile_append_dropWhile]
    · exact all_lateRun x
    · rfl

theorem all_refreshLate (x : Sublists) : (x.refreshLate σ).all = x.all := by
  unfold refreshLate all
  simp only [append_assoc]
  rw [← append_assoc (x.late.takeWhile _), takeWhile_append_dropWhile]

theorem all_refresh (x : Sublists) : (x.refresh σ).all = x.all := by
  unfold refresh
  rw [all_refreshLate, all_refreshPending]

/-- What the scans from the tails rely on: no late message has become pending, and
the last of those beyond late is so. -/
structure Sound (σ : Addr → PriorityStatus) (x : Sublists) : Prop where
  late : ∀ a ∈ x.late, σ a ≠ .pending
  beyondLate : ∀ a, x.beyondLate.getLast? = some a → σ a = .beyondLate

theorem getLast?_append_run {l m : List Addr} {p : Addr → Bool} {a : Addr}
    (h : (l ++ m.takeWhile p).getLast? = some a) : p a = true ∨ m.takeWhile p = [] ∧ l.getLast? = some a := by
  by_cases hm : m.takeWhile p = []
  · rw [hm, append_nil] at h
    exact .inr ⟨hm, h⟩
  · rw [getLast?_append_of_ne_nil _ hm] at h
    exact .inl (List.mem_takeWhile_imp (mem_of_getLast? h))

theorem Sound.lateRun {x : Sublists} (h : Sound σ x) : Sound σ (x.lateRun σ) := by
  refine ⟨fun a ha => ?_, h.beyondLate⟩
  rcases List.mem_append.mp ha with ha | ha
  · exact h.late a ha
  · have hl : σ a = .late := by simpa using List.mem_takeWhile_imp ha
    rw [hl]
    decide

theorem Sound.refreshPending {x : Sublists} (h : Sound σ x) : Sound σ (x.refreshPending σ) := by
  unfold Sublists.refreshPending
  cases hp : x.pending with
  | nil => exact h
  | cons head rest =>
    simp only
    split
    · next hhead =>
      refine Sound.lateRun ⟨fun a ha => absurd ha (not_mem_nil), fun a ha => ?_⟩
      rw [← append_assoc] at ha
      rcases getLast?_append_run ha with hb | ⟨hnil, _⟩
      · simpa using hb
      · rw [List.takeWhile_cons_of_pos (by simpa using hhead)] at hnil
        cases hnil
    · exact h.lateRun
    · exact h

theorem Sound.refreshLate {x : Sublists} (h : Sound σ x) : Sound σ (x.refreshLate σ) := by
  refine ⟨fun a ha => h.late a (List.dropWhile_subset _ ha), fun a ha => ?_⟩
  rcases getLast?_append_run ha with hb | ⟨_, hlast⟩
  · simpa using hb
  · exact h.beyondLate a hlast

theorem Sound.refresh {x : Sublists} (h : Sound σ x) : Sound σ (x.refresh σ) :=
  h.refreshPending.refreshLate

theorem Steady.head {x : Sublists} (h : x.Steady σ) {a : Addr}
    (ha : (x.refreshPending σ).pending.head? = some a) : σ a = .pending := by
  unfold Steady at h
  unfold Sublists.refreshPending at ha
  cases hp : x.pending with
  | nil =>
    rw [hp] at ha
    rw [hp] at ha
    cases ha
  | cons head rest =>
    rw [hp] at ha h
    simp only at ha
    split at ha
    · exact h a ha
    · next hhead =>
      refine h a ?_
      rw [dropWhile_cons_of_neg (by simp [hhead])]
      change (x.pending.dropWhile (σ · = .late)).head? = some a at ha
      rw [hp] at ha
      exact ha
    · next hhead =>
      rw [hp] at ha
      cases ha
      exact hhead

end Sublists

namespace DynamicQueue

variable {d d' d'' : DynamicQueue} {t t' : TimeValue} {x : Sublists} {l l₁ l₂ : List Addr} {a : Addr}

def statusAt (d : DynamicQueue) (t : TimeValue) (a : Addr) : PriorityStatus :=
  d.strategy.status (d.base.block a) t

/-- The messages are those of before, some of them evaluated at the time. -/
structure Seen (t : TimeValue) (d d' : DynamicQueue) : Prop where
  strategy : d'.strategy = d.strategy
  block : ∀ a, d'.base.block a = d.base.block a ∨
    d'.base.block a = d.strategy.evaluate (d.base.block a) t

/-- The same queue but for that. -/
structure Kept (t : TimeValue) (d d' : DynamicQueue) : Prop extends Seen t d d' where
  base : d'.base = { d.base with block := d'.base.block }

theorem Seen.trans (h : Seen t d d') (h' : Seen t d' d'') : Seen t d d'' := by
  refine ⟨h'.strategy.trans h.strategy, fun a => ?_⟩
  rcases h'.block a with h₂ | h₂ <;> rcases h.block a with h₁ | h₁ <;> rw [h₂, h₁]
  · exact .inl rfl
  · exact .inr rfl
  · rw [h.strategy]
    exact .inr rfl
  · rw [h.strategy, evaluate_evaluate]
    exact .inr rfl

theorem Kept.refl (t : TimeValue) (d : DynamicQueue) : Kept t d d := ⟨⟨rfl, fun _ => .inl rfl⟩, rfl⟩

theorem Kept.trans (h : Kept t d d') (h' : Kept t d' d'') : Kept t d d'' :=
  ⟨h.toSeen.trans h'.toSeen, by rw [h'.base, h.base]⟩

theorem Seen.evaluate (h : Seen t d d') (a : Addr) :
    d'.strategy.evaluate (d'.base.block a) t = d.strategy.evaluate (d.base.block a) t := by
  rw [h.strategy]
  rcases h.block a with hb | hb <;> rw [hb]
  exact evaluate_evaluate

theorem Seen.statusAt (h : Seen t d d') (t' : TimeValue) : d'.statusAt t' = d.statusAt t' := by
  funext a
  unfold DynamicQueue.statusAt
  rw [h.strategy]
  rcases h.block a with hb | hb <;> rw [hb]
  exact status_evaluate t

theorem Seen.sizes (h : Seen t d d') (a : Addr) :
    (d'.base.block a).totalSize = (d.base.block a).totalSize ∧
      (d'.base.block a).totalLength = (d.base.block a).totalLength := by
  have hsame : ∀ mb, (d.strategy.evaluate mb t).totalSize = mb.totalSize ∧
      (d.strategy.evaluate mb t).totalLength = mb.totalLength := fun mb => by
    unfold DynamicStrategy.evaluate DynamicStrategy.priorityStatus
    simp only
    split
    · exact ⟨rfl, rfl⟩
    · split <;> exact ⟨rfl, rfl⟩
  rcases h.block a with hb | hb <;> rw [hb]
  · exact ⟨rfl, rfl⟩
  · exact hsame _

theorem Seen.counts (h : Seen t d d') (hs : d'.base.curBytes = d.base.curBytes)
    (hn : d'.base.curLength = d.base.curLength) (hcount : d'.base.curCount = d.base.curCount)
    (hc : d.base.Counts l) : d'.base.Counts l := by
  refine ⟨hcount.trans hc.count, (hs.trans hc.bytes).trans (congrArg sum
    (List.map_congr_left fun a _ => ?_)), (hn.trans hc.length).trans (congrArg sum
    (List.map_congr_left fun a _ => ?_))⟩
  · exact (h.sizes a).1.symm
  · exact (h.sizes a).2.symm

theorem Kept.holds (h : Kept t d d') (hl : d.base.Holds l) : d'.base.Holds l := by
  have hc : d'.base.Counts l := h.toSeen.counts (by rw [h.base]) (by rw [h.base]) (by rw [h.base]) hl.counts
  rw [h.base] at hc ⊢
  exact hl.frame rfl rfl (fun _ _ => rfl) (fun _ _ => rfl) hc

/-- The same queue with other messages in its blocks. -/
def withBlocks (d : DynamicQueue) (block : Addr → MessageBlock) : DynamicQueue :=
  { d with base := { d.base with block := block } }

/-- The blocks after the message at `a` was evaluated. -/
def evaluated (d : DynamicQueue) (a : Addr) (t : TimeValue) : Addr → MessageBlock :=
  Function.update d.base.block a (d.strategy.evaluate (d.base.block a) t)

theorem kept_evaluated (d : DynamicQueue) (a : Addr) (t : TimeValue) :
    Kept t d (d.withBlocks (d.evaluated a t)) := by
  refine ⟨⟨rfl, fun b => ?_⟩, rfl⟩
  change update _ _ _ b = _ ∨ update _ _ _ b = _
  by_cases hb : b = a
  · subst hb
    rw [update_self]
    exact .inr rfl
  · rw [update_of_ne hb]
    exact .inl rfl

variable {st : PriorityStatus} {cur nxt : Addr} {pre post : List Addr}

theorem advance_succ {fuel : Nat}
    (hnxt : d.base.next cur = some nxt) : advance st t (fuel + 1) d cur =
      if d.statusAt t nxt = st then advance st t fuel (d.withBlocks (d.evaluated nxt t)) nxt
      else some (some (nxt, d.statusAt t nxt), d.withBlocks (d.evaluated nxt t)) := by
  conv_lhs => unfold advance
  rw [hnxt]
  rfl

open Kept

theorem advance_spec (st : PriorityStatus) {fuel : Nat} {cur : Addr} {rest : List Addr}
    (h : Walks d.base.next (some cur) (cur :: rest)) (hfuel : rest.length < fuel) :
    ∃ block, Kept t d (d.withBlocks block) ∧ advance st t fuel d cur =
      some ((rest.dropWhile (d.statusAt t · = st)).head?.map fun a => (a, d.statusAt t a),
        d.withBlocks block) := by
  induction rest generalizing d cur fuel with
  | nil =>
    obtain ⟨fuel, rfl⟩ := Nat.exists_eq_succ_of_ne_zero (Nat.ne_of_gt hfuel)
    have hnone : d.base.next cur = none := h.2
    refine ⟨d.base.block, refl t d, ?_⟩
    unfold advance
    rw [hnone]
    rfl
  | cons nxt rest ih =>
    obtain ⟨fuel, rfl⟩ := Nat.exists_eq_succ_of_ne_zero (Nat.ne_of_gt (Nat.zero_lt_of_lt hfuel))
    have hk := kept_evaluated d nxt t
    rw [advance_succ h.2.1]
    by_cases hst : d.statusAt t nxt = st
    · rw [if_pos hst, List.dropWhile_cons_of_pos (by simpa using hst)]
      have hw : Walks (d.withBlocks (d.evaluated nxt t)).base.next (some nxt) (nxt :: rest) :=
        ⟨rfl, h.2.2⟩
      obtain ⟨block, hk', hadv⟩ := ih hw (show rest.length < fuel by simpa using hfuel)
      rw [hk.statusAt] at hadv
      exact ⟨block, hk.trans hk', hadv⟩
    · rw [if_neg hst, dropWhile_cons_of_neg (by simpa using hst)]
      exact ⟨_, hk, rfl⟩

/-- The list and the six pointers are those of the sublists. -/
structure Parts (d : DynamicQueue) (x : Sublists) : Prop where
  holds : d.base.Holds x.all
  beyondLateHead : d.beyondLateHead = x.beyondLate.head?
  beyondLateTail : d.beyondLateTail = x.beyondLate.getLast?
  lateHead : d.lateHead = x.late.head?
  lateTail : d.lateTail = x.late.getLast?
  pendingHead : d.pendingHead = x.pending.head?
  pendingTail : d.pendingTail = x.pending.getLast?

theorem Parts.kept (h : d.Parts x) {block : Addr → MessageBlock} (hk : Kept t d (d.withBlocks block)) :
    (d.withBlocks block).Parts x :=
  ⟨hk.holds h.holds, h.beyondLateHead, h.beyondLateTail, h.lateHead, h.lateTail, h.pendingHead,
    h.pendingTail⟩

theorem getLast?_append_cons (l : List Addr) (a : Addr) (m : List Addr) :
    (l ++ a :: m).getLast? = (a :: m).getLast? :=
  getLast?_append_of_ne_nil l (List.cons_ne_nil a m)

theorem setLateHead_eq (d : DynamicQueue) (ph : Addr) :
    d.setLateHead ph = { d with lateHead := d.lateHead.or (some ph) } := by
  cases d with
  | mk base ph pt lh lt bh bt s => cases lh <;> rfl

theorem refreshLateRun_spec (h : d.Parts x) {ph : Addr} {rest : List Addr} (hp : x.pending = ph :: rest)
    (hph : d.statusAt t ph = .late)
    (hsteady : ∀ a ∈ (x.pending.dropWhile (d.statusAt t · = .late)).head?, d.statusAt t a = .pending) :
    ∃ d', d.refreshLateRun ph t = some (0, d') ∧ d'.Parts (x.lateRun (d.statusAt t)) ∧ Kept t d d' := by
  have hdrop : x.pending.dropWhile (d.statusAt t · = .late) = rest.dropWhile (d.statusAt t · = .late) := by
    rw [hp, List.dropWhile_cons_of_pos (by simpa using hph)]
  have hrun : (x.lateRun (d.statusAt t)).late =
      x.late ++ ph :: rest.takeWhile (d.statusAt t · = .late) := by
    unfold Sublists.lateRun
    rw [hp, List.takeWhile_cons_of_pos (by simpa using hph)]
  have hpend : (x.lateRun (d.statusAt t)).pending = rest.dropWhile (d.statusAt t · = .late) := hdrop
  have hall : x.all = (x.beyondLate ++ x.late) ++ ph :: rest := by
    unfold Sublists.all
    rw [hp, append_assoc]
  have hw : Walks d.base.next (some ph) (ph :: rest) := by
    have hw := h.holds.walks
    rw [hall] at hw
    exact hw.suffix
  have hfuel : rest.length < addresses := by
    have hle := length_le_addresses h.holds.lists.nodup
    rw [hall, length_append, List.length_cons] at hle
    omega
  have hlateHead : d.setLateHead ph = { d with lateHead := (x.lateRun (d.statusAt t)).late.head? } := by
    rw [setLateHead_eq, hrun, h.lateHead]
    cases x.late <;> rfl
  have hw' : Walks (d.setLateHead ph).base.next (some ph) (ph :: rest) := by rwa [hlateHead]
  obtain ⟨block, hk, hadv⟩ := advance_spec (t := t) .late hw' hfuel
  rw [hlateHead] at hk hadv
  have hk' : Kept t d (d.withBlocks block) := ⟨⟨rfl, hk.block⟩, rfl⟩
  have hholds : (d.withBlocks block).base.Holds (x.lateRun (d.statusAt t)).all := by
    rw [Sublists.all_lateRun]
    exact hk'.holds h.holds
  unfold refreshLateRun
  simp only
  rw [hlateHead, hadv]
  have hst : ∀ a, statusAt { d with lateHead := (x.lateRun (d.statusAt t)).late.head? } t a =
    d.statusAt t a := fun a => rfl
  simp only [hst]
  cases hrem : rest.dropWhile (d.statusAt t · = .late) with
  | nil =>
    rw [hrem] at hpend
    refine ⟨_, rfl, ⟨hholds, h.beyondLateHead, h.beyondLateTail, rfl, ?_, ?_, ?_⟩,
      ⟨⟨rfl, hk.block⟩, rfl⟩⟩
    · have htail : d.base.tail = (x.lateRun (d.statusAt t)).all.getLast? := hholds.lists.tail
      refine htail.trans ?_
      unfold Sublists.all
      rw [hpend, hrun, append_nil, ← append_assoc, getLast?_append_cons, getLast?_append_cons]
    · rw [hpend]
      rfl
    · rw [hpend]
      rfl
  | cons b m =>
    rw [hrem] at hpend hdrop
    have hb : d.statusAt t b = .pending := hsteady b (by rw [hdrop]; rfl)
    simp only [head?_cons, Option.map_some, hb, ne_eq, not_true_eq_false, if_false]
    refine ⟨_, rfl, ⟨hholds, h.beyondLateHead, h.beyondLateTail, rfl, ?_, ?_, ?_⟩,
      ⟨⟨rfl, hk.block⟩, rfl⟩⟩
    · have hsplit : (x.lateRun (d.statusAt t)).all =
          (x.beyondLate ++ (x.lateRun (d.statusAt t)).late) ++ b :: m := by
        unfold Sublists.all
        rw [hpend, append_assoc]
        rfl
      have hlists := hholds.lists
      rw [hsplit] at hlists
      have hprev : d.base.prev b = (x.beyondLate ++ (x.lateRun (d.statusAt t)).late).getLast? :=
        hlists.at.2
      refine hprev.trans ?_
      rw [hrun, ← append_assoc, getLast?_append_cons, getLast?_append_cons]
    · rw [hpend]
      rfl
    · refine h.pendingTail.trans ?_
      rw [hpend, ← takeWhile_append_dropWhile (p := (d.statusAt t · = .late)) (l := x.pending),
        hdrop, getLast?_append_cons]

theorem priorityStatus_eq (d : DynamicQueue) (a : Addr) (t : TimeValue) :
    d.priorityStatus a t = (d.statusAt t a, d.withBlocks (d.evaluated a t)) := rfl

/-- From a message of the list on there are those behind it. -/
theorem Parts.walks (h : d.Parts x) {ph : Addr} {rest : List Addr} (hall : x.all = l ++ ph :: rest) :
    Walks d.base.next (some ph) (ph :: rest) ∧ rest.length < addresses := by
  have hw := h.holds.walks
  have hle := length_le_addresses h.holds.lists.nodup
  rw [hall] at hw hle
  rw [length_append, List.length_cons] at hle
  exact ⟨hw.suffix, by omega⟩

/-- The refresh of the pending messages, where the first of them is beyond late. -/
theorem refreshBeyondLate_spec (h : d.Parts x) {ph : Addr} {rest : List Addr}
    (hp : x.pending = ph :: rest) (hph : d.statusAt t ph = .beyondLate) (hsteady : x.Steady (d.statusAt t)) :
    ∃ d', d.refreshPendingQueue t = some (0, d') ∧ d'.Parts (x.refreshPending (d.statusAt t)) ∧
      Kept t d d' := by
  have hk₁ := kept_evaluated d ph t
  have h₁ := h.kept hk₁
  have hall : x.all = (x.beyondLate ++ x.late) ++ ph :: rest := by
    unfold Sublists.all
    rw [hp, append_assoc]
  obtain ⟨hw, hfuel⟩ := h₁.walks hall
  have hdrop : x.pending.dropWhile (d.statusAt t · = .beyondLate) =
      rest.dropWhile (d.statusAt t · = .beyondLate) := by
    rw [hp, List.dropWhile_cons_of_pos (by simpa using hph)]
  have htake : x.pending.takeWhile (d.statusAt t · = .beyondLate) =
      ph :: rest.takeWhile (d.statusAt t · = .beyondLate) := by
    rw [hp, List.takeWhile_cons_of_pos (by simpa using hph)]
  -- the sublists once the late messages are beyond late with the run
  generalize hy : (⟨x.beyondLate ++ (x.late ++ ph :: rest.takeWhile (d.statusAt t · = .beyondLate)), [],
    rest.dropWhile (d.statusAt t · = .beyondLate)⟩ : Sublists) = y
  have hrefresh : x.refreshPending (d.statusAt t) = y.lateRun (d.statusAt t) := by
    unfold Sublists.refreshPending
    rw [hp]
    simp only [hph]
    rw [← hp, hdrop, htake, hy]
  have hyall : y.all = x.all := by
    rw [← hy, hall]
    unfold Sublists.all
    simp only [append_assoc, nil_append, cons_append, takeWhile_append_dropWhile]
  obtain ⟨block, hk₂, hadv⟩ := advance_spec (t := t) (d := { d.withBlocks (d.evaluated ph t) with
    beyondLateHead := d.base.head, lateHead := none, lateTail := none }) .beyondLate hw hfuel
  have hk₃ : Kept t (d.withBlocks (d.evaluated ph t)) (d.withBlocks block) :=
    ⟨⟨rfl, hk₂.block⟩, rfl⟩
  have hk : Kept t d (d.withBlocks block) := hk₁.trans hk₃
  have hst : statusAt { d.withBlocks (d.evaluated ph t) with
      beyondLateHead := d.base.head, lateHead := none, lateTail := none } t = d.statusAt t :=
    hk₁.statusAt t
  rw [hst] at hadv
  have hholds : (d.withBlocks block).base.Holds y.all := by
    rw [hyall]
    exact hk.holds h.holds
  have hhead : d.base.head = y.beyondLate.head? := by
    have hhead : d.base.head = y.all.head? := hholds.lists.head
    refine hhead.trans ?_
    rw [← hy]
    cases x.beyondLate <;> cases x.late <;> rfl
  have hhead₀ : d.pendingHead = some ph := by
    rw [h.pendingHead, hp]
    rfl
  unfold refreshPendingQueue
  rw [hhead₀]
  simp only [priorityStatus_eq, hph]
  have hbase : (d.withBlocks (d.evaluated ph t)).base.head = d.base.head := rfl
  rw [hbase, hadv]
  cases hrem : rest.dropWhile (d.statusAt t · = .beyondLate) with
  | nil =>
    rw [hrem] at hy
    have htail : d.base.tail = y.all.getLast? := hholds.lists.tail
    have hynil : y.lateRun (d.statusAt t) = y := by
      rw [← hy]
      rfl
    rw [hrefresh, hynil]
    refine ⟨_, rfl, ⟨hholds, hhead, ?_, ?_, ?_, ?_, ?_⟩, ⟨⟨rfl, hk.block⟩, rfl⟩⟩
    · refine htail.trans ?_
      rw [← hy]
      unfold Sublists.all
      simp only [append_nil]
    all_goals rw [← hy]; rfl
  | cons b m =>
    rw [hrem] at hy hdrop
    have hsplit : y.all = y.beyondLate ++ b :: m := by
      rw [← hy]
      rfl
    have hprev : d.base.prev b = y.beyondLate.getLast? := by
      have hlists := hholds.lists
      rw [hsplit] at hlists
      exact hlists.at.2
    have hb : d.statusAt t b ≠ .beyondLate := by
      have hnot := List.head?_dropWhile_not (d.statusAt t · = .beyondLate) rest
      rw [hrem] at hnot
      simpa using hnot
    have hptail : x.pending.getLast? = (b :: m).getLast? := by
      rw [← takeWhile_append_dropWhile (p := (d.statusAt t · = .beyondLate)) (l := x.pending),
        hdrop, getLast?_append_cons]
    have hypend : y.pending = b :: m := by
      rw [← hy]
    -- the state with the pointers of `y`
    let d₃ : DynamicQueue := { d.withBlocks block with
      beyondLateHead := d.base.head, lateHead := none, lateTail := none, pendingHead := some b,
      beyondLateTail := d.base.prev b }
    have hparts : d₃.Parts y := by
      refine ⟨hholds, hhead, hprev, ?_, ?_, ?_, ?_⟩
      · rw [← hy]
        rfl
      · rw [← hy]
        rfl
      · rw [hypend]
        rfl
      · rw [hypend]
        exact h.pendingTail.trans hptail
    have hk₃ : Kept t d d₃ := ⟨⟨rfl, hk.block⟩, rfl⟩
    simp only [head?_cons, Option.map_some]
    by_cases hpend : d.statusAt t b = .pending
    · have hysame : y.lateRun (d.statusAt t) = y := by
        rw [← hy]
        unfold Sublists.lateRun
        rw [List.takeWhile_cons_of_neg (by simp [hpend]), dropWhile_cons_of_neg (by simp [hpend])]
        rfl
      rw [if_pos hpend, hrefresh, hysame]
      exact ⟨d₃, rfl, hparts, hk₃⟩
    · have hlate : d.statusAt t b = .late := by
        cases hs : d.statusAt t b with
        | pending => exact absurd hs hpend
        | late => rfl
        | beyondLate => exact absurd hs hb
      rw [if_neg hpend, if_neg (by simp [hlate]), hrefresh]
      have hst₃ : d₃.statusAt t = d.statusAt t := hk₃.statusAt t
      obtain ⟨d', hd', hparts', hk'⟩ := refreshLateRun_spec hparts hypend (t := t)
        (by rw [hst₃]; exact hlate) (by
          rw [hst₃, hypend, ← hdrop]
          exact hsteady)
      rw [hst₃] at hparts'
      exact ⟨d', hd', hparts', hk₃.trans hk'⟩

/-- **The refresh of the pending messages.** -/
theorem refreshPendingQueue_spec (h : d.Parts x) (hsteady : x.Steady (d.statusAt t)) :
    ∃ d', d.refreshPendingQueue t = some (0, d') ∧ d'.Parts (x.refreshPending (d.statusAt t)) ∧
      Kept t d d' := by
  cases hp : x.pending with
  | nil =>
    have hhead : d.pendingHead = none := by rw [h.pendingHead, hp]; rfl
    have hsame : x.refreshPending (d.statusAt t) = x := by
      unfold Sublists.refreshPending
      rw [hp]
    rw [hsame]
    unfold refreshPendingQueue
    rw [hhead]
    exact ⟨d, rfl, h, refl t d⟩
  | cons ph rest =>
    have hhead : d.pendingHead = some ph := by rw [h.pendingHead, hp]; rfl
    have hk := kept_evaluated d ph t
    cases hph : d.statusAt t ph with
    | beyondLate => exact refreshBeyondLate_spec h hp hph hsteady
    | late =>
      have hsame : x.refreshPending (d.statusAt t) = x.lateRun (d.statusAt t) := by
        unfold Sublists.refreshPending
        rw [hp]
        simp only [hph]
      have hbl : x.pending.dropWhile (d.statusAt t · = .beyondLate) = x.pending := by
        rw [hp, dropWhile_cons_of_neg (by simp [hph])]
      unfold Sublists.Steady at hsteady
      rw [hbl] at hsteady
      have hst := hk.statusAt t
      obtain ⟨d', hd', hparts, hk'⟩ := refreshLateRun_spec (h.kept hk) hp (t := t) (by rw [hst]; exact hph)
        (by rw [hst]; exact hsteady)
      rw [hst] at hparts
      rw [hsame]
      refine ⟨d', ?_, hparts, hk.trans hk'⟩
      unfold refreshPendingQueue
      rw [hhead]
      simp only [priorityStatus_eq, hph]
      exact hd'
    | pending =>
      have hsame : x.refreshPending (d.statusAt t) = x := by
        unfold Sublists.refreshPending
        rw [hp]
        simp only [hph]
      rw [hsame]
      refine ⟨_, ?_, h.kept hk, hk⟩
      unfold refreshPendingQueue
      rw [hhead]
      simp only [priorityStatus_eq, hph]

/-- The late messages that are beyond late now come to those in front of them. -/
theorem refreshLate_spec (h : d.Parts x) (hsound : x.Sound (d.statusAt t))
    (hpending : ∀ a, x.pending.head? = some a → d.statusAt t a = .pending) {lh : Addr} {rest : List Addr}
    (hl : x.late = lh :: rest) (hlh : d.statusAt t lh = .beyondLate) :
    ∃ d', d.refreshLateQueue t = some (0, d') ∧ d'.Parts (x.refreshLate (d.statusAt t)) ∧ Kept t d d' := by
  have hhead : d.lateHead = some lh := by rw [h.lateHead, hl]; rfl
  have hk₁ := kept_evaluated d lh t
  generalize hy : x.refreshLate (d.statusAt t) = y
  have hybl : y.beyondLate = x.beyondLate ++ lh :: rest.takeWhile (d.statusAt t · = .beyondLate) := by
    rw [← hy]
    unfold Sublists.refreshLate
    rw [hl, List.takeWhile_cons_of_pos (by simpa using hlh)]
  have hylate : y.late = rest.dropWhile (d.statusAt t · = .beyondLate) := by
    rw [← hy]
    unfold Sublists.refreshLate
    rw [hl, List.dropWhile_cons_of_pos (by simpa using hlh)]
  have hypend : y.pending = x.pending := by
    rw [← hy]
    rfl
  have hyall : y.all = x.all := by
    rw [← hy]
    exact Sublists.all_refreshLate x
  have hpendingHead : d.pendingHead = y.pending.head? := by rw [hypend]; exact h.pendingHead
  have hpendingTail : d.pendingTail = y.pending.getLast? := by rw [hypend]; exact h.pendingTail
  have hall : x.all = x.beyondLate ++ lh :: (rest ++ x.pending) := by
    unfold Sublists.all
    rw [hl]
    rfl
  obtain ⟨hw, hfuel⟩ := (h.kept hk₁).walks hall
  obtain ⟨block, hk₂, hadv⟩ := advance_spec (t := t) (d := { d.withBlocks (d.evaluated lh t) with
    beyondLateHead := d.base.head }) .beyondLate hw hfuel
  have hk₃ : Kept t (d.withBlocks (d.evaluated lh t)) (d.withBlocks block) :=
    ⟨⟨rfl, hk₂.block⟩, rfl⟩
  have hk : Kept t d (d.withBlocks block) := hk₁.trans hk₃
  have hst : statusAt { d.withBlocks (d.evaluated lh t) with beyondLateHead := d.base.head } t =
    d.statusAt t := hk₁.statusAt t
  rw [hst] at hadv
  have hholds : (d.withBlocks block).base.Holds y.all := by
    rw [hyall]
    exact hk.holds h.holds
  have hblhead : d.base.head = y.beyondLate.head? := by
    have hhead : d.base.head = y.all.head? := hholds.lists.head
    refine hhead.trans ?_
    unfold Sublists.all
    rw [hybl]
    cases x.beyondLate <;> rfl
  unfold refreshLateQueue
  rw [hhead]
  simp only [priorityStatus_eq, hlh]
  have hbase : (d.withBlocks (d.evaluated lh t)).base.head = d.base.head := rfl
  rw [hbase, hadv, List.dropWhile_append]
  -- the message behind the run, if any, is the neighbour of its last
  have hprev : ∀ {b m}, y.late ++ y.pending = b :: m → d.base.prev b = y.beyondLate.getLast? := by
    intro b m hbm
    have hlists := hholds.lists
    unfold Sublists.all at hlists
    rw [hbm] at hlists
    exact hlists.at.2
  cases hrem : rest.dropWhile (d.statusAt t · = .beyondLate) with
  | cons b m =>
    rw [hrem] at hylate
    have hb : d.statusAt t b = .late := by
      have hnot := List.head?_dropWhile_not (d.statusAt t · = .beyondLate) rest
      rw [hrem] at hnot
      have hmem : b ∈ x.late := by
        rw [hl]
        exact List.mem_cons_of_mem _ (List.dropWhile_subset _ (hrem ▸ List.mem_cons_self))
      cases hs : d.statusAt t b with
      | pending => exact absurd hs (hsound.late b hmem)
      | late => rfl
      | beyondLate => simp [hs] at hnot
    simp only [List.isEmpty_cons, Bool.false_eq_true, if_false, cons_append, head?_cons,
      Option.map_some, hb, reduceCtorEq, ne_eq, not_true_eq_false]
    refine ⟨_, rfl, ⟨hholds, hblhead, hprev (by rw [hylate]; rfl), ?_, ?_, hpendingHead, hpendingTail⟩,
      ⟨⟨rfl, hk.block⟩, rfl⟩⟩
    · rw [hylate]
      rfl
    · refine h.lateTail.trans ?_
      rw [hl, hylate, ← takeWhile_append_dropWhile (p := (d.statusAt t · = .beyondLate)) (l := rest),
        hrem, ← cons_append, getLast?_append_cons]
  | nil =>
    rw [hrem] at hylate
    simp only [List.isEmpty_nil, if_true]
    cases hp : x.pending with
    | nil =>
      have htail : d.base.tail = y.all.getLast? := hholds.lists.tail
      have hyone : y.all = y.beyondLate := by
        unfold Sublists.all
        rw [hylate, hypend, hp]
        exact append_nil _
      rw [hyone] at htail
      refine ⟨_, rfl, ⟨hholds, hblhead, htail, ?_, ?_, hpendingHead, hpendingTail⟩,
        ⟨⟨rfl, hk.block⟩, rfl⟩⟩
      · rw [hylate]
        rfl
      · rw [hylate]
        rfl
    | cons b m =>
      have hb : d.statusAt t b = .pending := hpending b (by rw [hp]; rfl)
      rw [dropWhile_cons_of_neg (by simp [hb])]
      simp only [head?_cons, Option.map_some, hb, if_true]
      refine ⟨_, rfl, ⟨hholds, hblhead, hprev (by rw [hylate, hypend, hp]; rfl), ?_, ?_, hpendingHead,
        hpendingTail⟩, ⟨⟨rfl, hk.block⟩, rfl⟩⟩
      · rw [hylate]
        rfl
      · rw [hylate]
        rfl

/-- **The refresh of the late messages.** -/
theorem refreshLateQueue_spec (h : d.Parts x) (hsound : x.Sound (d.statusAt t))
    (hpending : ∀ a, x.pending.head? = some a → d.statusAt t a = .pending) :
    ∃ d', d.refreshLateQueue t = some (0, d') ∧ d'.Parts (x.refreshLate (d.statusAt t)) ∧ Kept t d d' := by
  cases hl : x.late with
  | nil =>
    have hhead : d.lateHead = none := by rw [h.lateHead, hl]; rfl
    have hsame : x.refreshLate (d.statusAt t) = x := by
      unfold Sublists.refreshLate
      rw [hl, List.takeWhile_nil, List.dropWhile_nil, append_nil, ← hl]
    rw [hsame]
    unfold refreshLateQueue
    rw [hhead]
    exact ⟨d, rfl, h, refl t d⟩
  | cons lh rest =>
    have hhead : d.lateHead = some lh := by rw [h.lateHead, hl]; rfl
    have hk₁ := kept_evaluated d lh t
    cases hlh : d.statusAt t lh with
    | pending => exact absurd hlh (hsound.late lh (by rw [hl]; exact List.mem_cons_self))
    | late =>
      have hsame : x.refreshLate (d.statusAt t) = x := by
        unfold Sublists.refreshLate
        rw [hl, List.takeWhile_cons_of_neg (by simp [hlh]), dropWhile_cons_of_neg (by simp [hlh]),
          append_nil, ← hl]
      rw [hsame]
      refine ⟨_, ?_, h.kept hk₁, hk₁⟩
      unfold refreshLateQueue
      rw [hhead]
      simp only [priorityStatus_eq, hlh]
    | beyondLate => exact refreshLate_spec h hsound hpending hl hlh

/-- **Refresh**: the sublists are those of the time. -/
theorem refreshQueue_spec (h : d.Parts x) (hsound : x.Sound (d.statusAt t))
    (hsteady : x.Steady (d.statusAt t)) :
    ∃ d', d.refreshQueue t = some (0, d') ∧ d'.Parts (x.refresh (d.statusAt t)) ∧ Kept t d d' := by
  obtain ⟨d₁, hd₁, h₁, hk₁⟩ := refreshPendingQueue_spec h hsteady
  have hst := hk₁.statusAt t
  obtain ⟨d₂, hd₂, h₂, hk₂⟩ := refreshLateQueue_spec h₁ (by rw [hst]; exact hsound.refreshPending)
    (by rw [hst]; exact fun a => hsteady.head)
  rw [hst] at h₂
  refine ⟨d₂, ?_, h₂, hk₁.trans hk₂⟩
  unfold refreshQueue
  rw [hd₁]
  exact hd₂

/-! ## Enqueueing -/

def priorityAt (d : DynamicQueue) (t : TimeValue) (a : Addr) : UInt64 :=
  (d.strategy.evaluate (d.base.block a) t).priority

theorem Seen.priorityAt (h : Seen t d d') : d'.priorityAt t = d.priorityAt t := by
  funext a
  unfold DynamicQueue.priorityAt
  rw [h.evaluate]

variable {new : Addr} {m : List Addr} {q : MessageQueue}

theorem sublistScan_succ {fuel : Nat} (hne : new ≠ cur) :
    sublistScan new t st (fuel + 1) d (some cur) = if d.statusAt t cur = st then
        if (d.base.block new).priority ≤ d.priorityAt t cur then
          some (some cur, false, d.withBlocks (d.evaluated cur t))
        else sublistScan new t st fuel (d.withBlocks (d.evaluated cur t)) (d.base.prev cur)
      else some (some cur, true, d.withBlocks (d.evaluated cur t)) := by
  have hcur : d.evaluated cur t cur = d.strategy.evaluate (d.base.block cur) t := update_self ..
  have hnew : d.evaluated cur t new = d.base.block new := update_of_ne hne ..
  unfold DynamicQueue.priorityAt
  rw [← hcur, ← hnew]
  rfl

/-- The scan from the tail of a sublist, with `pre` before it, stops in the sublist
at a message of the status, or before it at one of another. -/
theorem sublistScan_spec {fuel : Nat}
    (h : d.base.links.Lists ((pre ++ m) ++ post)) (hfuel : (pre ++ m).length ≤ fuel)
    (hnew : new ∉ pre ++ m) (hprio : (d.base.block new).priority = d.priorityAt t new)
    (hpre : ∀ a, pre.getLast? = some a → d.statusAt t a ≠ st)
    (hclear : ∀ a ∈ m.reverse.find? (fun a => d.statusAt t a ≠ st ∨
      d.priorityAt t new ≤ d.priorityAt t a), d.statusAt t a = st) :
    ∃ a b block, m = a ++ b ∧ Kept t d (d.withBlocks block) ∧
      sublistScan new t st fuel d (pre ++ m).getLast? =
        some ((pre ++ a).getLast?, a.isEmpty && !pre.isEmpty, d.withBlocks block) := by
  induction m using List.reverseRecOn generalizing d fuel post with
  | nil =>
    rw [append_nil] at hfuel hnew
    cases hp : pre.getLast? with
    | none =>
      obtain rfl := getLast?_eq_none_iff.mp hp
      refine ⟨[], [], d.base.block, rfl, refl t d, ?_⟩
      cases fuel <;> rfl
    | some c =>
      have hc : c ∈ pre := mem_of_getLast? hp
      have hne : new ≠ c := fun e => hnew (e ▸ hc)
      obtain ⟨fuel, rfl⟩ := Nat.exists_eq_succ_of_ne_zero (Nat.ne_of_gt (Nat.lt_of_lt_of_le
        (List.length_pos_of_mem hc) hfuel))
      refine ⟨[], [], d.evaluated c t, rfl, kept_evaluated d c t, ?_⟩
      have hempty : pre.isEmpty = false := List.isEmpty_eq_false_iff.mpr (ne_nil_of_mem hc)
      rw [append_nil, hp, sublistScan_succ hne, if_neg (hpre c hp), hempty]
      rfl
  | append_singleton m c ih =>
    have hc : c ∈ pre ++ (m ++ [c]) := by simp
    have hne : new ≠ c := fun e => hnew (e ▸ hc)
    have hk := kept_evaluated d c t
    rw [← append_assoc] at h hfuel hnew ⊢
    have h' : d.base.links.Lists ((pre ++ m) ++ c :: post) := by rwa [append_assoc] at h
    have hprev : d.base.prev c = (pre ++ m).getLast? := h'.at.2
    rw [length_append, List.length_singleton] at hfuel
    obtain ⟨fuel, rfl⟩ := Nat.exists_eq_succ_of_ne_zero (Nat.ne_of_gt (Nat.lt_of_lt_of_le
      (Nat.succ_pos _) hfuel))
    rw [List.getLast?_concat, sublistScan_succ hne, hprio, hprev]
    rw [List.reverse_concat] at hclear
    by_cases hhit : d.statusAt t c ≠ st ∨ d.priorityAt t new ≤ d.priorityAt t c
    · rw [List.find?_cons_of_pos (by simpa using hhit)] at hclear
      have hst := hclear c rfl
      rw [if_pos hst, if_pos (hhit.resolve_left fun hn => hn hst)]
      refine ⟨m ++ [c], [], _, (append_nil _).symm, hk, ?_⟩
      simp
    · rw [List.find?_cons_of_neg (by simpa using hhit)] at hclear
      push Not at hhit
      rw [if_pos hhit.1, if_neg hhit.2]
      have hlists : (d.withBlocks (d.evaluated c t)).base.links.Lists ((pre ++ m) ++ c :: post) := h'
      have hprio' : ((d.withBlocks (d.evaluated c t)).base.block new).priority =
          (d.withBlocks (d.evaluated c t)).priorityAt t new := by
        rw [hk.priorityAt, ← hprio]
        exact congrArg MessageBlock.priority (update_of_ne hne ..)
      obtain ⟨a, b, block, hab, hk', hscan⟩ := ih hlists (show (pre ++ m).length ≤ fuel by omega)
        (fun hm => hnew (mem_append_left _ hm)) hprio' (by rw [hk.statusAt]; exact hpre)
        (by rw [hk.statusAt, hk.priorityAt]; exact hclear)
      exact ⟨a, b ++ [c], block, by rw [hab, append_assoc], hk.trans hk', hscan⟩

/-- A message goes between the two parts of the list. -/
theorem lists_insertOne {q' : MessageQueue} (h : q.links.Lists (l₁ ++ l₂)) (hnew : new ∉ l₁ ++ l₂)
    (hq : q'.links = ⟨update (update q.links.next (some new) l₂.head?) l₁.getLast? (some new),
        update (update q.links.prev (some new) l₁.getLast?) l₂.head? (some new)⟩) :
    q'.links.Lists (l₁ ++ new :: l₂) := by
  have hl : l₁.getLast? ≠ some new := fun e => hnew (mem_append_left _ (mem_of_getLast? e))
  have hr : l₂.head? ≠ some new := fun e => hnew (mem_append_right _ (List.mem_of_head? e))
  have hc : [new].IsChain fun x y => q.links.next (some x) = some y ∧ q.links.prev (some y) = some x :=
    .singleton new
  have hy : [new].getLast? = some new := rfl
  rw [hq]
  refine h.insert hc (List.nodup_singleton new) (by simpa using hnew) rfl hy ?_ ?_ ?_ ?_
  · intro z hz hzn
    simp only [update_of_ne hz, update_of_ne hzn]
  · intro z hz hzn
    simp only [update_of_ne hz, update_of_ne hzn]
  · simp only [update_self, update_of_ne hr.symm, and_self]
  · simp only [update_self, update_of_ne hl.symm, and_self]

theorem linkAfter_lists (h : q.links.Lists (l₁ ++ l₂)) (hnew : new ∉ l₁ ++ l₂)
    (hcur : l₁.getLast? = some cur) : (linkAfter q cur new).links.Lists (l₁ ++ new :: l₂) := by
  have hne : cur ≠ new := fun e => hnew (mem_append_left _ (e ▸ mem_of_getLast? hcur))
  have hnext : q.next cur = l₂.head? := by
    have hseam := h.seam.1
    rwa [hcur] at hseam
  have hnext' : ((q.setNext new (q.next cur)).setPrev new (some cur)).next cur = l₂.head? := by
    rw [← hnext]
    exact update_of_ne hne ..
  have heq : linkAfter q cur new = (((q.setNextOr (some new) l₂.head?).setPrevOr (some new)
      (some cur)).setPrevOr l₂.head? (some new)).setNextOr (some cur) (some new) := by
    unfold linkAfter
    simp only [hnext']
    rw [hnext]
    cases l₂.head? <;> rfl
  refine lists_insertOne h hnew ?_
  rw [heq, hcur]
  simp only [links_setNextOr, links_setPrevOr]

theorem linkBeyondLate_lists (h : q.links.Lists (l₁ ++ l₂)) (hnew : new ∉ l₁ ++ l₂)
    (hcur : l₁.getLast? = some cur) :
    (linkBeyondLate q cur new).links.Lists (l₁ ++ new :: l₂) := by
  have hr : l₂.head? ≠ some new := fun e => hnew (mem_append_right _ (List.mem_of_head? e))
  have hnext : q.next cur = l₂.head? := by
    have hseam := h.seam.1
    rwa [hcur] at hseam
  have heq : linkBeyondLate q cur new = (((q.setPrevOr l₂.head? (some new)).setNextOr (some new)
      l₂.head?).setNextOr (some cur) (some new)).setPrevOr (some new) (some cur) := by
    unfold linkBeyondLate
    rw [hnext]
    cases hh : l₂.head? with
    | none =>
      have hnone : q.next cur = none := hnext.trans hh
      simp only [setPrevOr, setNextOr, hnone]
    | some n =>
      have hsome : (q.setPrev n (some new)).next cur = some n := hnext.trans hh
      simp only [setPrevOr, setNextOr, hsome]
  refine lists_insertOne h hnew ?_
  rw [heq, hcur]
  simp only [links_setNextOr, links_setPrevOr]
  rw [update_comm hr]

theorem spliceLate_lists (h : q.links.Lists (l₁ ++ l₂)) (hnew : new ∉ l₁ ++ l₂)
    (hcur : l₁.getLast? = some cur) (hnxt : l₂.head? = some nxt) :
    (spliceLate q cur new nxt).links.Lists (l₁ ++ new :: l₂) := by
  have hne : some cur ≠ some new := fun e =>
    hnew (mem_append_left _ (mem_of_getLast? (hcur.trans e)))
  have heq : spliceLate q cur new nxt = (((q.setNextOr (some cur) (some new)).setPrevOr (some new)
      (some cur)).setPrevOr (some nxt) (some new)).setNextOr (some new) (some nxt) := rfl
  refine lists_insertOne h hnew ?_
  rw [heq, hcur, hnxt]
  simp only [links_setNextOr, links_setPrevOr]
  rw [update_comm hne]

/-- The blocks and the counters of the queue are not touched. -/
structure SameBlocks (q q' : MessageQueue) : Prop where
  block : q'.block = q.block
  bytes : q'.curBytes = q.curBytes
  length : q'.curLength = q.curLength
  count : q'.curCount = q.curCount

theorem sameBlocks_setNextOr (q : MessageQueue) (p v : Option Addr) : SameBlocks q (q.setNextOr p v) := by
  cases p <;> exact ⟨rfl, rfl, rfl, rfl⟩

theorem sameBlocks_setPrevOr (q : MessageQueue) (p v : Option Addr) : SameBlocks q (q.setPrevOr p v) := by
  cases p <;> exact ⟨rfl, rfl, rfl, rfl⟩

theorem SameBlocks.trans {q' q'' : MessageQueue} (h : SameBlocks q q') (h' : SameBlocks q' q'') :
    SameBlocks q q'' :=
  ⟨h'.block.trans h.block, h'.bytes.trans h.bytes, h'.length.trans h.length, h'.count.trans h.count⟩

theorem sameBlocks_linkHead (q : MessageQueue) (new t : Addr) : SameBlocks q (q.linkHead new t) := by
  rw [linkHead_eq]
  exact (((sameBlocks_setPrevOr q _ _).trans (sameBlocks_setNextOr _ _ _)).trans
    (sameBlocks_setPrevOr _ _ _)).trans (sameBlocks_setNextOr _ _ _)

theorem sameBlocks_linkAfter (q : MessageQueue) (cur new : Addr) : SameBlocks q (linkAfter q cur new) := by
  unfold linkAfter
  simp only
  split <;> exact ⟨rfl, rfl, rfl, rfl⟩

theorem sameBlocks_linkBeyondLate (q : MessageQueue) (cur new : Addr) :
    SameBlocks q (linkBeyondLate q cur new) := by
  unfold linkBeyondLate
  split <;> exact ⟨rfl, rfl, rfl, rfl⟩

theorem sublistEnqueueI_spec (h : d.base.links.Lists (pre ++ (m ++ post)))
    (hm : m ≠ []) (hnew : new ∉ pre ++ (m ++ post))
    (hprio : (d.base.block new).priority = d.priorityAt t new)
    (hpre : ∀ a, pre.getLast? = some a → d.statusAt t a ≠ d.statusAt t new)
    (hclear : Sublists.Clear (d.statusAt t) (d.priorityAt t) new m) :
    ∃ a b block base, m = a ++ b ∧ Kept t d (d.withBlocks block) ∧
      d.sublistEnqueueI new t m.head? m.getLast? (d.statusAt t new) =
        some ((a ++ new :: b).head?, (a ++ new :: b).getLast?, { d with base := base }) ∧
      base.links.Lists (pre ++ ((a ++ new :: b) ++ post)) ∧ SameBlocks (d.withBlocks block).base base := by
  have hlists : d.base.links.Lists ((pre ++ m) ++ post) := by rwa [append_assoc]
  have hlen : (pre ++ m).length ≤ addresses := by
    have hle := length_le_addresses hlists.nodup
    rw [length_append] at hle
    omega
  have hnew' : new ∉ pre ++ m := fun hmem => hnew (by
    rw [← append_assoc]
    exact mem_append_left _ hmem)
  obtain ⟨a, b, block, rfl, hk, hscan⟩ := sublistScan_spec hlists hlen hnew' hprio hpre hclear
  have htail : (pre ++ (a ++ b)).getLast? = (a ++ b).getLast? :=
    getLast?_append_of_ne_nil pre hm
  rw [htail] at hscan
  have hsplit : (d.withBlocks block).base.links.Lists ((pre ++ a) ++ (b ++ post)) := by
    have h' : d.base.links.Lists ((pre ++ a) ++ (b ++ post)) := by simpa using h
    exact h'
  have hnew₂ : new ∉ (pre ++ a) ++ (b ++ post) := by simpa using hnew
  have hresult : ∀ base : MessageQueue, base.links.Lists ((pre ++ a) ++ new :: (b ++ post)) →
      base.links.Lists (pre ++ ((a ++ new :: b) ++ post)) := fun base hb => by simpa using hb
  unfold sublistEnqueueI
  rw [hscan]
  cases hcur : (pre ++ a).getLast? with
  | none =>
    obtain ⟨rfl, rfl⟩ := List.append_eq_nil_iff.mp (getLast?_eq_none_iff.mp hcur)
    have hb : b ≠ [] := hm
    have hhead : (d.withBlocks block).base.head ≠ none := by
      have hhead : (d.withBlocks block).base.head = (b ++ post).head? := hsplit.head
      rw [hhead, List.head?_append_of_ne_nil _ hb]
      exact fun e => hb (List.head?_eq_none_iff.mp e)
    refine ⟨[], b, block, (d.withBlocks block).base.linkHead new new, rfl, hk, ?_, hresult _ ?_,
      sameBlocks_linkHead _ new new⟩
    · simp only [if_neg hhead]
      rw [nil_append, nil_append, List.getLast?_cons_of_ne_nil hb]
      rfl
    · exact linkHead_lists (c := [new]) hsplit (.singleton new) (List.nodup_singleton new)
        (fun z hz => mem_singleton.mp hz ▸ hnew₂) rfl rfl
  | some cur =>
    refine ⟨a, b, block, linkAfter (d.withBlocks block).base cur new, rfl, hk, ?_,
      hresult _ (linkAfter_lists hsplit hnew₂ hcur), sameBlocks_linkAfter _ cur new⟩
    have hheads : (if (a.isEmpty && !pre.isEmpty) = true then some new else (a ++ b).head?) =
        (a ++ new :: b).head? := by
      cases a with
      | cons x a => rfl
      | nil =>
        rw [append_nil] at hcur
        have hpre : pre.isEmpty = false :=
          List.isEmpty_eq_false_iff.mpr (ne_nil_of_mem (mem_of_getLast? hcur))
        rw [hpre]
        rfl
    have htails : (if (a ++ b).getLast? = some cur then some new else (a ++ b).getLast?) =
        (a ++ new :: b).getLast? := by
      rw [getLast?_append_cons]
      by_cases hb : b = []
      · subst hb
        rw [append_nil] at hm ⊢
        rw [getLast?_append_of_ne_nil pre hm] at hcur
        rw [if_pos hcur]
        rfl
      · rw [getLast?_append_of_ne_nil a hb, List.getLast?_cons_of_ne_nil hb, if_neg]
        intro hlast
        have hdisj := (List.nodup_append.mp hsplit.nodup).2.2
        exact hdisj cur (mem_of_getLast? hcur) cur
          (mem_append_left _ (mem_of_getLast? hlast)) rfl
    simp only [hheads, htails]
    rfl

/-- The new message was enqueued: the sublists and it. -/
def Enqueued (t : TimeValue) (d : DynamicQueue) (y : Sublists) (new : Addr)
    (r : Option (Int × DynamicQueue)) : Prop :=
  ∃ d' y', r = some (truncateCast d'.base.curCount, d') ∧ d'.Parts y' ∧ y'.all.Perm (new :: y.all) ∧
    Seen t d d' ∧ y'.Sound (d.statusAt t)

/-- The message was linked in, and is counted last. -/
theorem addBytes_holds (hl : q.links.Lists l) (hc : q.Counts l₁) (hperm : l.Perm (new :: l₁)) :
    (q.addBytes new).incCount.Holds l :=
  ⟨hl, ((hc.add new).congr rfl rfl rfl rfl).perm hperm.symm⟩

theorem SameBlocks.counts {q' : MessageQueue} (h : SameBlocks q q') (hc : q.Counts l) :
    q'.Counts l := hc.congr h.block h.bytes h.length h.count

theorem seen_of_block {e : DynamicQueue} (hk : Seen t d d') (hs : e.strategy = d'.strategy)
    (hb : e.base.block = d'.base.block) : Seen t d e :=
  ⟨hs.trans hk.strategy, fun a => by rw [hb]; exact hk.block a⟩

theorem perm_insert (l₁ a b l₂ : List Addr) (new : Addr) :
    (l₁ ++ ((a ++ new :: b) ++ l₂)).Perm (new :: (l₁ ++ ((a ++ b) ++ l₂))) := by
  have hperm : ((l₁ ++ a) ++ new :: (b ++ l₂)).Perm (new :: ((l₁ ++ a) ++ (b ++ l₂))) := perm_middle
  simpa using hperm

theorem sublistCounted_spec (h : d.base.Holds (pre ++ (m ++ post)))
    (hm : m ≠ []) (hnew : new ∉ pre ++ (m ++ post))
    (hprio : (d.base.block new).priority = d.priorityAt t new)
    (hpre : ∀ a, pre.getLast? = some a → d.statusAt t a ≠ d.statusAt t new)
    (hclear : Sublists.Clear (d.statusAt t) (d.priorityAt t) new m) : ∃ a b base, m = a ++ b ∧
      d.sublistEnqueueI new t m.head? m.getLast? (d.statusAt t new) =
        some ((a ++ new :: b).head?, (a ++ new :: b).getLast?, { d with base := base }) ∧
      (base.addBytes new).incCount.Holds (pre ++ ((a ++ new :: b) ++ post)) ∧
      Seen t d { d with base := base } := by
  obtain ⟨a, b, block, base, rfl, hk, heq, hlists, hsame⟩ :=
    sublistEnqueueI_spec h.lists hm hnew hprio hpre hclear
  exact ⟨a, b, base, rfl, heq, addBytes_holds hlists (hsame.counts (hk.holds h).counts)
    (perm_insert pre a b post new), seen_of_block hk.toSeen rfl hsame.block⟩

theorem enqueuePending_spec (h : d.Parts x) (hsound : x.Sound (d.statusAt t)) (hnew : new ∉ x.all)
    (hnone : d.base.next new = none) (hprio : (d.base.block new).priority = d.priorityAt t new)
    (hst : d.statusAt t new = .pending)
    (hclear : Sublists.Clear (d.statusAt t) (d.priorityAt t) new x.pending) :
    Enqueued t d x new (d.enqueuePending new t) := by
  unfold enqueuePending
  by_cases hp : x.pending = []
  · have htail : d.pendingTail = none := by rw [h.pendingTail, hp]; rfl
    obtain ⟨q', hq', hholds, hblock⟩ := enqueueTailI_holds h.holds (c := [new]) ⟨rfl, hnone⟩
      (by simpa using hnew)
    rw [if_pos htail]
    simp only [hq']
    have hall : (⟨x.beyondLate, x.late, [new]⟩ : Sublists).all = x.all ++ [new] := by
      unfold Sublists.all
      rw [hp, append_nil, append_assoc]
    refine ⟨{ d with base := q', pendingHead := some new, pendingTail := some new },
      ⟨x.beyondLate, x.late, [new]⟩, rfl, ⟨by rw [hall]; exact hholds, h.beyondLateHead,
      h.beyondLateTail, h.lateHead, h.lateTail, rfl, rfl⟩, ?_, seen_of_block (refl t d).toSeen rfl
      hblock, ⟨hsound.late, hsound.beyondLate⟩⟩
    rw [hall]
    exact List.perm_append_singleton new x.all
  · have htail : d.pendingTail ≠ none := by
      rw [h.pendingTail]
      exact fun e => hp (getLast?_eq_none_iff.mp e)
    have hall : ∀ y : Sublists, (y.beyondLate ++ y.late) ++ (y.pending ++ []) = y.all := fun y => by
      unfold Sublists.all
      rw [append_nil, append_assoc]
    have hpre : ∀ a, (x.beyondLate ++ x.late).getLast? = some a → d.statusAt t a ≠ d.statusAt t new := by
      intro a ha
      rw [hst]
      by_cases hl : x.late = []
      · rw [hl, append_nil] at ha
        rw [hsound.beyondLate a ha]
        decide
      · rw [getLast?_append_of_ne_nil _ hl] at ha
        exact hsound.late a (mem_of_getLast? ha)
    have hholds := h.holds
    rw [← hall x] at hholds hnew
    obtain ⟨a, b, base, hab, heq, hholds', hseen⟩ :=
      sublistCounted_spec hholds hp hnew hprio hpre hclear
    rw [if_neg htail, h.pendingHead, h.pendingTail, ← hst, heq]
    refine ⟨{ d with
        base := (base.addBytes new).incCount
        pendingHead := (a ++ new :: b).head?
        pendingTail := (a ++ new :: b).getLast? },
      ⟨x.beyondLate, x.late, a ++ new :: b⟩, rfl, ⟨?_, h.beyondLateHead, h.beyondLateTail, h.lateHead,
      h.lateTail, rfl, rfl⟩, ?_, seen_of_block hseen rfl rfl, ⟨hsound.late, hsound.beyondLate⟩⟩
    · rw [← hall]
      exact hholds'
    · rw [← hall, ← hall x, hab]
      exact perm_insert _ a b [] new

theorem enqueueLate_spec (h : d.Parts x) (hsound : x.Sound (d.statusAt t)) (hnew : new ∉ x.all)
    (hnone : d.base.next new = none) (hprio : (d.base.block new).priority = d.priorityAt t new)
    (hst : d.statusAt t new = .late)
    (hclear : Sublists.Clear (d.statusAt t) (d.priorityAt t) new x.late) :
    Enqueued t d x new (d.enqueueLate new t) := by
  unfold enqueueLate
  by_cases hl : x.late = []
  · have htail : d.lateTail = none := by rw [h.lateTail, hl]; rfl
    have hall : x.all = x.beyondLate ++ x.pending := by
      unfold Sublists.all
      rw [hl, nil_append]
    have hsound' : Sublists.Sound (d.statusAt t) ⟨x.beyondLate, [new], x.pending⟩ := by
      refine ⟨fun a ha => ?_, hsound.beyondLate⟩
      rw [mem_singleton.mp ha, hst]
      decide
    have hperm : (⟨x.beyondLate, [new], x.pending⟩ : Sublists).all.Perm (new :: x.all) := by
      rw [hall]
      exact perm_middle
    have hdisj : ∀ z ∈ [new], z ∉ x.all := fun z hz => mem_singleton.mp hz ▸ hnew
    rw [if_pos htail]
    cases hp : x.pending with
    | nil =>
      have hhead : d.pendingHead = none := by rw [h.pendingHead, hp]; rfl
      obtain ⟨q', hq', hholds, hblock⟩ := enqueueTailI_holds h.holds (c := [new]) ⟨rfl, hnone⟩ hdisj
      rw [hhead]
      simp only [hq']
      rw [hall, hp, append_nil] at hholds
      refine ⟨{ d with base := q', pendingHead := none, lateHead := some new, lateTail := some new },
        ⟨x.beyondLate, [new], []⟩, rfl, ⟨hholds, h.beyondLateHead, h.beyondLateTail, rfl, rfl,
        rfl, ?_⟩, by rwa [hp] at hperm, seen_of_block (refl t d).toSeen rfl hblock,
        by rwa [hp] at hsound'⟩
      rw [h.pendingTail, hp]
    | cons p m =>
      have hhead : d.pendingHead = some p := by rw [h.pendingHead, hp]; rfl
      rw [hhead]
      cases hb : x.beyondLate.getLast? with
      | none =>
        have hbl : d.beyondLateTail = none := h.beyondLateTail.trans hb
        obtain ⟨q', hq', hholds, hblock⟩ := enqueueHeadI_holds h.holds (c := [new]) ⟨rfl, hnone⟩ hdisj
        have hnil : x.beyondLate = [] := getLast?_eq_none_iff.mp hb
        rw [hall, hnil] at hholds
        rw [hbl]
        simp only [hq']
        refine ⟨{ d with
            base := q'
            pendingHead := some p
            beyondLateTail := none
            lateHead := some new
            lateTail := some new }, ⟨[], [new], x.pending⟩, rfl, ⟨hholds, ?_, rfl, rfl, rfl, ?_,
          h.pendingTail⟩, by rwa [hnil] at hperm, seen_of_block (refl t d).toSeen rfl hblock,
          by rwa [hnil] at hsound'⟩
        · rw [h.beyondLateHead, hnil]
        · rw [hp]
          rfl
      | some c =>
        have hbl : d.beyondLateTail = some c := h.beyondLateTail.trans hb
        rw [hbl]
        have hlists := h.holds.lists
        rw [hall] at hlists hnew
        have hlists' := spliceLate_lists hlists hnew hb (show x.pending.head? = some p by rw [hp]; rfl)
        have hcounts : (spliceLate d.base c new p).Counts x.all := h.holds.counts.congr rfl rfl rfl rfl
        refine ⟨{ d with
            base := ((spliceLate d.base c new p).addBytes new).incCount
            pendingHead := some p
            beyondLateTail := some c
            lateHead := some new
            lateTail := some new },
          ⟨x.beyondLate, [new], x.pending⟩, rfl, ⟨addBytes_holds hlists' hcounts hperm, h.beyondLateHead,
          hb.symm, rfl, rfl, ?_, h.pendingTail⟩, hperm, seen_of_block (refl t d).toSeen rfl rfl, hsound'⟩
        rw [hp]
        rfl
  · have htail : d.lateTail ≠ none := by
      rw [h.lateTail]
      exact fun e => hl (getLast?_eq_none_iff.mp e)
    have hpre : ∀ a, x.beyondLate.getLast? = some a → d.statusAt t a ≠ d.statusAt t new := by
      intro a ha
      rw [hst, hsound.beyondLate a ha]
      decide
    obtain ⟨a, b, base, hab, heq, hholds', hseen⟩ :=
      sublistCounted_spec h.holds hl hnew hprio hpre hclear
    rw [if_neg htail, h.lateHead, h.lateTail, ← hst, heq]
    refine ⟨{ d with
        base := (base.addBytes new).incCount
        lateHead := (a ++ new :: b).head?
        lateTail := (a ++ new :: b).getLast? },
      ⟨x.beyondLate, a ++ new :: b, x.pending⟩, rfl, ⟨hholds', h.beyondLateHead, h.beyondLateTail, rfl,
      rfl, h.pendingHead, h.pendingTail⟩, ?_, seen_of_block hseen rfl rfl, ⟨fun c hc => ?_,
      hsound.beyondLate⟩⟩
    · unfold Sublists.all
      rw [hab]
      exact perm_insert _ a b _ new
    · have hc' : c = new ∨ c ∈ x.late := by
        rw [hab]
        rcases List.mem_append.mp hc with hc | hc
        · exact .inr (mem_append_left _ hc)
        · exact (List.mem_cons.mp hc).imp_right (mem_append_right _)
      rcases hc' with rfl | hc'
      · rw [hst]
        decide
      · exact hsound.late c hc'

theorem enqueueBeyondLate_spec (h : d.Parts x) (hsound : x.Sound (d.statusAt t))
    (hnew : new ∉ x.all) (hnone : d.base.next new = none) (hst : d.statusAt t new = .beyondLate) :
    Enqueued t d x new (d.enqueueBeyondLate new) := by
  have hsound' : Sublists.Sound (d.statusAt t) ⟨x.beyondLate ++ [new], x.late, x.pending⟩ := by
    refine ⟨hsound.late, fun a ha => ?_⟩
    rw [List.getLast?_concat] at ha
    cases ha
    exact hst
  have hall : (⟨x.beyondLate ++ [new], x.late, x.pending⟩ : Sublists).all =
      x.beyondLate ++ new :: (x.late ++ x.pending) := by
    unfold Sublists.all
    rw [append_assoc]
    rfl
  have hperm : (x.beyondLate ++ new :: (x.late ++ x.pending)).Perm (new :: x.all) := perm_middle
  unfold enqueueBeyondLate
  cases hb : x.beyondLate.getLast? with
  | none =>
    have hbl : d.beyondLateTail = none := h.beyondLateTail.trans hb
    have hnil : x.beyondLate = [] := getLast?_eq_none_iff.mp hb
    obtain ⟨q', hq', hholds, hblock⟩ := enqueueHeadI_holds h.holds (c := [new]) ⟨rfl, hnone⟩
      fun z hz => mem_singleton.mp hz ▸ hnew
    rw [hbl]
    simp only [hq']
    refine ⟨{ d with base := q', beyondLateHead := some new, beyondLateTail := some new },
      ⟨x.beyondLate ++ [new], x.late, x.pending⟩, rfl, ⟨?_, ?_, ?_, h.lateHead, h.lateTail, h.pendingHead,
      h.pendingTail⟩, by rwa [hall], seen_of_block (refl t d).toSeen rfl hblock, hsound'⟩
    · rw [hall]
      unfold Sublists.all at hholds
      rwa [hnil] at hholds ⊢
    · rw [hnil]
      rfl
    · rw [hnil]
      rfl
  | some c =>
    have hbl : d.beyondLateTail = some c := h.beyondLateTail.trans hb
    have hne : x.beyondLate ≠ [] := ne_nil_of_mem (mem_of_getLast? hb)
    rw [hbl]
    have hlists : (linkBeyondLate d.base c new).links.Lists
        (x.beyondLate ++ new :: (x.late ++ x.pending)) := linkBeyondLate_lists h.holds.lists hnew hb
    have hsame := sameBlocks_linkBeyondLate d.base c new
    refine ⟨{ d with
        base := ((linkBeyondLate d.base c new).addBytes new).incCount
        beyondLateTail := some new },
      ⟨x.beyondLate ++ [new], x.late, x.pending⟩, rfl, ⟨?_, ?_, ?_, h.lateHead, h.lateTail, h.pendingHead,
      h.pendingTail⟩, by rwa [hall], seen_of_block (refl t d).toSeen rfl hsame.block, hsound'⟩
    · rw [hall]
      exact addBytes_holds hlists (hsame.counts h.holds.counts) hperm
    · rw [List.head?_append_of_ne_nil _ hne]
      exact h.beyondLateHead
    · rw [List.getLast?_concat]

/-- The scan for the place of a new message keeps within its sublist. -/
def Room (σ : Addr → PriorityStatus) (priority : Addr → UInt64) (new : Addr) (x : Sublists) : Prop :=
  match σ new with
  | .pending => Sublists.Clear σ priority new x.pending
  | .late => Sublists.Clear σ priority new x.late
  | .beyondLate => True

/-- **Enqueue.** -/
theorem enqueueI_spec (h : d.Parts x) (hsound : x.Sound (d.statusAt t))
    (hsteady : x.Steady (d.statusAt t)) (hnew : new ∉ x.all) (hnone : d.base.next new = none)
    (hroom : Room (d.statusAt t) (d.priorityAt t) new (x.refresh (d.statusAt t))) :
    Enqueued t d x new (d.enqueueI (some new) t) := by
  obtain ⟨d₁, hd₁, h₁, hk₁⟩ := refreshQueue_spec h hsound hsteady
  have hk := hk₁.trans (kept_evaluated d₁ new t)
  have hstatus : (d₁.withBlocks (d₁.evaluated new t)).statusAt t = d.statusAt t := hk.statusAt t
  have hpriority : (d₁.withBlocks (d₁.evaluated new t)).priorityAt t = d.priorityAt t := hk.priorityAt
  have hprio : ((d₁.withBlocks (d₁.evaluated new t)).base.block new).priority =
      (d₁.withBlocks (d₁.evaluated new t)).priorityAt t new := by
    rw [(kept_evaluated d₁ new t).priorityAt]
    exact congrArg MessageBlock.priority (update_self ..)
  have hparts := h₁.kept (kept_evaluated d₁ new t)
  have hnew' : new ∉ (x.refresh (d.statusAt t)).all := by rwa [Sublists.all_refresh]
  have hnone' : (d₁.withBlocks (d₁.evaluated new t)).base.next new = none := by
    have hbase : d₁.base.next new = d.base.next new := by rw [hk₁.base]
    exact hbase.trans hnone
  have hsound' : (x.refresh (d.statusAt t)).Sound ((d₁.withBlocks (d₁.evaluated new t)).statusAt t) := by
    rw [hstatus]
    exact hsound.refresh
  have heq : d.enqueueI (some new) t = match d.statusAt t new with
      | .pending => (d₁.withBlocks (d₁.evaluated new t)).enqueuePending new t
      | .late => (d₁.withBlocks (d₁.evaluated new t)).enqueueLate new t
      | .beyondLate => (d₁.withBlocks (d₁.evaluated new t)).enqueueBeyondLate new := by
    unfold enqueueI
    simp only [hd₁]
    rw [← hk₁.statusAt t]
    rfl
  have hdone : Enqueued t (d₁.withBlocks (d₁.evaluated new t)) (x.refresh (d.statusAt t)) new
      (d.enqueueI (some new) t) := by
    unfold Room at hroom
    rw [heq]
    cases hst : d.statusAt t new with
    | pending =>
      rw [hst] at hroom
      refine enqueuePending_spec hparts hsound' hnew' hnone' hprio (by rw [hstatus]; exact hst) ?_
      rwa [hstatus, hpriority]
    | late =>
      rw [hst] at hroom
      refine enqueueLate_spec hparts hsound' hnew' hnone' hprio (by rw [hstatus]; exact hst) ?_
      rwa [hstatus, hpriority]
    | beyondLate =>
      exact enqueueBeyondLate_spec hparts hsound' hnew' hnone' (by rw [hstatus]; exact hst)
  obtain ⟨d', y, hr, hy, hperm, hseen, hs⟩ := hdone
  rw [Sublists.all_refresh] at hperm
  rw [hstatus] at hs
  exact ⟨d', y, hr, hy, hperm, hk.toSeen.trans hseen, hs⟩

/-! ## Dequeueing -/

/-- The queue once a message was taken out of the list. -/
def detached (q : MessageQueue) (a : Addr) : MessageQueue :=
  (((q.unlink a).setPrev a none).setNext a none).subBytes a

theorem detached_holds (h : q.Holds (l₁ ++ a :: l₂)) :
    (detached q a).Holds (l₁ ++ l₂) ∧ (detached q a).Out a ∧ (detached q a).block = q.block ∧
      (q.unlink a).next a = l₂.head? := by
  have ha := not_mem_of_lists h.lists
  have hpatch := patch_lists h.lists
  have hnext : (q.unlink a).next a = l₂.head? := by
    have hne : l₁.getLast? ≠ some a := fun e => ha (mem_append_left _ (mem_of_getLast? e))
    have hlinks := congrArg (fun r => r.next (some a)) (links_setNextOr q l₁.getLast? l₂.head?)
    simp only [update_of_ne hne.symm] at hlinks
    have hlinks' := congrArg (fun r => r.next (some a))
      (links_setPrevOr (q.setNextOr l₁.getLast? l₂.head?) l₂.head? l₁.getLast?)
    rw [unlink_eq h.lists]
    exact (hlinks'.trans hlinks).trans h.lists.at.1
  have hcounts : (q.unlink a).Counts (a :: (l₁ ++ l₂)) := by
    exact counts_setPrevOr (counts_setNextOr (h.counts.perm perm_middle) _ _) _ _
  have hblock : (q.unlink a).block = q.block := by
    exact (sameBlocks_setPrevOr _ _ _).block.trans (sameBlocks_setNextOr _ _ _).block
  rw [← unlink_eq h.lists] at hpatch
  have hsub : ((q.unlink a).subBytes a).Holds (l₁ ++ l₂) := ⟨hpatch, hcounts.sub⟩
  exact ⟨(hsub.setPrev ha none).setNext ha none,
    ⟨update_self .., update_self ..⟩, hblock, hnext⟩

/-- The new message was dequeued: the sublists are those of before without it. -/
def Dequeued (t : TimeValue) (d : DynamicQueue) (x : Sublists)
    (r : Option (Int × Option Addr × DynamicQueue)) : Prop :=
  ∃ a d' x', r = some (truncateCast d'.base.curCount, some a, d') ∧ d'.Parts x' ∧ d'.base.Out a ∧
    x.all.Perm (a :: x'.all) ∧ Seen t d d' ∧ x'.Sound (d.statusAt t)

theorem dequeueHeadI_pending (h : d.Parts x) (hsound : x.Sound (d.statusAt t))
    (hp : x.pending = a :: m) : Dequeued t d x d.dequeueHeadI := by
  have hhead : d.pendingHead = some a := by rw [h.pendingHead, hp]; rfl
  have hholds : d.base.Holds ((x.beyondLate ++ x.late) ++ a :: m) := by
    have hholds := h.holds
    unfold Sublists.all at hholds
    rwa [hp, ← append_assoc] at hholds
  obtain ⟨hd, hout, hblock, hnext⟩ := detached_holds hholds
  rw [append_assoc] at hd
  have hperm : x.all.Perm (a :: (⟨x.beyondLate, x.late, m⟩ : Sublists).all) := by
    unfold Sublists.all
    rw [hp, ← append_assoc, ← append_assoc]
    exact perm_middle
  unfold dequeueHeadI
  rw [hhead]
  simp only
  rw [hnext]
  cases m with
  | nil =>
    exact ⟨a, { d with base := detached d.base a, pendingHead := none, pendingTail := none },
      ⟨x.beyondLate, x.late, []⟩, rfl, ⟨hd, h.beyondLateHead, h.beyondLateTail, h.lateHead, h.lateTail,
      rfl, rfl⟩, hout, hperm, seen_of_block (refl t d).toSeen rfl hblock,
      ⟨hsound.late, hsound.beyondLate⟩⟩
  | cons b m =>
    refine ⟨a, { d with base := detached d.base a, pendingHead := some b },
      ⟨x.beyondLate, x.late, b :: m⟩, rfl, ⟨hd, h.beyondLateHead, h.beyondLateTail, h.lateHead,
      h.lateTail, rfl, ?_⟩, hout, hperm, seen_of_block (refl t d).toSeen rfl hblock,
      ⟨hsound.late, hsound.beyondLate⟩⟩
    rw [h.pendingTail, hp]
    rfl

/-- The head and the tail of a sublist are one only where it has one message. -/
theorem head_ne_getLast? {b : Addr} (ha : a ∉ b :: m) : some a ≠ (a :: b :: m).getLast? :=
  fun e => ha (mem_of_getLast? (e.symm : (b :: m).getLast? = some a))

theorem dequeueHeadI_late (h : d.Parts x) (hsound : x.Sound (d.statusAt t)) (hp : x.pending = [])
    (hl : x.late = a :: m) : Dequeued t d x d.dequeueHeadI := by
  have hnone : d.pendingHead = none := by rw [h.pendingHead, hp]; rfl
  have hptail : d.pendingTail = none := by rw [h.pendingTail, hp]; rfl
  have hhead : d.lateHead = some a := by rw [h.lateHead, hl]; rfl
  have htail : d.lateTail = (a :: m).getLast? := by rw [h.lateTail, hl]
  have hholds : d.base.Holds (x.beyondLate ++ a :: m) := by
    have hholds := h.holds
    unfold Sublists.all at hholds
    rwa [hp, hl, append_nil] at hholds
  obtain ⟨hd, hout, hblock, hnext⟩ := detached_holds hholds
  have ha : a ∉ m := fun hm => not_mem_of_lists hholds.lists (mem_append_right _ hm)
  have hall : x.beyondLate ++ m = (⟨x.beyondLate, m, []⟩ : Sublists).all := by
    unfold Sublists.all
    rw [append_nil]
  have hperm : x.all.Perm (a :: (⟨x.beyondLate, m, []⟩ : Sublists).all) := by
    rw [← hall]
    unfold Sublists.all
    rw [hp, hl, append_nil]
    exact perm_middle
  have hsound' : Sublists.Sound (d.statusAt t) ⟨x.beyondLate, m, []⟩ :=
    ⟨fun b hb => hsound.late b (by rw [hl]; exact List.mem_cons_of_mem _ hb), hsound.beyondLate⟩
  rw [hall] at hd
  unfold dequeueHeadI
  rw [hnone]
  rw [hhead]
  simp only
  rw [hnext, htail]
  cases m with
  | nil =>
    simp only [List.getLast?_singleton, if_true, List.head?_nil]
    exact ⟨a, { d with
        base := detached d.base a
        lateHead := none
        lateTail := none
        pendingHead := none },
      ⟨x.beyondLate, [], []⟩, rfl, ⟨hd, h.beyondLateHead, h.beyondLateTail, rfl, rfl, rfl, hptail⟩,
      hout, hperm, seen_of_block (refl t d).toSeen rfl hblock, hsound'⟩
  | cons b m =>
    simp only [if_neg (head_ne_getLast? ha), head?_cons]
    exact ⟨a, { d with
        base := detached d.base a
        lateHead := some b
        lateTail := (b :: m).getLast?
        pendingHead := none },
      ⟨x.beyondLate, b :: m, []⟩, rfl, ⟨hd, h.beyondLateHead, h.beyondLateTail, rfl, rfl, rfl, hptail⟩,
      hout, hperm, seen_of_block (refl t d).toSeen rfl hblock, hsound'⟩

theorem dequeueHeadI_beyondLate (h : d.Parts x) (hsound : x.Sound (d.statusAt t))
    (hp : x.pending = []) (hl : x.late = []) (hb : x.beyondLate = a :: m) :
    Dequeued t d x d.dequeueHeadI := by
  have hnone : d.pendingHead = none := by rw [h.pendingHead, hp]; rfl
  have hptail : d.pendingTail = none := by rw [h.pendingTail, hp]; rfl
  have hlnone : d.lateHead = none := by rw [h.lateHead, hl]; rfl
  have hltail : d.lateTail = none := by rw [h.lateTail, hl]; rfl
  have hhead : d.beyondLateHead = some a := by rw [h.beyondLateHead, hb]; rfl
  have htail : d.beyondLateTail = (a :: m).getLast? := by rw [h.beyondLateTail, hb]
  have hall : ∀ l, (⟨l, [], []⟩ : Sublists).all = l := append_nil
  have hx : x.all = a :: m := by
    unfold Sublists.all
    rw [hp, hl, hb, append_nil, append_nil]
  have hholds : d.base.Holds ([] ++ a :: m) := hx ▸ h.holds
  obtain ⟨hd, hout, hblock, hnext⟩ := detached_holds hholds
  have ha : a ∉ m := not_mem_of_lists hholds.lists
  have hunlink : { d.base with head := d.base.next a }.unlinkPrev a = d.base.unlink a := by
    have hprev : d.base.prev a = none := hholds.lists.at.2
    unfold unlink unlinkNext
    rw [hprev]
  have hperm : x.all.Perm (a :: (⟨m, [], []⟩ : Sublists).all) := by
    rw [hx, hall]
  have hsound' : Sublists.Sound (d.statusAt t) ⟨m, [], []⟩ := by
    refine ⟨fun b hb => absurd hb not_mem_nil, fun b hm => hsound.beyondLate b ?_⟩
    rw [hb, ← List.singleton_append, getLast?_append_of_ne_nil _ (ne_nil_of_mem
      (mem_of_getLast? hm))]
    exact hm
  rw [nil_append, ← hall m] at hd
  unfold dequeueHeadI
  rw [hnone]
  rw [hlnone]
  rw [hhead]
  simp only
  rw [hunlink, hnext, htail]
  cases m with
  | nil =>
    simp only [List.getLast?_singleton, if_true, List.head?_nil]
    exact ⟨a, { d with
        base := detached d.base a
        beyondLateHead := none
        beyondLateTail := none
        lateHead := none
        pendingHead := none }, ⟨[], [], []⟩, rfl, ⟨hd, rfl, rfl, rfl, hltail, rfl, hptail⟩,
      hout, hperm, seen_of_block (refl t d).toSeen rfl hblock, hsound'⟩
  | cons b m =>
    simp only [if_neg (head_ne_getLast? ha), head?_cons]
    exact ⟨a, { d with
        base := detached d.base a
        beyondLateHead := some b
        beyondLateTail := (b :: m).getLast?
        lateHead := none
        pendingHead := none }, ⟨b :: m, [], []⟩, rfl, ⟨hd, rfl, rfl, rfl, hltail, rfl, hptail⟩,
      hout, hperm, seen_of_block (refl t d).toSeen rfl hblock, hsound'⟩

/-- **Dequeue**: from sublists that are not all empty, a message. -/
theorem dequeueHeadI_spec (h : d.Parts x) (hsound : x.Sound (d.statusAt t)) (hne : x.all ≠ []) :
    Dequeued t d x d.dequeueHeadI := by
  cases hp : x.pending with
  | cons a m => exact dequeueHeadI_pending h hsound hp
  | nil =>
    cases hl : x.late with
    | cons a m => exact dequeueHeadI_late h hsound hp hl
    | nil =>
      cases hb : x.beyondLate with
      | cons a m => exact dequeueHeadI_beyondLate h hsound hp hl hb
      | nil => exact absurd (by unfold Sublists.all; rw [hp, hl, hb]; rfl) hne

/-- The sublists that the six pointers delimit. -/
def sublists (d : DynamicQueue) : Sublists :=
  ⟨segment d.base.next addresses d.beyondLateHead d.beyondLateTail,
    segment d.base.next addresses d.lateHead d.lateTail,
    segment d.base.next addresses d.pendingHead d.pendingTail⟩

theorem Parts.sublists_eq (h : d.Parts x) : d.sublists = x := by
  have hlists := h.holds.lists
  have hle := length_le_addresses hlists.nodup
  unfold Sublists.all at hlists hle
  rw [length_append, length_append] at hle
  have hbeyond : d.base.links.Lists ([] ++ (x.beyondLate ++ (x.late ++ x.pending))) := hlists
  have hbl := hbeyond.segment_eq addresses (by omega)
  have hlate := hlists.segment_eq addresses (by omega)
  have hpend : d.base.links.Lists ((x.beyondLate ++ x.late) ++ (x.pending ++ [])) := by
    rwa [append_assoc, append_nil]
  have hpending := hpend.segment_eq addresses (by omega)
  unfold sublists
  rw [h.beyondLateHead, h.beyondLateTail, h.lateHead, h.lateTail, h.pendingHead, h.pendingTail]
  exact congr (congrArg₂ Sublists.mk hbl hlate) hpending

end DynamicQueue

/-! ## Runs -/

/-- The queue, the time, and the messages that entered and left it so far. -/
structure DynamicSys where
  queue : DynamicQueue
  now : TimeValue
  entered : List Addr
  left : List Addr

/-- The operations, each at a time, and `compose`: the user writes a message. -/
inductive DynamicOp where
  | compose (a : Addr) (next prev : Option Addr) (block : MessageBlock)
  | enqueue (newItem : Addr) (currentTime : TimeValue)
  | dequeueHead (currentTime : TimeValue)

namespace DynamicSys

open DynamicQueue

def init (memory : MessageQueue) (strategy : DynamicStrategy) (now : TimeValue) : DynamicSys :=
  ⟨.init memory strategy, now, [], []⟩

/-- A message that was refused did not enter. -/
def enter (s : DynamicSys) (newItem : Addr) (t : TimeValue) (r : Int × DynamicQueue) : DynamicSys :=
  ⟨r.2, t, if r.1 < 0 then s.entered else s.entered ++ [newItem], s.left⟩

def leave (s : DynamicSys) (t : TimeValue) (r : Int × Option Addr × DynamicQueue) : DynamicSys :=
  ⟨r.2.2, t, s.entered, s.left ++ r.2.1.toList⟩

def step (s : DynamicSys) : DynamicOp → Option DynamicSys
  | .compose a next prev block =>
    some { s with queue := { s.queue with base := QueueSys.compose s.queue.base a next prev block } }
  | .enqueue newItem t => (s.queue.enqueueI (some newItem) t).map (s.enter newItem t)
  | .dequeueHead t => (s.queue.dequeueHead t).map (s.leave t)

/-- What the user does: only messages outside the queue are written, and enqueued one
at a time; the clock does not go back. -/
def Allowed (s : DynamicSys) : DynamicOp → Prop
  | .compose a _ _ _ => a ∉ s.queue.base.contents
  | .enqueue newItem t => newItem ∉ s.queue.base.contents ∧ s.queue.base.next newItem = none ∧
      s.now.total ≤ t.total
  | .dequeueHead t => s.now.total ≤ t.total

/-- No message of another status is met within a sublist. -/
def Keeps (s : DynamicSys) : DynamicOp → Prop
  | .compose _ _ _ _ => True
  | .enqueue newItem t => s.queue.sublists.Steady (s.queue.statusAt t) ∧
      Room (s.queue.statusAt t) (s.queue.priorityAt t) newItem
        (s.queue.sublists.refresh (s.queue.statusAt t))
  | .dequeueHead t => s.queue.sublists.Steady (s.queue.statusAt t)

instance decidableForallMem (o : Option Addr) (p : Addr → Prop) [DecidablePred p] :
    Decidable (∀ a ∈ o, p a) :=
  match o with
  | none => .isTrue fun _ ha => nomatch ha
  | some b => decidable_of_iff (p b) ⟨fun h _ ha => Option.some.inj ha ▸ h, fun h => h b rfl⟩

instance decidableSteady (σ : Addr → PriorityStatus) (x : Sublists) : Decidable (x.Steady σ) :=
  decidableForallMem _ _

instance decidableRoom (σ : Addr → PriorityStatus) (priority : Addr → UInt64) (new : Addr) (x : Sublists) :
    Decidable (Room σ priority new x) := by
  unfold Room
  split
  · exact decidableForallMem _ _
  · exact decidableForallMem _ _
  · exact .isTrue trivial

instance decidableAllowed : ∀ s op, Decidable (Allowed s op)
  | s, .compose a _ _ _ => inferInstanceAs (Decidable (a ∉ s.queue.base.contents))
  | s, .enqueue newItem t => inferInstanceAs (Decidable (newItem ∉ s.queue.base.contents ∧
      s.queue.base.next newItem = none ∧ s.now.total ≤ t.total))
  | s, .dequeueHead t => inferInstanceAs (Decidable (s.now.total ≤ t.total))

instance decidableKeeps : ∀ s op, Decidable (Keeps s op)
  | _, .compose _ _ _ _ => .isTrue trivial
  | s, .enqueue newItem t => inferInstanceAs (Decidable (s.queue.sublists.Steady (s.queue.statusAt t) ∧
      Room (s.queue.statusAt t) (s.queue.priorityAt t) newItem
        (s.queue.sublists.refresh (s.queue.statusAt t))))
  | s, .dequeueHead t => inferInstanceAs (Decidable (s.queue.sublists.Steady (s.queue.statusAt t)))

/-- The queue holds the messages that entered and did not leave, in its sublists. -/
structure Good (s : DynamicSys) (x : Sublists) : Prop where
  parts : s.queue.Parts x
  sound : x.Sound (s.queue.statusAt s.now)
  normal : s.queue.strategy.maxLate.Normal
  conserved : s.entered.Perm (x.all ++ s.left)

variable {s : DynamicSys} {x : Sublists}

theorem init_good (memory : MessageQueue) {strategy : DynamicStrategy} (now : TimeValue)
    (h : strategy.maxLate.Normal) : (init memory strategy now).Good ⟨[], [], []⟩ :=
  ⟨⟨⟨Links.Ring.empty ⟨rfl, rfl⟩, ⟨rfl, rfl, rfl⟩⟩, rfl, rfl, rfl, rfl, rfl, rfl⟩,
    ⟨fun _ ha => absurd ha not_mem_nil, fun _ ha => nomatch ha⟩, h, List.Perm.refl _⟩

/-- With time, what is late stays so, and what is beyond late. -/
theorem Good.later (h : s.Good x) {t : TimeValue} (ht : s.now.total ≤ t.total) :
    x.Sound (s.queue.statusAt t) := by
  have hmono : ∀ a, (s.queue.statusAt s.now a).rank ≤ (s.queue.statusAt t a).rank := fun a =>
    status_mono h.normal ht
  refine ⟨fun a ha hst => ?_, fun a ha => ?_⟩
  · have hle := hmono a
    rw [hst] at hle
    have hlate := h.sound.late a ha
    cases hs : s.queue.statusAt s.now a with
    | pending => exact hlate hs
    | late => rw [hs] at hle; simp [rank] at hle
    | beyondLate => rw [hs] at hle; simp [rank] at hle
  · have hle := hmono a
    rw [h.sound.beyondLate a ha] at hle
    cases hs : s.queue.statusAt t a with
    | beyondLate => rfl
    | late => rw [hs] at hle; simp [rank] at hle
    | pending => rw [hs] at hle; simp [rank] at hle

theorem Sound.congr {σ σ' : Addr → PriorityStatus} (h : x.Sound σ) (he : ∀ a ∈ x.all, σ' a = σ a) :
    x.Sound σ' := by
  refine ⟨fun a ha => ?_, fun a ha => ?_⟩
  · rw [he a (mem_append_right _ (mem_append_left _ ha))]
    exact h.late a ha
  · rw [he a (mem_append_left _ (mem_of_getLast? ha))]
    exact h.beyondLate a ha

theorem Good.enter (h : s.Good x) {new : Addr} {t : TimeValue} {r : Option (Int × DynamicQueue)}
    (hr : Enqueued t s.queue x new r) : ∃ u, r.map (s.enter new t) = some u ∧ ∃ y, u.Good y := by
  obtain ⟨d', y, rfl, hy, hperm, hseen, hsound⟩ := hr
  have hpos : ¬ truncateCast d'.base.curCount < 0 := by
    unfold truncateCast
    split <;> omega
  refine ⟨_, rfl, y, hy, ?_, ?_, ?_⟩
  · change y.Sound (d'.statusAt t)
    rwa [hseen.statusAt]
  · change d'.strategy.maxLate.Normal
    rw [hseen.strategy]
    exact h.normal
  · change (if truncateCast d'.base.curCount < 0 then s.entered else s.entered ++ [new]).Perm _
    rw [if_neg hpos]
    exact ((h.conserved.append_right [new]).trans (List.perm_append_singleton new _)).trans
      (hperm.symm.append_right s.left)

/-- A message left. -/
theorem Good.leave (h : s.Good x) {t : TimeValue} {d : DynamicQueue} {y : Sublists} (hseen : Seen t s.queue d)
    (hall : y.all = x.all) {r : Option (Int × Option Addr × DynamicQueue)} (hr : Dequeued t d y r) :
    ∃ u, r.map (s.leave t) = some u ∧ ∃ z, u.Good z := by
  obtain ⟨a, d', z, rfl, hz, _, hperm, hseen', hsound⟩ := hr
  refine ⟨_, rfl, z, hz, ?_, ?_, ?_⟩
  · change z.Sound (d'.statusAt t)
    rwa [hseen'.statusAt]
  · change d'.strategy.maxLate.Normal
    rw [(hseen.trans hseen').strategy]
    exact h.normal
  · change s.entered.Perm (z.all ++ (s.left ++ [a]))
    rw [hall] at hperm
    refine h.conserved.trans ((hperm.append_right s.left).trans ?_)
    rw [← append_assoc]
    exact (List.perm_append_singleton a (z.all ++ s.left)).symm

theorem step_dequeueHead (h : s.Good x) {t : TimeValue} (ht : s.now.total ≤ t.total)
    (hsteady : x.Steady (s.queue.statusAt t)) :
    ∃ u, (s.queue.dequeueHead t).map (s.leave t) = some u ∧ ∃ y, u.Good y := by
  have hsound := h.later ht
  obtain ⟨d, hd, hparts, hk⟩ := refreshQueue_spec h.parts hsound hsteady
  have hall : (x.refresh (s.queue.statusAt t)).all = x.all := x.all_refresh
  have hsound' : (x.refresh (s.queue.statusAt t)).Sound (d.statusAt t) := by
    rw [hk.statusAt]
    exact hsound.refresh
  have htail : d.base.tail = (x.refresh (s.queue.statusAt t)).all.getLast? := hparts.holds.lists.tail
  have heq : s.queue.dequeueHead t =
      if d.base.tail = none then some (-1, none, d) else d.dequeueHeadI := by
    unfold dequeueHead
    rw [hd]
    rfl
  rw [heq]
  by_cases hne : x.all = []
  · rw [if_pos (by rw [htail, hall, hne]; rfl)]
    refine ⟨_, rfl, _, hparts, ?_, ?_, ?_⟩
    · exact hsound'
    · change d.strategy.maxLate.Normal
      rw [hk.strategy]
      exact h.normal
    · change s.entered.Perm (_ ++ (s.left ++ []))
      rw [append_nil, hall]
      exact h.conserved
  · have hne' : (x.refresh (s.queue.statusAt t)).all ≠ [] := by rwa [hall]
    rw [if_neg (by rw [htail]; exact fun e => hne' (getLast?_eq_none_iff.mp e))]
    exact h.leave hk.toSeen hall (dequeueHeadI_spec hparts hsound' hne')

/-- **Every step that keeps the sublists is possible and good.** -/
theorem step_good (h : s.Good x) {op : DynamicOp} (hop : Allowed s op) (hkeeps : Keeps s op) :
    ∃ t, step s op = some t ∧ ∃ x', t.Good x' := by
  cases op with
  | compose a next prev block =>
    unfold Allowed at hop
    rw [h.parts.holds.contents_eq] at hop
    have hholds := QueueSys.compose_holds h.parts.holds hop next prev block
    refine ⟨_, rfl, x, ⟨hholds, h.parts.beyondLateHead, h.parts.beyondLateTail, h.parts.lateHead,
      h.parts.lateTail, h.parts.pendingHead, h.parts.pendingTail⟩, Sound.congr h.sound fun b hb => ?_,
      h.normal, h.conserved⟩
    have hne : b ≠ a := fun e => hop (e ▸ hb)
    exact congrArg (fun mb => s.queue.strategy.status mb s.now) (update_of_ne hne ..)
  | enqueue newItem t =>
    obtain ⟨hnew, hnone, ht⟩ := hop
    obtain ⟨hsteady, hroom⟩ := hkeeps
    rw [h.parts.holds.contents_eq] at hnew
    rw [h.parts.sublists_eq] at hsteady hroom
    exact h.enter (enqueueI_spec h.parts (h.later ht) hsteady hnew hnone hroom)
  | dequeueHead t =>
    unfold Keeps at hkeeps
    rw [h.parts.sublists_eq] at hkeeps
    exact step_dequeueHead h hop hkeeps

/-- **Dynamic message queues**: in a run that keeps the sublists they partition the
list, the messages in it are those that entered and did not leave, and a message
is dequeued where there is one. -/
theorem partition_of_keeps {memory : MessageQueue} {hook : Hook} {mask shift priorityMax offset : UInt64}
    {now : TimeValue} {ops : List DynamicOp}
    (hops : AllSteps step (fun s op => Allowed s op ∧ Keeps s op)
      (init memory (.init hook mask shift priorityMax offset) now) ops) :
    ∃ s x, run step (init memory (.init hook mask shift priorityMax offset) now) ops = some s ∧
      s.queue.Parts x ∧ s.queue.base.curCount.toNat = x.all.length ∧
      s.entered.Perm (x.all ++ s.left) ∧
      (s.queue.base.curCount ≠ 0 → ∃ n a d, s.queue.dequeueHeadI = some (n, some a, d)) := by
  have hrun : ∃ s, run step (init memory (.init hook mask shift priorityMax offset) now) ops = some s ∧
      ∃ x, s.Good x :=
    run_total_of (fun s op hs hop => hs.elim fun x h => step_good h hop.1 hop.2)
      ⟨_, init_good memory now (TimeValue.normalize_normal _)⟩ hops
  obtain ⟨s, hs, x, h⟩ := hrun
  have hcount := h.parts.holds.count
  refine ⟨s, x, hs, h.parts, hcount, h.conserved, fun hne => ?_⟩
  have hnil : x.all ≠ [] := fun e => hne (UInt64.toNat_inj.mp (by rw [hcount, e]; rfl))
  obtain ⟨a, d', _, hd, _⟩ := dequeueHeadI_spec h.parts h.sound hnil
  exact ⟨_, a, d', hd⟩

/-- A message due some seconds after the epoch. -/
def dueAt (sec : Int) : MessageBlock := ⟨4, 1, [], 0, .zero, .set sec 0⟩

def memory : MessageQueue := ⟨fun _ => none, fun _ => none, fun _ => dueAt 0, none, none, 0, 0, 0⟩

theorem zero_lt_addresses : 0 < addresses := by decide

theorem one_lt_addresses : 1 < addresses := by decide

theorem two_lt_addresses : 2 < addresses := by decide

/-- A message due later stands before one that is due first, both pending at first;
when the latter is beyond late a message is enqueued, and dequeued. -/
def lossOps : List DynamicOp :=
  [.compose ⟨0, zero_lt_addresses⟩ none none (dueAt 100), .enqueue ⟨0, zero_lt_addresses⟩ .zero,
    .compose ⟨1, one_lt_addresses⟩ none none (dueAt 50), .enqueue ⟨1, one_lt_addresses⟩ .zero,
    .compose ⟨2, two_lt_addresses⟩ none none (dueAt 100), .enqueue ⟨2, two_lt_addresses⟩ (.set 60 0),
    .dequeueHead (.set 60 0)]

theorem enqueue_loses_messages :
    AllSteps step Allowed (init memory (.default .deadline) .zero) lossOps ∧
      ∃ s, run step (init memory (.default .deadline) .zero) lossOps = some s ∧
        s.queue.base.curCount = 2 ∧ s.queue.dequeueHeadI = some (-1, none, s.queue) := by
  exact ⟨by decide, _, rfl, rfl, rfl⟩

/-- Two pending messages that become late, and one that is late when it comes. -/
def keepingOps : List DynamicOp :=
  [.compose ⟨0, zero_lt_addresses⟩ none none (dueAt 10), .enqueue ⟨0, zero_lt_addresses⟩ .zero,
    .compose ⟨1, one_lt_addresses⟩ none none (dueAt 12), .enqueue ⟨1, one_lt_addresses⟩ (.set 5 0),
    .compose ⟨2, two_lt_addresses⟩ none none (dueAt 11), .enqueue ⟨2, two_lt_addresses⟩ (.set 11 0),
    .dequeueHead (.set 12 0)]

theorem partition_of_keeps_late :
    ∃ s x, run step (init memory (.default .deadline) .zero) keepingOps = some s ∧ s.left = [⟨0, by decide⟩] ∧
      s.queue.Parts x ∧ s.queue.base.curCount.toNat = x.all.length ∧
      s.entered.Perm (x.all ++ s.left) ∧
      (s.queue.base.curCount ≠ 0 → ∃ n a d, s.queue.dequeueHeadI = some (n, some a, d)) := by
  have hrun : ∃ s, run step (init memory (.default .deadline) .zero) keepingOps = some s ∧
      s.left = [⟨0, by decide⟩] := ⟨_, rfl, rfl⟩
  have hops : AllSteps step (fun s op => Allowed s op ∧ Keeps s op)
      (init memory (.default .deadline) .zero) keepingOps := by decide
  obtain ⟨t, ht, hleft⟩ := hrun
  obtain ⟨s, x, hs, hrest⟩ := partition_of_keeps hops
  change run step (init memory (.default .deadline) .zero) keepingOps = some s at hs
  rw [ht] at hs
  cases hs
  exact ⟨t, x, ht, hleft, hrest⟩

end DynamicSys

end Atcd.Message
