import Atcd.Message.Queue
import Atcd.Core.Run
/-!
# Runs of a message queue

The queue is a ring of its blocks through the null pointer, whose `next` is
`head_` and whose `prev` is `tail_`.

Results:
* `queue_invariant`: after every run the links, the count and the sums are those
  of a list of blocks, and the blocks that entered are those in the list and
  those that left.
* `step_refines`, `run_refines`: every operation does to that list what it does to a list.
* `first_in_first_out`: filled at the tail and emptied at the head, it keeps the order.
-/
namespace Atcd.Message

open Atcd.Core Function UInt64 MessageBlock
open List (append_assoc append_nil getLast?_concat map_cons mem_append mem_of_getLast? mem_singleton
  perm_append_comm perm_middle sum sum_cons)

/-! ## Sizes -/

def MessageBlock.totalSize (b : MessageBlock) : UInt64 := (b.totalSizeAndLength 0 0).1

def MessageBlock.totalLength (b : MessageBlock) : UInt64 := (b.totalSizeAndLength 0 0).2

theorem foldl_add_pairs (l : List (UInt64 × UInt64)) (s n : UInt64) :
    l.foldl (fun s i => (s.1 + i.1, s.2 + i.2)) (s, n) =
      (s + (l.map (·.1)).sum, n + (l.map (·.2)).sum) := by
  induction l generalizing s n with
  | nil => simp
  | cons i l ih =>
    simp only [List.foldl_cons, ih, map_cons, sum_cons]
    rw [add_assoc, add_assoc]

/-- The counters given are added to. -/
theorem totalSizeAndLength_eq (b : MessageBlock) (s n : UInt64) :
    b.totalSizeAndLength s n = (s + b.totalSize, n + b.totalLength) := by
  unfold totalSize totalLength totalSizeAndLength
  simp only [foldl_add_pairs, zero_add]

namespace MessageQueue

variable {q q' : MessageQueue} {l l₁ l₂ c : List Addr} {a new : Addr}

theorem addBytes_eq (q : MessageQueue) (a : Addr) : q.addBytes a =
    { q with curBytes := q.curBytes + (q.block a).totalSize,
             curLength := q.curLength + (q.block a).totalLength } := by
  unfold addBytes
  rw [totalSizeAndLength_eq]

/-- The counters are those of the blocks of `l`. -/
structure Counts (q : MessageQueue) (l : List Addr) : Prop where
  count : q.curCount = UInt64.ofNat l.length
  bytes : q.curBytes = (l.map fun a => (q.block a).totalSize).sum
  length : q.curLength = (l.map fun a => (q.block a).totalLength).sum

theorem Counts.perm (h : q.Counts l) {l' : List Addr} (hp : l.Perm l') : q.Counts l' :=
  ⟨by rw [h.count, hp.length_eq], by rw [h.bytes, (hp.map _).sum_eq],
    by rw [h.length, (hp.map _).sum_eq]⟩

theorem Counts.add (h : q.Counts l) (a : Addr) : (q.incCount.addBytes a).Counts (a :: l) := by
  rw [addBytes_eq]
  refine ⟨?_, ?_, ?_⟩
  · change q.curCount + 1 = _
    rw [h.count, List.length_cons, ofNat_add]
    rfl
  · change q.curBytes + (q.block a).totalSize = _
    rw [map_cons, sum_cons, h.bytes, add_comm]
    rfl
  · change q.curLength + (q.block a).totalLength = _
    rw [map_cons, sum_cons, h.length, add_comm]
    rfl

theorem Counts.sub (h : q.Counts (a :: l)) : (q.subBytes a).Counts l := by
  refine ⟨?_, ?_, ?_⟩
  · change q.curCount - 1 = _
    rw [h.count, List.length_cons, ofNat_add]
    exact add_sub_cancel_right _ _
  · change q.curBytes - (q.block a).totalSize = _
    rw [h.bytes, map_cons, sum_cons]
    exact add_sub_cancel_left _ _
  · change q.curLength - (q.block a).totalLength = _
    rw [h.length, map_cons, sum_cons]
    exact add_sub_cancel_left _ _

/-- Only the blocks and the counters matter. -/
theorem Counts.congr (h : q.Counts l) (hb : q'.block = q.block) (hs : q'.curBytes = q.curBytes)
    (hn : q'.curLength = q.curLength) (hc : q'.curCount = q.curCount) : q'.Counts l :=
  ⟨hc.trans h.count, by rw [hs, hb]; exact h.bytes, by rw [hn, hb]; exact h.length⟩

/-! ## The links -/

/-- The pointers of the queue; those of null are `head_` and `tail_`. -/
def links (q : MessageQueue) : Links (Option Addr) where
  next := fun p => match p with | none => q.head | some a => q.next a
  prev := fun p => match p with | none => q.tail | some a => q.prev a

/-- `next` of a block, or `head_`. -/
def setNextOr (q : MessageQueue) (p v : Option Addr) : MessageQueue :=
  match p with
  | none => { q with head := v }
  | some a => q.setNext a v

/-- `prev` of a block, or `tail_`. -/
def setPrevOr (q : MessageQueue) (p v : Option Addr) : MessageQueue :=
  match p with
  | none => { q with tail := v }
  | some a => q.setPrev a v

@[simp] theorem links_setNextOr (q : MessageQueue) (p v : Option Addr) :
    (q.setNextOr p v).links = ⟨update q.links.next p v, q.links.prev⟩ := by
  unfold setNextOr links
  congr 1
  · funext x
    cases p <;> cases x <;> simp [setNext, update_apply]
  · cases p <;> rfl

@[simp] theorem links_setPrevOr (q : MessageQueue) (p v : Option Addr) :
    (q.setPrevOr p v).links = ⟨q.links.next, update q.links.prev p v⟩ := by
  unfold setPrevOr links
  congr 1
  · cases p <;> rfl
  · funext x
    cases p <;> cases x <;> simp [setPrev, update_apply]

theorem counts_setNextOr (h : q.Counts l) (p v : Option Addr) : (q.setNextOr p v).Counts l := by
  cases p <;> exact h.congr rfl rfl rfl rfl

theorem counts_setPrevOr (h : q.Counts l) (p v : Option Addr) : (q.setPrevOr p v).Counts l := by
  cases p <;> exact h.congr rfl rfl rfl rfl

/-- **The queue holds the blocks of `l`**: the links, `head_` and `tail_` are those
of a doubly linked list of them, and the counters are theirs. -/
structure Holds (q : MessageQueue) (l : List Addr) : Prop where
  lists : q.links.Lists l
  counts : q.Counts l

theorem length_le_addresses (h : l.Nodup) : l.length ≤ addresses := by
  have hle := List.Nodup.length_le_card h
  rwa [Fintype.card_fin] at hle

theorem Holds.count (h : q.Holds l) : q.curCount.toNat = l.length := by
  have hle := length_le_addresses h.lists.nodup
  unfold addresses at hle
  rw [h.counts.count, toNat_ofNat_of_lt']
  change l.length < 2 ^ 64
  omega

theorem Holds.walks (h : q.Holds l) : Walks q.next q.head l := h.lists.walks

/-- Writes to a block outside the queue. -/
theorem Holds.frame (h : q.Holds l) (hhead : q'.head = q.head) (htail : q'.tail = q.tail)
    (hnext : ∀ z ∈ l, q'.next z = q.next z) (hprev : ∀ z ∈ l, q'.prev z = q.prev z)
    (hcounts : q'.Counts l) : q'.Holds l := ⟨h.lists.frame hhead htail hnext hprev, hcounts⟩

theorem update_of_mem {f : Addr → Option Addr} {v : Option Addr} (ha : a ∉ l) :
    ∀ z ∈ l, update f a v z = f z := fun z hz =>
  update_of_ne (fun e : z = a => ha (e ▸ hz)) v f

theorem Holds.setNext (h : q.Holds l) (ha : a ∉ l) (v : Option Addr) : (q.setNext a v).Holds l :=
  h.frame rfl rfl (update_of_mem ha) (fun _ _ => rfl) (h.counts.congr rfl rfl rfl rfl)

theorem Holds.setPrev (h : q.Holds l) (ha : a ∉ l) (v : Option Addr) : (q.setPrev a v).Holds l :=
  h.frame rfl rfl (fun _ _ => rfl) (update_of_mem ha) (h.counts.congr rfl rfl rfl rfl)

/-! ## Enqueueing -/

theorem chainLoop_spec {fuel : Nat} (hw : Walks q.next (some a) (a :: c)) (hl : q.Counts l)
    (hfuel : c.length < fuel) : ∃ t prev' bytes length count, chainLoop fuel q a =
        some (t, { q with prev := prev', curBytes := bytes, curLength := length, curCount := count }) ∧
      (a :: c).getLast? = some t ∧ q.next t = none ∧ (∀ z, z ∉ c → prev' z = q.prev z) ∧
      (a :: c).IsChain (fun x y => q.next x = some y ∧ prev' y = some x) ∧
      { q with prev := prev', curBytes := bytes, curLength := length, curCount := count }.Counts
        (c.reverse ++ l) := by
  induction c generalizing q a fuel l with
  | nil =>
    obtain ⟨fuel, rfl⟩ := Nat.exists_eq_succ_of_ne_zero (Nat.ne_of_gt hfuel)
    have hnone : q.next a = none := hw.2
    refine ⟨a, q.prev, q.curBytes, q.curLength, q.curCount, ?_, rfl, hnone, fun _ _ => rfl,
      .singleton a, hl⟩
    unfold chainLoop
    rw [hnone]
  | cons d c ih =>
    obtain ⟨fuel, rfl⟩ := Nat.exists_eq_succ_of_ne_zero (Nat.ne_of_gt (Nat.zero_lt_of_lt hfuel))
    have hd : q.next a = some d := hw.2.1
    have hdc : d ∉ c := (List.nodup_cons.mp hw.2.nodup).1
    have hl' : ((q.setPrev d (some a)).incCount.addBytes d).Counts (d :: l) :=
      Counts.add (q := q.setPrev d (some a)) (hl.congr rfl rfl rfl rfl) d
    have hw' : Walks ((q.setPrev d (some a)).incCount.addBytes d).next (some d) (d :: c) :=
      ⟨rfl, hw.2.2⟩
    obtain ⟨t, prev', bytes, length, count, hloop, ht, hnone, hout, hchain, hcounts⟩ :=
      ih hw' hl' (by simpa using hfuel)
    refine ⟨t, prev', bytes, length, count, ?_, ?_, hnone, fun z hz => ?_, ?_, ?_⟩
    · unfold chainLoop
      rw [hd]
      exact hloop
    · rwa [List.getLast?_cons_cons]
    · rw [hout z fun hm => hz (List.mem_cons_of_mem _ hm)]
      refine update_of_ne ?_ _ _
      rintro rfl
      exact hz List.mem_cons_self
    · refine List.isChain_cons_cons.mpr ⟨⟨hd, ?_⟩, hchain⟩
      rw [hout d hdc]
      exact update_self ..
    · rw [List.reverse_cons, append_assoc]
      exact hcounts

/-- The chain of a new block is linked, counted and outside the queue. -/
theorem Holds.chain (h : q.Holds l) (hw : Walks q.next (some new) c) (hdisj : ∀ z ∈ c, z ∉ l) :
    ∃ t q', chainLoop addresses (q.incCount.addBytes new) new = some (t, q') ∧
      c.head? = some new ∧ c.getLast? = some t ∧ q'.next t = none ∧ q'.links.Lists l ∧
      c.IsChain (fun x y => q'.links.next (some x) = some y ∧ q'.links.prev (some y) = some x) ∧
      c.Nodup ∧ q'.Counts (c ++ l) ∧ q'.block = q.block := by
  have hnodup := hw.nodup
  cases c with
  | nil => cases hw
  | cons d c =>
    obtain rfl : new = d := Option.some.inj hw.1
    have hlen := length_le_addresses hnodup
    have hw' : Walks (q.incCount.addBytes new).next (some new) (new :: c) := hw
    obtain ⟨t, prev', bytes, length, count, hloop, ht, hnone, hout, hchain, hcounts⟩ :=
      chainLoop_spec hw' (h.counts.add new) hlen
    let q' : MessageQueue := { q.incCount.addBytes new with
      prev := prev', curBytes := bytes, curLength := length, curCount := count }
    have hlists : q'.links.Lists l := by
      refine h.lists.frame rfl rfl (fun _ _ => rfl) fun z hz => hout z fun hm => ?_
      exact hdisj z (List.mem_cons_of_mem _ hm) hz
    refine ⟨t, q', hloop, rfl, ht, hnone, hlists, hchain, hnodup, hcounts.perm ?_, rfl⟩
    exact perm_middle.trans (((List.reverse_perm c).append_right l).cons new)

theorem linkTail_eq (q : MessageQueue) (new t : Addr) : q.linkTail new t =
    ((q.setNextOr q.tail (some new)).setPrevOr (some new) q.tail).setPrevOr none (some t) := by
  unfold linkTail
  cases q.tail <;> rfl

theorem linkHead_eq (q : MessageQueue) (new t : Addr) : q.linkHead new t =
    (((q.setPrevOr (some new) none).setNextOr (some t) q.head).setPrevOr q.head (some t)).setNextOr
      none (some new) := by
  unfold linkHead
  cases hq : q.head <;> simp [setPrevOr, setNextOr, setNext, setPrev, hq]

theorem linkTail_lists {t : Addr} (h : q.links.Lists l)
    (hchain : c.IsChain fun x y => q.links.next (some x) = some y ∧ q.links.prev (some y) = some x)
    (hnodup : c.Nodup) (hdisj : ∀ z ∈ c, z ∉ l) (hx : c.head? = some new) (hy : c.getLast? = some t)
    (hnone : q.next t = none) : (q.linkTail new t).links.Lists (l ++ c) := by
  have hl : q.links.Lists (l ++ []) := by rwa [append_nil]
  have htail : q.tail = l.getLast? := h.tail
  have hne : some t ≠ l.getLast? := fun e =>
    hdisj t (mem_of_getLast? hy) (mem_of_getLast? e.symm)
  rw [linkTail_eq, htail]
  have hins : Links.Lists (((q.setNextOr l.getLast? (some new)).setPrevOr (some new)
      l.getLast?).setPrevOr none (some t)).links (l ++ (c ++ [])) := by
    refine hl.insert hchain hnodup (by simpa using hdisj) hx hy ?_ ?_ ?_ ?_
    · intro z hz _
      simp [update_of_ne hz]
    · intro z hz hzx
      have hz' : z ≠ none := hz
      simp [update_of_ne hz', update_of_ne hzx]
    · simp
    · refine ⟨?_, by simp⟩
      simp only [links_setPrevOr, links_setNextOr, update_of_ne hne]
      exact hnone
  rwa [append_nil] at hins

theorem linkHead_lists {t : Addr} (h : q.links.Lists l)
    (hchain : c.IsChain fun x y => q.links.next (some x) = some y ∧ q.links.prev (some y) = some x)
    (hnodup : c.Nodup) (hdisj : ∀ z ∈ c, z ∉ l) (hx : c.head? = some new) (hy : c.getLast? = some t) :
    (q.linkHead new t).links.Lists (c ++ l) := by
  have hhead : q.head = l.head? := h.head
  have hne : l.head? ≠ some new := fun e =>
    hdisj new (List.mem_of_head? hx) (List.mem_of_head? e)
  rw [linkHead_eq, hhead]
  have hl : q.links.Lists ([] ++ l) := h
  refine hl.insert hchain hnodup (by simpa using hdisj) hx hy ?_ ?_ ?_ ?_
  · intro z hz hzt
    have hz' : z ≠ none := hz
    simp [update_of_ne hz', update_of_ne hzt]
  · intro z hz hzx
    simp [update_of_ne hz, update_of_ne hzx]
  · simp [update_of_ne hne.symm]
  · simp

theorem linkTail_counts {t : Addr} (h : q.Counts l) : (q.linkTail new t).Counts l := by
  rw [linkTail_eq]
  exact counts_setPrevOr (counts_setPrevOr (counts_setNextOr h _ _) _ _) _ _

theorem linkHead_counts {t : Addr} (h : q.Counts l) : (q.linkHead new t).Counts l := by
  rw [linkHead_eq]
  exact counts_setNextOr (counts_setPrevOr (counts_setNextOr (counts_setPrevOr h _ _) _ _) _ _) _ _

theorem linkHead_block (q : MessageQueue) (new t : Addr) : (q.linkHead new t).block = q.block := by
  rw [linkHead_eq]
  cases q.head <;> rfl

/-- **Enqueue at the tail.** -/
theorem enqueueTailI_holds (h : q.Holds l) (hw : Walks q.next (some new) c)
    (hdisj : ∀ z ∈ c, z ∉ l) :
    ∃ q', q.enqueueTailI (some new) = some (truncateCast q'.curCount, q') ∧ q'.Holds (l ++ c) ∧
      q'.block = q.block := by
  obtain ⟨t, q₁, hloop, hx, hy, hnone, hlists, hchain, hnodup, hcounts, hblock⟩ := h.chain hw hdisj
  unfold enqueueTailI
  simp only [hloop]
  refine ⟨_, rfl, ⟨linkTail_lists hlists hchain hnodup hdisj hx hy hnone,
    linkTail_counts (hcounts.perm perm_append_comm)⟩, ?_⟩
  rw [← hblock]
  unfold linkTail
  split <;> rfl

/-- **Enqueue at the head.** -/
theorem enqueueHeadI_holds (h : q.Holds l) (hw : Walks q.next (some new) c)
    (hdisj : ∀ z ∈ c, z ∉ l) :
    ∃ q', q.enqueueHeadI (some new) = some (truncateCast q'.curCount, q') ∧ q'.Holds (c ++ l) ∧
      q'.block = q.block := by
  obtain ⟨t, q₁, hloop, hx, hy, _, hlists, hchain, hnodup, hcounts, hblock⟩ := h.chain hw hdisj
  unfold enqueueHeadI
  simp only [hloop]
  refine ⟨_, rfl, ⟨linkHead_lists hlists hchain hnodup hdisj hx hy, linkHead_counts hcounts⟩, ?_⟩
  rw [← hblock, linkHead_block]

theorem findPriority_spec {fuel : Nat} (h : q.links.Lists (l₁ ++ l₂)) (hfuel : l₁.length ≤ fuel)
    (priority : UInt64) :
    ∃ a b, l₁ = a ++ b ∧ q.findPriority priority fuel l₁.getLast? = some a.getLast? ∧
      (∀ x ∈ b, (q.block x).priority < priority) ∧
      ∀ x, a.getLast? = some x → priority ≤ (q.block x).priority := by
  induction l₁ using List.reverseRecOn generalizing l₂ fuel with
  | nil =>
    refine ⟨[], [], rfl, ?_, by simp, by simp⟩
    cases fuel <;> rfl
  | append_singleton l t ih =>
    rw [List.length_append, List.length_singleton] at hfuel
    obtain ⟨fuel, rfl⟩ := Nat.exists_eq_succ_of_ne_zero (Nat.ne_of_gt (Nat.lt_of_lt_of_le
      (Nat.succ_pos _) hfuel))
    have h' : q.links.Lists (l ++ t :: l₂) := by rwa [append_assoc] at h
    have hprev : q.prev t = l.getLast? := h'.at.2
    rw [getLast?_concat]
    unfold findPriority
    by_cases hp : (q.block t).priority ≥ priority
    · rw [if_pos hp]
      refine ⟨l ++ [t], [], (append_nil _).symm, by rw [getLast?_concat], by simp, ?_⟩
      rw [getLast?_concat]
      rintro x ⟨⟩
      exact hp
    · rw [if_neg hp, hprev]
      obtain ⟨a, b, hab, hscan, hb, ha⟩ := ih h' (show l.length ≤ fuel by omega)
      refine ⟨a, b ++ [t], by rw [hab, append_assoc], hscan, fun x hx => ?_, ha⟩
      rcases mem_append.mp hx with hx | hx
      · exact hb x hx
      · rw [mem_singleton.mp hx]
        exact UInt64.not_le.mp hp

theorem linkBetween_eq (q : MessageQueue) (temp nxt : Addr) : q.linkBetween temp new nxt =
    (((q.setPrevOr (some new) (some temp)).setNextOr (some new) (some nxt)).setPrevOr (some nxt)
      (some new)).setNextOr (some temp) (some new) := rfl

theorem linkBetween_lists {temp nxt : Addr} (h : q.links.Lists (l₁ ++ l₂))
    (hnew : new ∉ l₁ ++ l₂) (htemp : l₁.getLast? = some temp) (hnxt : l₂.head? = some nxt) :
    (q.linkBetween temp new nxt).links.Lists (l₁ ++ new :: l₂) := by
  have htn : some temp ≠ some new := fun e =>
    hnew (List.mem_append_left _ (mem_of_getLast? (htemp.trans e)))
  have hnn : some nxt ≠ some new := fun e =>
    hnew (List.mem_append_right _ (List.mem_of_head? (hnxt.trans e)))
  rw [linkBetween_eq]
  have hc : [new].IsChain fun x y => q.links.next (some x) = some y ∧ q.links.prev (some y) = some x :=
    .singleton new
  have hy : [new].getLast? = some new := rfl
  refine h.insert hc (List.nodup_singleton new) (by simpa using hnew) rfl hy ?_ ?_ ?_ ?_
  · intro z hz hzn
    rw [htemp] at hz
    simp [update_of_ne hz, update_of_ne hzn]
  · intro z hz hzn
    rw [hnxt] at hz
    simp [update_of_ne hz, update_of_ne hzn]
  · rw [htemp]
    simp [update_of_ne hnn.symm]
  · rw [hnxt]
    simp [update_of_ne htn.symm]

/-- **Enqueue by priority**: behind the last block of at least the priority. -/
theorem enqueueI_holds (h : q.Holds l) (hnew : new ∉ l) :
    ∃ q', q.enqueueI (some new) = some (truncateCast q'.curCount, q') ∧
      ∃ a b, l = a ++ b ∧ q'.Holds (a ++ new :: b) ∧
        (∀ x ∈ b, (q.block x).priority < (q.block new).priority) ∧
        ∀ x, a.getLast? = some x → (q.block new).priority ≤ (q.block x).priority := by
  have h₀ := h.setNext hnew none
  have hw : Walks (q.setNext new none).next (some new) [new] := ⟨rfl, update_self ..⟩
  have hdisj : ∀ z ∈ [new], z ∉ l := by simpa using hnew
  have hlists : (q.setNext new none).links.Lists (l ++ []) := by rw [append_nil]; exact h₀.lists
  have htail : (q.setNext new none).tail = l.getLast? := h₀.lists.tail
  have hhead : (q.setNext new none).head = l.head? := h₀.lists.head
  obtain ⟨a, b, rfl, hscan, hb, ha⟩ := findPriority_spec hlists
    (length_le_addresses h.lists.nodup) ((q.setNext new none).block new).priority
  unfold enqueueI
  simp only
  rw [htail, hscan, hhead]
  by_cases hnil : (a ++ b).head? = none
  · obtain ⟨rfl, rfl⟩ := List.append_eq_nil_iff.mp (List.head?_eq_none_iff.mp hnil)
    obtain ⟨q', hq', hholds, _⟩ := enqueueHeadI_holds h₀ hw hdisj
    exact ⟨q', hq', [], [], rfl, hholds, hb, ha⟩
  · rw [if_neg hnil]
    cases hla : a.getLast? with
    | none =>
      obtain rfl := List.getLast?_eq_none_iff.mp hla
      obtain ⟨q', hq', hholds, _⟩ := enqueueHeadI_holds h₀ hw hdisj
      exact ⟨q', hq', [], b, rfl, hholds, hb, ha⟩
    | some temp =>
      have hnext : (q.setNext new none).next temp = b.head? := by
        have hseam := h₀.lists.seam.1
        rwa [hla] at hseam
      simp only
      rw [hnext]
      cases hbh : b.head? with
      | none =>
        obtain rfl := List.head?_eq_none_iff.mp hbh
        obtain ⟨q', hq', hholds, _⟩ := enqueueTailI_holds h₀ hw hdisj
        rw [append_nil] at hholds
        exact ⟨q', hq', a, [], rfl, hholds, hb, ha⟩
      | some nxt =>
        have hl := linkBetween_lists h₀.lists hnew hla hbh
        have hc : ((q.setNext new none).linkBetween temp new nxt).Counts (a ++ b) :=
          h₀.counts.congr rfl rfl rfl rfl
        refine ⟨_, rfl, a, b, rfl, ⟨?_, ?_⟩, hb, ha⟩
        · exact hl.frame rfl rfl (fun _ _ => rfl) fun _ _ => rfl
        · exact ((hc.add new).congr rfl rfl rfl rfl).perm perm_middle.symm

/-! ## Dequeueing -/

def Out (q : MessageQueue) (a : Addr) : Prop := q.next a = none ∧ q.prev a = none

theorem finishDequeue_holds (h : q.links.Lists l) (hc : q.Counts (a :: l)) (ha : a ∉ l) :
    (q.finishDequeue a).Holds l ∧ (q.finishDequeue a).Out a := by
  have hsub : (q.subBytes a).Holds l := ⟨h, hc.sub⟩
  -- the pointers are null already when the count is 0
  have hif : (if (q.subBytes a).curCount = 0 ∧ (q.subBytes a).head = (q.subBytes a).tail then
      { q.subBytes a with head := none, tail := none } else q.subBytes a) = q.subBytes a := by
    split
    · next hz =>
      have hlen : l.length = 0 := by
        rw [← hsub.count, hz.1]
        rfl
      obtain rfl := List.length_eq_zero_iff.mp hlen
      have hhead : (q.subBytes a).head = none := hsub.lists.head
      have htail : (q.subBytes a).tail = none := hsub.lists.tail
      generalize q.subBytes a = p at hhead htail
      cases p
      simp only at hhead htail
      rw [hhead, htail]
    · rfl
  unfold finishDequeue
  simp only [hif]
  exact ⟨(hsub.setPrev ha none).setNext ha none, update_self .., update_self ..⟩

theorem patch_lists (h : q.links.Lists (l₁ ++ a :: l₂)) :
    ((q.setNextOr l₁.getLast? l₂.head?).setPrevOr l₂.head? l₁.getLast?).links.Lists (l₁ ++ l₂) := by
  refine h.remove ?_ ?_ ?_
  · intro z hz _
    simp [update_of_ne hz]
  · intro z hz _
    simp [update_of_ne hz]
  · simp

theorem not_mem_of_lists (h : q.links.Lists (l₁ ++ a :: l₂)) : a ∉ l₁ ++ l₂ :=
  (List.nodup_cons.mp (perm_middle.nodup_iff.mp h.nodup)).1

/-- **Dequeue at the head.** -/
theorem dequeueHeadI_holds (h : q.Holds (a :: l)) :
    ∃ q', q.dequeueHeadI = some (truncateCast q'.curCount, some a, q') ∧ q'.Holds l ∧ q'.Out a := by
  have hl : q.links.Lists ([] ++ a :: l) := h.lists
  have hhead : q.head = some a := h.lists.head
  have hnext : q.next a = l.head? := hl.at.1
  have hpatch : q.dropHead a = (q.setNextOr none l.head?).setPrevOr l.head? none := by
    unfold dropHead
    rw [hnext]
    cases l.head? <;> rfl
  unfold dequeueHeadI
  rw [hhead]
  simp only [hpatch]
  refine ⟨_, rfl, finishDequeue_holds (patch_lists hl) ?_ (not_mem_of_lists hl)⟩
  exact counts_setPrevOr (counts_setNextOr h.counts _ _) _ _

/-- **Dequeue at the tail.** -/
theorem dequeueTailI_holds (h : q.Holds (l ++ [a])) :
    ∃ q', q.dequeueTailI = some (truncateCast q'.curCount, some a, q') ∧ q'.Holds l ∧ q'.Out a := by
  have hhead : q.head = (l ++ [a]).head? := h.lists.head
  have htail : q.tail = some a := by
    rw [← getLast?_concat (l := l)]
    exact h.lists.tail
  have hprev : q.prev a = l.getLast? := h.lists.at.2
  have hpatch : q.dropTail a = (q.setNextOr l.getLast? none).setPrevOr none l.getLast? := by
    unfold dropTail
    rw [hprev]
    cases l.getLast? <;> rfl
  obtain ⟨d, hd⟩ : ∃ d, (l ++ [a]).head? = some d := by
    cases l with
    | nil => exact ⟨a, rfl⟩
    | cons d l => exact ⟨d, rfl⟩
  unfold dequeueTailI
  rw [hhead, hd, htail]
  simp only [hpatch]
  have hfinish := finishDequeue_holds (patch_lists h.lists)
    (counts_setPrevOr (counts_setNextOr (h.counts.perm perm_middle) _ _) _ _)
    (not_mem_of_lists h.lists)
  rw [append_nil] at hfinish
  exact ⟨_, rfl, hfinish⟩

theorem unlink_eq (h : q.links.Lists (l₁ ++ a :: l₂)) :
    q.unlink a = (q.setNextOr l₁.getLast? l₂.head?).setPrevOr l₂.head? l₁.getLast? := by
  have hne : l₁.getLast? ≠ some a := fun e =>
    not_mem_of_lists h (List.mem_append_left _ (mem_of_getLast? e))
  have hnext : q.next a = l₂.head? := h.at.1
  have hprev : q.prev a = l₁.getLast? := h.at.2
  have hnext' : (q.setNextOr l₁.getLast? l₂.head?).next a = l₂.head? := by
    have hlinks := congrArg (fun r => r.next (some a)) (links_setNextOr q l₁.getLast? l₂.head?)
    simp only [update_of_ne hne.symm] at hlinks
    exact hlinks.trans hnext
  have hprev' : (q.setNextOr l₁.getLast? l₂.head?).prev a = l₁.getLast? := by
    have hlinks := congrArg (fun r => r.prev (some a)) (links_setNextOr q l₁.getLast? l₂.head?)
    exact hlinks.trans hprev
  have hfirst : q.unlinkNext a = q.setNextOr l₁.getLast? l₂.head? := by
    unfold unlinkNext
    rw [hprev, hnext]
    cases l₁.getLast? <;> rfl
  unfold unlink unlinkPrev
  rw [hfirst, hnext', hprev']
  cases l₂.head? <;> rfl

/-- `x` is the first block of `l` of the lowest priority. -/
def Lowest (q : MessageQueue) (l : List Addr) (x : Addr) : Prop :=
  ∃ a b, l = a ++ x :: b ∧ (∀ y ∈ a, (q.block x).priority < (q.block y).priority) ∧
    ∀ y ∈ b, (q.block x).priority ≤ (q.block y).priority

/-- The scan from the end of `l₁` chooses its lowest block, unless all are higher
than what was seen. -/
theorem choosePrio_spec {fuel : Nat}
    (h : q.links.Lists (l₁ ++ l₂)) (hfuel : l₁.length ≤ fuel) (priority : UInt64) (chosen : Option Addr) :
    ∃ r, q.choosePrio fuel l₁.getLast? priority chosen = some r ∧
      (r = chosen ∧ (∀ x ∈ l₁, priority < (q.block x).priority) ∨
        ∃ x, r = some x ∧ (q.block x).priority ≤ priority ∧ q.Lowest l₁ x) := by
  induction l₁ using List.reverseRecOn generalizing l₂ fuel priority chosen with
  | nil => exact ⟨chosen, by cases fuel <;> rfl, .inl ⟨rfl, by simp⟩⟩
  | append_singleton l t ih =>
    rw [List.length_append, List.length_singleton] at hfuel
    obtain ⟨fuel, rfl⟩ := Nat.exists_eq_succ_of_ne_zero (Nat.ne_of_gt (Nat.lt_of_lt_of_le
      (Nat.succ_pos _) hfuel))
    have h' : q.links.Lists (l ++ t :: l₂) := by rwa [append_assoc] at h
    have hprev : q.prev t = l.getLast? := h'.at.2
    have hle : l.length ≤ fuel := by omega
    rw [getLast?_concat]
    unfold choosePrio
    rw [hprev]
    by_cases hp : (q.block t).priority ≤ priority
    · rw [if_pos hp]
      obtain ⟨r, hr, ⟨rfl, hall⟩ | ⟨x, rfl, hx, a, b, rfl, ha, hb⟩⟩ := ih h' hle _ _
      · exact ⟨_, hr, .inr ⟨t, rfl, hp, l, [], rfl, hall, by simp⟩⟩
      · refine ⟨_, hr, .inr ⟨x, rfl, UInt64.le_trans hx hp, a, b ++ [t], by simp, ha, fun y hy => ?_⟩⟩
        rcases mem_append.mp hy with hy | hy
        · exact hb y hy
        · rw [mem_singleton.mp hy]
          exact hx
    · rw [if_neg hp]
      have hp := UInt64.not_le.mp hp
      obtain ⟨r, hr, ⟨rfl, hall⟩ | ⟨x, rfl, hx, a, b, rfl, ha, hb⟩⟩ := ih h' hle _ _
      · refine ⟨_, hr, .inl ⟨rfl, fun y hy => ?_⟩⟩
        rcases mem_append.mp hy with hy | hy
        · exact hall y hy
        · rw [mem_singleton.mp hy]
          exact hp
      · refine ⟨_, hr, .inr ⟨x, rfl, hx, a, b ++ [t], by simp, ha, fun y hy => ?_⟩⟩
        rcases mem_append.mp hy with hy | hy
        · exact hb y hy
        · rw [mem_singleton.mp hy]
          exact UInt64.le_trans hx (UInt64.le_of_lt hp)

/-- **Dequeue by priority**: the first block of the lowest priority. -/
theorem dequeuePrioI_holds (h : q.Holds l) (hne : l ≠ []) :
    ∃ a q', q.Lowest l a ∧ q.dequeuePrioI = some (truncateCast q'.curCount, some a, q') ∧
      q'.Holds (l.erase a) ∧ q'.Out a := by
  obtain ⟨d, t, rfl⟩ := List.exists_cons_of_ne_nil hne
  have hhead : q.head = some d := h.lists.head
  have htail : q.tail = (d :: t).getLast? := h.lists.tail
  have hl : q.links.Lists ((d :: t) ++ []) := by rw [append_nil]; exact h.lists
  obtain ⟨r, hr, ⟨rfl, hall⟩ | ⟨x, rfl, _, hlow⟩⟩ := choosePrio_spec hl
    (length_le_addresses h.lists.nodup) (ofNat (2 ^ 64 - 1)) none
  · -- no priority is above the greatest number
    have hlt := lt_iff_toNat_lt.mp (hall d List.mem_cons_self)
    have htop := (q.block d).priority.toNat_lt
    exact absurd hlt (by simpa using Nat.le_of_lt_succ htop)
  · obtain ⟨l₁, l₂, hsplit, hlt, hle⟩ := hlow
    have hl' := h.lists
    have hc := h.counts
    rw [hsplit] at hl' hc
    have hx := not_mem_of_lists hl'
    have herase : (d :: t).erase x = l₁ ++ l₂ := by
      rw [hsplit, List.erase_append_right _ fun hm => hx (List.mem_append_left _ hm),
        List.erase_cons_head]
    refine ⟨x, (q.unlink x).finishDequeue x, ⟨l₁, l₂, hsplit, hlt, hle⟩, ?_, ?_⟩
    · unfold dequeuePrioI
      rw [hhead, htail]
      simp only [hr]
      rfl
    · rw [herase, unlink_eq hl']
      exact finishDequeue_holds (patch_lists hl')
        (counts_setPrevOr (counts_setNextOr (hc.perm perm_middle) _ _) _ _) hx

/-- The blocks are released in order. -/
theorem flushLoop_spec {fuel : Nat} (hw : Walks q.next q.head l) (hc : q.Counts l)
    (hfuel : l.length ≤ fuel) :
    ∃ q', flushLoop fuel q = some (l, q') ∧ q'.head = none ∧ q'.tail = q.tail ∧ q'.Counts [] := by
  induction l generalizing q fuel with
  | nil =>
    have hhead : q.head = none := hw
    refine ⟨q, ?_, hhead, rfl, hc⟩
    unfold flushLoop
    rw [hhead]
  | cons d l ih =>
    cases fuel with
    | zero => simp at hfuel
    | succ fuel =>
      obtain ⟨hhead, hrest⟩ := hw
      have hw' : Walks { q.subBytes d with head := q.next d }.next
        { q.subBytes d with head := q.next d }.head l := hrest
      obtain ⟨q', hloop, hh, ht, hc'⟩ := ih hw' (hc.sub.congr rfl rfl rfl rfl) (by simpa using hfuel)
      refine ⟨q', ?_, hh, ht, hc'⟩
      unfold flushLoop
      rw [hhead]
      simp only [hloop]
      rfl

/-- **Flush.** -/
theorem flushI_holds (h : q.Holds l) :
    ∃ q', q.flushI = some (l.length, l, q') ∧ q'.Holds [] := by
  have hw : Walks { q with tail := none }.next { q with tail := none }.head l := h.walks
  obtain ⟨q', hloop, hhead, htail, hc⟩ := flushLoop_spec hw (h.counts.congr rfl rfl rfl rfl)
    (length_le_addresses h.lists.nodup)
  refine ⟨q', ?_, Links.Ring.empty ⟨hhead, htail⟩, hc⟩
  unfold flushI
  rw [hloop]
  rfl

def contents (q : MessageQueue) : List Addr := (walk q.next addresses q.head).getD []

theorem Holds.contents_eq (h : q.Holds l) : q.contents = l := by
  unfold contents
  rw [h.walks.walk (length_le_addresses h.lists.nodup)]
  rfl

end MessageQueue

/-! ## Runs -/

/-- The queue, the blocks that entered and left it so far, and the block that the
last operation dequeued. -/
structure QueueSys where
  queue : MessageQueue
  entered : List Addr
  left : List Addr
  out : Option Addr

/-- The operations, and `compose`: the user writes a block. -/
inductive QueueOp where
  | compose (a : Addr) (next prev : Option Addr) (block : MessageBlock)
  | enqueueTail (newItem : Option Addr)
  | enqueueHead (newItem : Option Addr)
  | enqueue (newItem : Option Addr)
  | dequeueHead
  | dequeueTail
  | dequeuePrio
  | flush

namespace QueueSys

open MessageQueue

def init (memory : MessageQueue) : QueueSys := ⟨memory.opened, [], [], none⟩

def compose (q : MessageQueue) (a : Addr) (next prev : Option Addr) (block : MessageBlock) :
    MessageQueue :=
  { (q.setNext a next).setPrev a prev with block := Function.update q.block a block }

def enter (s : QueueSys) (chain : List Addr) (r : Int × MessageQueue) : QueueSys :=
  ⟨r.2, s.entered ++ chain, s.left, none⟩

def leave (s : QueueSys) (r : Int × Option Addr × MessageQueue) : QueueSys :=
  ⟨r.2.2, s.entered, s.left ++ r.2.1.toList, r.2.1⟩

def step (s : QueueSys) : QueueOp → Option QueueSys
  | .compose a next prev block => some { s with queue := compose s.queue a next prev block, out := none }
  | .enqueueTail newItem =>
    (walk s.queue.next addresses newItem).bind fun c => (s.queue.enqueueTailI newItem).map (s.enter c)
  | .enqueueHead newItem =>
    (walk s.queue.next addresses newItem).bind fun c => (s.queue.enqueueHeadI newItem).map (s.enter c)
  | .enqueue newItem => (s.queue.enqueueI newItem).map (s.enter newItem.toList)
  | .dequeueHead => s.queue.dequeueHeadI.map s.leave
  | .dequeueTail => s.queue.dequeueTailI.map s.leave
  | .dequeuePrio => s.queue.dequeuePrioI.map s.leave
  | .flush => s.queue.flushI.map fun r => ⟨r.2.2, s.entered, s.left ++ r.2.1, none⟩

/-- From the block on there is a chain that ends, of blocks outside the queue. -/
def Fresh (q : MessageQueue) (newItem : Option Addr) : Prop :=
  ∃ c ∈ walk q.next addresses newItem, ∀ z ∈ c, z ∉ q.contents

/-- What the user does: only blocks outside the queue are written and enqueued. -/
def Allowed (s : QueueSys) : QueueOp → Prop
  | .compose a _ _ _ => a ∉ s.queue.contents
  | .enqueueTail newItem => Fresh s.queue newItem
  | .enqueueHead newItem => Fresh s.queue newItem
  | .enqueue newItem => ∀ a ∈ newItem, a ∉ s.queue.contents
  | _ => True

-- the list is searched, not the addresses
instance decidableDisjoint (c l : List Addr) : Decidable (∀ z ∈ c, z ∉ l) := List.decidableBAll _ c

instance decidableFresh (q : MessageQueue) (newItem : Option Addr) : Decidable (Fresh q newItem) :=
  match h : walk q.next addresses newItem with
  | none => .isFalse fun ⟨_, hc, _⟩ => nomatch h.symm.trans hc
  | some c => decidable_of_iff (∀ z ∈ c, z ∉ q.contents)
    ⟨fun hz => ⟨c, h, hz⟩, fun ⟨_, hc, hz⟩ => Option.some.inj (h.symm.trans hc) ▸ hz⟩

instance decidableAllowed : ∀ s op, Decidable (Allowed s op)
  | s, .compose a _ _ _ => inferInstanceAs (Decidable (a ∉ s.queue.contents))
  | s, .enqueueTail newItem | s, .enqueueHead newItem => decidableFresh s.queue newItem
  | s, .enqueue newItem => decidable_of_iff (∀ a ∈ newItem.toList, a ∉ s.queue.contents)
    (forall_congr' fun _ => imp_congr_left Option.mem_toList)
  | _, .dequeueHead | _, .dequeueTail | _, .dequeuePrio | _, .flush => inferInstanceAs (Decidable True)

/-- The queue holds the blocks that entered and did not leave. -/
structure Good (s : QueueSys) (l : List Addr) : Prop where
  holds : s.queue.Holds l
  conserved : s.entered.Perm (l ++ s.left)
  out : ∀ a, s.out = some a → s.queue.Out a

variable {s : QueueSys} {l : List Addr}

theorem init_good (memory : MessageQueue) : (init memory).Good [] :=
  ⟨⟨Links.Ring.empty ⟨rfl, rfl⟩, ⟨rfl, rfl, rfl⟩⟩, List.Perm.refl _, by rintro a ⟨⟩⟩

theorem fresh_chain {q : MessageQueue} (h : q.Holds l) {newItem : Option Addr}
    (hf : Fresh q newItem) :
    ∃ c, walk q.next addresses newItem = some c ∧ Walks q.next newItem c ∧ ∀ z ∈ c, z ∉ l := by
  obtain ⟨c, hc, hdisj⟩ := hf
  rw [h.contents_eq] at hdisj
  exact ⟨c, hc, walk_eq_some hc, hdisj⟩

/-- What an operation makes of the list of the queue's blocks: the new list, the blocks that
it puts in, and those that it gives. -/
def Does (q : MessageQueue) (l l' put out : List Addr) : QueueOp → Prop
  | .compose .. => l' = l ∧ put = [] ∧ out = []
  | .enqueueTail newItem => l' = l ++ put ∧ Walks q.next newItem put ∧ out = []
  | .enqueueHead newItem => l' = put ++ l ∧ Walks q.next newItem put ∧ out = []
  | .enqueue newItem => put = newItem.toList ∧ out = [] ∧ ∃ a b, l = a ++ b ∧ l' = a ++ put ++ b ∧
      ∀ new ∈ newItem, (∀ x ∈ b, (q.block x).priority < (q.block new).priority) ∧
        ∀ x, a.getLast? = some x → (q.block new).priority ≤ (q.block x).priority
  | .dequeueHead => l = out ++ l' ∧ out.length = min 1 l.length ∧ put = []
  | .dequeueTail => l = l' ++ out ∧ out.length = min 1 l.length ∧ put = []
  | .dequeuePrio => put = [] ∧
      (l = [] ∧ l' = [] ∧ out = [] ∨ ∃ a, q.Lowest l a ∧ l' = l.erase a ∧ out = [a])
  | .flush => l' = [] ∧ out = l ∧ put = []

theorem Does.perm {q : MessageQueue} {l' put out : List Addr} {op : QueueOp}
    (h : Does q l l' put out op) : (l ++ put).Perm (l' ++ out) := by
  cases op with
  | compose a next prev block =>
    obtain ⟨rfl, rfl, rfl⟩ := h
    exact List.Perm.refl _
  | enqueueTail newItem =>
    obtain ⟨rfl, -, rfl⟩ := h
    rw [append_nil]
  | enqueueHead newItem =>
    obtain ⟨rfl, -, rfl⟩ := h
    rw [append_nil]
    exact perm_append_comm
  | enqueue newItem =>
    obtain ⟨-, rfl, a, b, rfl, rfl, -⟩ := h
    rw [append_nil, append_assoc, append_assoc]
    exact perm_append_comm.append_left a
  | dequeueHead =>
    obtain ⟨rfl, -, rfl⟩ := h
    rw [append_nil]
    exact perm_append_comm
  | dequeueTail =>
    obtain ⟨rfl, -, rfl⟩ := h
    rw [append_nil]
  | dequeuePrio =>
    obtain ⟨rfl, ⟨rfl, rfl, rfl⟩ | ⟨a, ⟨b, c, rfl, -⟩, rfl, rfl⟩⟩ := h
    · rfl
    · rw [append_nil]
      exact (List.perm_cons_erase (by simp)).trans (List.perm_append_singleton a _).symm
  | flush =>
    obtain ⟨rfl, rfl, rfl⟩ := h
    rw [append_nil, List.nil_append]

/-- The step to `t` does to the list what the operation does to a list. -/
structure Takes (s t : QueueSys) (op : QueueOp) (l l' put out : List Addr) : Prop where
  holds : t.queue.Holds l'
  entered : t.entered = s.entered ++ put
  left : t.left = s.left ++ out
  nulled : ∀ a, t.out = some a → t.queue.Out a
  does : Does s.queue l l' put out op

/-- The queue takes the step that the operation takes on its list. -/
def Refines (s : QueueSys) (op : QueueOp) : Prop :=
  ∃ t put out, step s op = some t ∧ Takes s t op s.queue.contents t.queue.contents put out

theorem compose_holds {q : MessageQueue} (h : q.Holds l) {a : Addr} (ha : a ∉ l)
    (next prev : Option Addr) (block : MessageBlock) : (compose q a next prev block).Holds l := by
  have hq := (h.setNext ha next).setPrev ha prev
  have hblock : ∀ z ∈ l, update q.block a block z = q.block z := fun z hz =>
    update_of_ne (fun e : z = a => ha (e ▸ hz)) block q.block
  refine hq.frame rfl rfl (fun _ _ => rfl) (fun _ _ => rfl) ⟨h.counts.count, ?_, ?_⟩
  · refine h.counts.bytes.trans (congrArg sum (List.map_congr_left fun z hz => ?_))
    exact congrArg totalSize (hblock z hz).symm
  · refine h.counts.length.trans (congrArg sum (List.map_congr_left fun z hz => ?_))
    exact congrArg totalLength (hblock z hz).symm

theorem refines_of (h : s.queue.Holds l) {op : QueueOp} {t : QueueSys} {l' put out : List Addr}
    (hs : step s op = some t) (ht : Takes s t op l l' put out) : s.Refines op := by
  obtain rfl := h.contents_eq
  obtain rfl := ht.holds.contents_eq
  exact ⟨t, put, out, hs, ht⟩

theorem refines_chain (h : s.queue.Holds l) {newItem : Option Addr} (hf : Fresh s.queue newItem)
    {op : QueueOp} {f : Option Addr → Option (Int × MessageQueue)} {p : List Addr → List Addr}
    (hstep : step s op =
      (walk s.queue.next addresses newItem).bind fun c => (f newItem).map (s.enter c))
    (hnone : f none = some (-1, s.queue)) (hnil : p [] = l)
    (hsome : ∀ new c, Walks s.queue.next (some new) c → (∀ z ∈ c, z ∉ l) →
      ∃ n q', f (some new) = some (n, q') ∧ q'.Holds (p c))
    (hdoes : ∀ c, Walks s.queue.next newItem c → Does s.queue l (p c) c [] op) : s.Refines op := by
  obtain ⟨c, hc, hw, hdisj⟩ := fresh_chain h hf
  rw [hc, Option.bind_some] at hstep
  have hout : ∀ r a, (s.enter c r).out = some a → (s.enter c r).queue.Out a := by rintro r a ⟨⟩
  cases newItem with
  | none =>
    cases c with
    | nil =>
      rw [hnone] at hstep
      exact refines_of h hstep ⟨hnil ▸ h, rfl, (append_nil _).symm, hout _, hdoes [] hw⟩
    | cons d c => cases hw.1
  | some new =>
    obtain ⟨n, q', hq', hholds⟩ := hsome new c hw hdisj
    rw [hq'] at hstep
    exact refines_of h hstep ⟨hholds, rfl, (append_nil _).symm, hout _, hdoes c hw⟩

theorem refines_dequeue (h : s.queue.Holds l) {op : QueueOp}
    {f : MessageQueue → Option (Int × Option Addr × MessageQueue)}
    (hstep : step s op = (f s.queue).map s.leave)
    (hempty : s.queue.head = none → f s.queue = some (-1, none, s.queue))
    (hnil : Does s.queue [] [] [] [] op)
    (hsome : l ≠ [] → ∃ n a q' l', f s.queue = some (n, some a, q') ∧ q'.Holds l' ∧ q'.Out a ∧
      Does s.queue l l' [] [a] op) : s.Refines op := by
  by_cases hl : l = []
  · subst hl
    rw [hempty h.lists.head] at hstep
    exact refines_of h hstep ⟨h, (append_nil _).symm, rfl, by rintro a ⟨⟩, hnil⟩
  · obtain ⟨n, a, q', l', hf, hq', hout, hdoes⟩ := hsome hl
    rw [hf] at hstep
    exact refines_of h hstep
      ⟨hq', (append_nil _).symm, rfl, by rintro b ⟨⟩; exact hout, hdoes⟩

/-- **Every step is possible, and is the one of a list.** -/
theorem step_refines (h : s.queue.Holds l) {op : QueueOp} (hop : Allowed s op) : s.Refines op := by
  cases op with
  | compose a next prev block =>
    unfold Allowed at hop
    rw [h.contents_eq] at hop
    exact refines_of h rfl ⟨compose_holds h hop next prev block, (append_nil _).symm,
      (append_nil _).symm, by rintro a ⟨⟩, rfl, rfl, rfl⟩
  | enqueueTail newItem =>
    refine refines_chain h hop rfl rfl (append_nil l) (fun new c hw hdisj => ?_)
      fun c hw => ⟨rfl, hw, rfl⟩
    obtain ⟨q', hq', hholds, -⟩ := enqueueTailI_holds h hw hdisj
    exact ⟨_, q', hq', hholds⟩
  | enqueueHead newItem =>
    refine refines_chain (p := (· ++ l)) h hop rfl rfl rfl (fun new c hw hdisj => ?_)
      fun c hw => ⟨rfl, hw, rfl⟩
    obtain ⟨q', hq', hholds, -⟩ := enqueueHeadI_holds h hw hdisj
    exact ⟨_, q', hq', hholds⟩
  | enqueue newItem =>
    cases newItem with
    | none =>
      exact refines_of h rfl ⟨h, rfl, (append_nil _).symm, by rintro a ⟨⟩,
        rfl, rfl, l, [], (append_nil l).symm, by simp, by rintro a ⟨⟩⟩
    | some new =>
      have hnew : new ∉ l := by
        rw [← h.contents_eq]
        exact hop new rfl
      obtain ⟨q', hq', a, b, rfl, hholds, hb, ha⟩ := enqueueI_holds h hnew
      refine refines_of h (congrArg (Option.map _) hq') ⟨hholds, rfl, (append_nil _).symm,
        by rintro a ⟨⟩, rfl, rfl, a, b, rfl, by simp, ?_⟩
      rintro _ ⟨⟩
      exact ⟨hb, ha⟩
  | dequeueHead =>
    refine refines_dequeue h rfl (fun hhead => by unfold dequeueHeadI; rw [hhead]) ⟨rfl, rfl, rfl⟩
      fun hl => ?_
    obtain ⟨a, t, rfl⟩ := List.exists_cons_of_ne_nil hl
    obtain ⟨q', hq', hholds, hout⟩ := dequeueHeadI_holds h
    exact ⟨_, a, q', t, hq', hholds, hout, rfl, by simp, rfl⟩
  | dequeueTail =>
    refine refines_dequeue h rfl (fun hhead => by unfold dequeueTailI; rw [hhead]) ⟨rfl, rfl, rfl⟩
      fun hl => ?_
    obtain ⟨t, a, rfl⟩ : ∃ t a, l = t ++ [a] :=
      ⟨l.dropLast, l.getLast hl, (List.dropLast_append_getLast hl).symm⟩
    obtain ⟨q', hq', hholds, hout⟩ := dequeueTailI_holds h
    exact ⟨_, a, q', t, hq', hholds, hout, rfl, by simp, rfl⟩
  | dequeuePrio =>
    refine refines_dequeue h rfl (fun hhead => by unfold dequeuePrioI; rw [hhead])
      ⟨rfl, .inl ⟨rfl, rfl, rfl⟩⟩ fun hl => ?_
    obtain ⟨a, q', hlow, hq', hholds, hout⟩ := dequeuePrioI_holds h hl
    exact ⟨_, a, q', _, hq', hholds, hout, rfl, .inr ⟨a, hlow, rfl, rfl⟩⟩
  | flush =>
    obtain ⟨q', hq', hholds⟩ := flushI_holds h
    exact refines_of h (congrArg (Option.map _) hq') ⟨hholds, (append_nil _).symm, rfl,
      by rintro a ⟨⟩, rfl, rfl, rfl⟩

theorem step_good (h : s.Good l) {op : QueueOp} (hop : Allowed s op) :
    ∃ t, step s op = some t ∧ ∃ l', t.Good l' := by
  obtain ⟨t, put, out, hs, ht⟩ := step_refines h.holds hop
  refine ⟨t, hs, _, ht.holds, ?_, ht.nulled⟩
  have hperm := ht.does.perm
  rw [h.holds.contents_eq] at hperm
  rw [ht.entered, ht.left]
  have hin : (s.entered ++ put).Perm (l ++ put ++ s.left) := by
    rw [append_assoc]
    refine (h.conserved.append_right put).trans ?_
    rw [append_assoc]
    exact perm_append_comm.append_left l
  have hgone : (t.queue.contents ++ out ++ s.left).Perm (t.queue.contents ++ (s.left ++ out)) := by
    rw [append_assoc]
    exact perm_append_comm.append_left _
  exact hin.trans ((hperm.append_right s.left).trans hgone)

/-- **Message queue bookkeeping**: every allowed run is possible, and after it the
queue holds, linked and counted, the blocks that entered and did not leave; a
block dequeued has null pointers. -/
theorem queue_invariant {memory : MessageQueue} {ops : List QueueOp}
    (hops : AllSteps step Allowed (init memory) ops) :
    ∃ s l, run step (init memory) ops = some s ∧ s.queue.Holds l ∧ s.queue.curCount.toNat = l.length ∧
      s.entered.Perm (l ++ s.left) ∧ ∀ a, s.out = some a → s.queue.Out a := by
  have hrun : ∃ s, run step (init memory) ops = some s ∧ ∃ l, s.Good l :=
    run_total_of (fun s op hs hop => hs.elim fun l h => step_good h hop) ⟨[], init_good memory⟩ hops
  obtain ⟨s, hs, l, h⟩ := hrun
  exact ⟨s, l, hs, h.holds, h.holds.count, h.conserved, h.out⟩

def smallBlock (priority : UInt64) : MessageBlock := ⟨4, 1, [(2, 2)], priority, .zero, .zero⟩

/-- A chain of two blocks, a block of higher priority, and dequeueing. -/
def mixedOps : List QueueOp :=
  [.compose ⟨0, by decide⟩ (some ⟨1, by decide⟩) none (smallBlock 3),
    .compose ⟨1, by decide⟩ none none (smallBlock 3),
    .enqueueTail (some ⟨0, by decide⟩),
    .compose ⟨2, by decide⟩ none none (smallBlock 5), .enqueue (some ⟨2, by decide⟩),
    .dequeueTail, .dequeuePrio]

def memory : MessageQueue := ⟨fun _ => none, fun _ => none, fun _ => smallBlock 0, none, none, 0, 0, 0⟩

theorem queue_invariant_mixed :
    ∃ s l, run step (init memory) mixedOps = some s ∧ s.out = some ⟨0, by decide⟩ ∧ s.queue.Holds l ∧
      s.queue.curCount.toNat = l.length ∧ s.entered.Perm (l ++ s.left) ∧
      ∀ a, s.out = some a → s.queue.Out a := by
  have hrun : ∃ s, run step (init memory) mixedOps = some s ∧ s.out = some ⟨0, by decide⟩ :=
    ⟨_, rfl, rfl⟩
  have hallowed : AllSteps step Allowed (init memory) mixedOps := by decide
  obtain ⟨t, ht, hout⟩ := hrun
  obtain ⟨s, l, hs, hrest⟩ := queue_invariant hallowed
  rw [ht] at hs
  cases hs
  exact ⟨t, l, ht, hout, hrest⟩

theorem step_kept (h : s.Good l) {op : QueueOp} (hop : Allowed s op) {t : QueueSys}
    (hs : step s op = some t) : ∃ l', t.Good l' := by
  obtain ⟨t', ht', hgood⟩ := step_good h hop
  cases hs.symm.trans ht'
  exact hgood

/-- **The queue refines a list**: in an allowed run every operation does to the list of the
queue's blocks what it does to a list. -/
theorem run_refines {memory : MessageQueue} {ops : List QueueOp}
    (hops : AllSteps step Allowed (init memory) ops) : AllSteps step Refines (init memory) ops := by
  have hagree : ∀ s op, (∃ l, s.Good l) → (Allowed s op ↔ Allowed s op ∧ Refines s op) :=
    fun s op ⟨l, h⟩ => ⟨fun hop => ⟨hop, step_refines h.holds hop⟩, And.left⟩
  refine ((allSteps_congr hagree ?_ ⟨[], init_good memory⟩).mp hops).mono fun s op h => h.2
  rintro s op t ⟨l, h⟩ ⟨hop, -⟩ hs
  exact step_kept h hop hs

theorem run_refines_mixed : AllSteps step Refines (init memory) mixedOps := run_refines (by decide)

/-- The operations of a queue that is only filled at its tail and emptied at its head. -/
def InOrder : QueueOp → Prop
  | .compose .. | .enqueueTail _ | .dequeueHead | .flush => True
  | _ => False

instance : DecidablePred InOrder
  | .compose .. | .enqueueTail _ | .dequeueHead | .flush => .isTrue trivial
  | .enqueueHead _ | .enqueue _ | .dequeueTail | .dequeuePrio => .isFalse nofun

theorem step_inOrder (h : s.Good l) (heq : s.entered = s.left ++ s.queue.contents) {op : QueueOp}
    (hop : Allowed s op) (horder : InOrder op) {t : QueueSys} (hs : step s op = some t) :
    t.entered = t.left ++ t.queue.contents := by
  obtain ⟨t', put, out, ht', htakes⟩ := step_refines h.holds hop
  cases hs.symm.trans ht'
  have hdoes := htakes.does
  rw [htakes.entered, htakes.left, heq]
  cases op with
  | compose a next prev block =>
    obtain ⟨hl, rfl, rfl⟩ := hdoes
    rw [hl, append_nil, append_nil]
  | enqueueTail newItem =>
    obtain ⟨hl, -, rfl⟩ := hdoes
    rw [hl, append_nil, append_assoc]
  | dequeueHead =>
    obtain ⟨hl, -, rfl⟩ := hdoes
    rw [hl, append_nil, append_assoc]
  | flush =>
    obtain ⟨hl, rfl, rfl⟩ := hdoes
    rw [hl]
  | enqueueHead _ | enqueue _ | dequeueTail | dequeuePrio => cases horder

/-- **First in, first out**: then the blocks leave in the order in which they entered. -/
theorem first_in_first_out {memory : MessageQueue} {ops : List QueueOp} {s : QueueSys}
    (hops : AllSteps step (fun s op => Allowed s op ∧ InOrder op) (init memory) ops)
    (hrun : run step (init memory) ops = some s) : s.entered = s.left ++ s.queue.contents := by
  have hstart : (init memory).entered = (init memory).left ++ (init memory).queue.contents := by
    rw [(init_good memory).holds.contents_eq]
    rfl
  have hstep : ∀ s op t, (∃ l, s.Good l) ∧ s.entered = s.left ++ s.queue.contents →
      Allowed s op ∧ InOrder op → step s op = some t →
      (∃ l, t.Good l) ∧ t.entered = t.left ++ t.queue.contents :=
    fun s op t ⟨⟨l, h⟩, heq⟩ ⟨hop, horder⟩ hs =>
      ⟨step_kept h hop hs, step_inOrder h heq hop horder hs⟩
  exact (run_inv_of hstep ⟨⟨[], init_good memory⟩, hstart⟩ hops hrun).2

def inOrderOps : List QueueOp :=
  [.compose ⟨0, by decide⟩ (some ⟨1, by decide⟩) none (smallBlock 3),
    .compose ⟨1, by decide⟩ none none (smallBlock 5), .enqueueTail (some ⟨0, by decide⟩),
    .dequeueHead]

theorem first_in_first_out_two : ∃ s, run step (init memory) inOrderOps = some s ∧
    s.left = [⟨0, by decide⟩] ∧ s.entered = s.left ++ s.queue.contents := by
  have hrun : ∃ s, run step (init memory) inOrderOps = some s ∧ s.left = [⟨0, by decide⟩] :=
    ⟨_, rfl, rfl⟩
  obtain ⟨s, hs, hleft⟩ := hrun
  exact ⟨s, hs, hleft, first_in_first_out (by decide) hs⟩

end QueueSys

end Atcd.Message
