import Atcd.Core.Run
import Atcd.Rmcast.Acknowledge
/-!
# Acknowledgement over runs

Results:
* `delivery`: in every run, what was passed up for a source are consecutive numbers from that of
  its first message on, each once, and the next one has not arrived.
-/
namespace Atcd.Rmcast

open Atcd.Core List Option Nat

namespace AckQueue

variable {q : AckQueue} {k sn n : Nat} {d : Descr} {m : Message}

def msgAt (q : AckQueue) (k : Nat) : Option Message := (q.find k).bind Descr.msg

/-- All numbers in the queue are above `sn ()`, and `max_sn_` is a bound. -/
structure Bounds (q : AckQueue) : Prop where
  lt : q.sn < 2 ^ 63
  keys : ∀ k ∈ q.entries.keys, q.sn < k ∧ k ≤ q.maxSn_

theorem next64_eq (h : n < 2 ^ 63) : next64 n = n + 1 := mod_eq_of_lt (by omega)

theorem prev64_eq (hpos : 0 < n) (h : n < 2 ^ 64) : prev64 n = n - 1 := by
  unfold prev64
  omega

theorem le_lower {entries : Table Nat Descr} (hsn : sn ≤ k) (hk : k ≤ n) (hfind : entries.find k ≠ none) :
    k ≤ lower entries sn n := by
  induction n with
  | zero => exact hk
  | succ n ih =>
    unfold lower
    split
    · next h =>
      refine ih (le_of_lt_succ (Nat.lt_of_le_of_ne hk ?_))
      rintro rfl
      exact hfind h.2
    · exact hk

theorem sn_le_maxSn (h : q.Bounds) : q.sn ≤ q.maxSn := by
  unfold maxSn
  split
  · exact Nat.le_refl _
  · next hne =>
    obtain ⟨e, he⟩ := exists_mem_of_ne_nil _ hne
    have hkey := h.keys e.1 (mem_map_of_mem he)
    omega

/-! ## Operations -/

open Table

theorem msgAt_bind_placeholder (timer : UInt64) (k' : Nat) :
    (q.bind k (.placeholder timer)).msgAt k' = q.msgAt k' := by
  unfold msgAt find bind
  rw [find_bind]
  split
  · next h =>
    obtain ⟨rfl, hnone⟩ := h
    rw [hnone]
    rfl
  · rfl

theorem bounds_bind (h : q.Bounds) (hk : q.sn < k) : (q.bind k d).Bounds := by
  refine ⟨h.lt, fun k' hk' => ?_⟩
  rw [mem_keys_iff] at hk'
  unfold bind at hk' ⊢
  rw [find_bind] at hk'
  split at hk'
  · next hcond =>
    obtain ⟨rfl, hnone⟩ := hcond
    have hfind : q.find k = none := hnone
    rw [if_pos hfind]
    exact ⟨hk, Nat.le_max_right _ _⟩
  · obtain ⟨hlt, hle⟩ := h.keys k' (mem_keys_iff.mpr hk')
    refine ⟨hlt, ?_⟩
    split
    · exact Nat.le_trans hle (Nat.le_max_left _ _)
    · exact hle

theorem msgAt_rebind (k' : Nat) : (q.rebind k (.ofMessage m)).msgAt k' = if k = k' then some m else q.msgAt k' := by
  unfold msgAt find rebind
  rw [find_rebind]
  split <;> rfl

theorem bounds_rebind (h : q.Bounds) (hk : q.sn < k) : (q.rebind k d).Bounds := by
  refine ⟨h.lt, fun k' hk' => ?_⟩
  rw [mem_keys_iff] at hk'
  unfold rebind find at hk' ⊢
  rw [find_rebind] at hk'
  by_cases hkk : k = k'
  · subst hkk
    refine ⟨hk, ?_⟩
    split
    · exact Nat.le_max_right _ _
    · next hsome => exact (h.keys k (mem_keys_iff.mpr hsome)).2
  · rw [if_neg hkk] at hk'
    obtain ⟨hlt, hle⟩ := h.keys k' (mem_keys_iff.mpr hk')
    refine ⟨hlt, ?_⟩
    split
    · exact Nat.le_trans hle (Nat.le_max_left _ _)
    · exact hle

theorem find_unbind (k' : Nat) : (q.unbind k).find k' = if k = k' then none else q.find k' :=
  Table.find_unbind _ _ _

theorem le_unbind_maxSn {k' : Nat} (hkeys : ∀ k ∈ q.entries.keys, q.sn < k ∧ k ≤ q.maxSn_)
    (h : (q.unbind k).find k' ≠ none) : k' ≤ (q.unbind k).maxSn_ := by
  have hfind := h
  rw [find_unbind] at hfind
  split at hfind
  · exact absurd rfl hfind
  · next hne =>
    obtain ⟨hlt, hle⟩ := hkeys k' (mem_keys_iff.mpr hfind)
    unfold unbind
    split
    · next hcond =>
      refine le_lower (Nat.le_of_lt hlt) ?_ h
      omega
    · exact hle

end AckQueue

namespace Acknowledge

open AckQueue

variable {q : AckQueue} {sn : Nat} {P : Nat → Message → Prop}

/-- What the loop of `collapse` gives: the messages with the next numbers, up to the first that is
not there. -/
structure Collapsed (P : Nat → Message → Prop) (q : AckQueue) (sn : Nat) (q' : AckQueue)
    (ms : List Message) : Prop where
  le : sn ≤ q'.sn + 1
  messages : List.Forall₂ P (List.range' sn (q'.sn + 1 - sn)) ms
  above : ∀ k, q'.sn < k → q'.msgAt k = q.msgAt k
  next : q'.msgAt (q'.sn + 1) = none
  bounds : q'.Bounds

theorem collapsed_stop (hpos : 0 < sn) (hlt : sn ≤ 2 ^ 63) (hkeys : ∀ k ∈ q.entries.keys, sn ≤ k ∧ k ≤ q.maxSn_)
    (hnone : q.msgAt sn = none) : Collapsed P q sn { q with sn := prev64 sn } [] := by
  rw [prev64_eq hpos (by omega)]
  have hsucc : sn - 1 + 1 = sn := Nat.sub_add_cancel hpos
  refine ⟨Nat.le_of_eq hsucc.symm, ?_, fun _ _ => rfl, ?_, ⟨by change sn - 1 < _; omega, fun k hk => ?_⟩⟩
  · simp only [hsucc, Nat.sub_self, range'_zero]
    exact .nil
  · simp only [hsucc]
    exact hnone
  · obtain ⟨hle, hmax⟩ := hkeys k hk
    refine ⟨?_, hmax⟩
    change sn - 1 < k
    omega

theorem collapseFrom_spec (q : AckQueue) (sn : Nat) (turns : Nat) (hpos : 0 < sn) (hlt : sn ≤ 2 ^ 63) (hsn : q.sn < sn)
    (hkeys : ∀ k ∈ q.entries.keys, sn ≤ k ∧ k ≤ q.maxSn_) (hmsg : ∀ k m, q.msgAt k = some m → P k m)
    (hP : ∀ k m, P k m → k < 2 ^ 63) (hturns : q.entries.length ≤ turns) :
    ∃ q' ms, collapseFrom turns q sn = (q', ms) ∧ Collapsed P q sn q' ms := by
  induction turns generalizing q sn with
  | zero =>
    have hnil : q.entries = [] := length_eq_zero_iff.mp (le_zero.mp hturns)
    refine ⟨_, _, rfl, collapsed_stop hpos hlt hkeys ?_⟩
    unfold msgAt find
    rw [hnil]
    rfl
  | succ turns ih =>
    unfold collapseFrom
    cases hm : (q.find sn).bind Descr.msg with
    | none => exact ⟨_, _, rfl, collapsed_stop hpos hlt hkeys hm⟩
    | some m =>
      have hPm := hmsg sn m hm
      have hlt' := hP sn m hPm
      obtain ⟨d, hd, -⟩ := bind_eq_some_iff.mp hm
      have hfewer : (q.unbind sn).entries.length ≤ turns := by
        have hlength := Table.length_unbind_lt hd
        have heq : (q.unbind sn).entries = q.entries.unbind sn := rfl
        rw [heq]
        omega
      have hkeys' : ∀ k ∈ (q.unbind sn).entries.keys, sn + 1 ≤ k ∧ k ≤ (q.unbind sn).maxSn_ := by
        intro k hk
        have hfind : (q.unbind sn).find k ≠ none := Table.mem_keys_iff.mp hk
        refine ⟨?_, le_unbind_maxSn (fun k hk => ?_) hfind⟩
        · rw [AckQueue.find_unbind] at hfind
          split at hfind
          · exact absurd rfl hfind
          · obtain ⟨hle, -⟩ := hkeys k (Table.mem_keys_iff.mpr hfind)
            omega
        · obtain ⟨hle, hmax⟩ := hkeys k hk
          exact ⟨Nat.lt_of_lt_of_le hsn hle, hmax⟩
      have hmsgAt : ∀ k, (q.unbind sn).msgAt k = if sn = k then none else q.msgAt k := by
        intro k
        unfold msgAt
        rw [AckQueue.find_unbind]
        split <;> rfl
      have hmsg' : ∀ k m, (q.unbind sn).msgAt k = some m → P k m := by
        intro k m hk
        rw [hmsgAt] at hk
        split at hk
        · cases hk
        · exact hmsg k m hk
      have hsn' : (q.unbind sn).sn < sn + 1 := lt_succ_of_lt hsn
      obtain ⟨q', ms, heq, hc⟩ := ih _ _ (succ_pos sn) hlt' hsn' hkeys' hmsg' hfewer
      have hle := hc.le
      refine ⟨q', m :: ms, ?_, by omega, ?_, ?_, hc.next, hc.bounds⟩
      · simp only [next64_eq hlt', heq]
      · have hrange : range' sn (q'.sn + 1 - sn) = sn :: range' (sn + 1) (q'.sn + 1 - (sn + 1)) := by
          have hsub : q'.sn + 1 - sn = (q'.sn + 1 - (sn + 1)) + 1 := by omega
          rw [hsub, range'_succ]
        rw [hrange]
        exact .cons hPm hc.messages
      · intro k hk
        have hne : sn ≠ k := by omega
        rw [hc.above k hk, hmsgAt, if_neg hne]

/-! ## The messages of one source -/

def numbersOf (source : Address) (ms : List Message) : List Nat :=
  ms.filterMap fun m => if numbered m ∧ m.source = some source then m.sn.map UInt64.toNat else none

/-- A message of this source, with this number. -/
structure Numbered (source : Address) (k : Nat) (m : Message) : Prop where
  numbered : numbered m = true
  source : m.source = some source
  sn : m.sn.map UInt64.toNat = some k

variable {source : Address} {ms received : List Message} {m : Message} {nums : List Nat} {k : Nat} {q q' : AckQueue}

theorem numbersOf_append (ms ms' : List Message) :
    numbersOf source (ms ++ ms') = numbersOf source ms ++ numbersOf source ms' :=
  filterMap_append

theorem numbersOf_of (h : Numbered source k m) : numbersOf source [m] = [k] := by
  simp [numbersOf, h.numbered, h.source, h.sn]

theorem numbersOf_other {source' : Address} (hne : m.source ≠ some source') : numbersOf source' [m] = [] := by
  simp [numbersOf, hne]

theorem numbersOf_forall₂ {ks : List Nat} (h : List.Forall₂ (Numbered source) ks ms) : numbersOf source ms = ks := by
  induction h with
  | nil => rfl
  | @cons k m ks ms hm _ ih =>
    have hcons : m :: ms = [m] ++ ms := rfl
    rw [hcons, numbersOf_append, numbersOf_of hm, ih]
    rfl

theorem numbersOf_other_forall₂ {source' : Address} (hne : source ≠ source') {ks : List Nat}
    (h : List.Forall₂ (Numbered source) ks ms) : numbersOf source' ms = [] := by
  induction h with
  | nil => rfl
  | @cons k m ks ms hm _ ih =>
    have hcons : m :: ms = [m] ++ ms := rfl
    have hother : m.source ≠ some source' := by
      rw [hm.source]
      exact fun h => hne (some.inj h)
    rw [hcons, numbersOf_append, numbersOf_other hother, ih]
    rfl

/-- The queue of a source, when these messages were received and these numbers passed up. -/
structure QueueInv (received : List Message) (source : Address) (q : AckQueue) (nums : List Nat) : Prop where
  bounds : q.Bounds
  first : ∃ s, (numbersOf source received).head? = some s ∧ s ≤ q.sn ∧ nums = List.range' s (q.sn + 1 - s)
  messages : ∀ k m, q.msgAt k = some m → m ∈ received ∧ Numbered source k m
  next : q.msgAt (q.sn + 1) = none
  kept : ∀ k ∈ numbersOf source received, k ≤ q.sn ∨ (q.msgAt k).isSome

/-- Only the messages in the queue count. -/
theorem QueueInv.congr (h : QueueInv received source q nums) (hsn : q'.sn = q.sn) (hmsg : ∀ k, q'.msgAt k = q.msgAt k)
    (hbounds : q'.Bounds) : QueueInv received source q' nums := by
  refine ⟨hbounds, hsn ▸ h.first, fun k m hk => h.messages k m (hmsg k ▸ hk), ?_, fun k hk => ?_⟩
  · rw [hmsg, hsn]
    exact h.next
  · rw [hmsg, hsn]
    exact h.kept k hk

/-- A message of another source. -/
theorem QueueInv.append_other (h : QueueInv received source q nums) (hm : numbersOf source [m] = []) :
    QueueInv (received ++ [m]) source q nums := by
  have hsame : numbersOf source (received ++ [m]) = numbersOf source received := by
    rw [numbersOf_append, hm, append_nil]
  refine ⟨h.bounds, hsame ▸ h.first, fun k m' hk => ?_, h.next, hsame ▸ h.kept⟩
  obtain ⟨hmem, hnum⟩ := h.messages k m' hk
  exact ⟨mem_append_left _ hmem, hnum⟩

theorem recvHistory_inv (map : Table Address UInt64) (h : QueueInv received source q nums) :
    QueueInv received source (recvHistory map source q) nums := by
  unfold recvHistory
  split
  · exact h
  · split
    · next hcond =>
      have hlt := Nat.lt_of_le_of_lt (sn_le_maxSn h.bounds) hcond.2
      exact h.congr rfl (msgAt_bind_placeholder 1) (bounds_bind h.bounds hlt)
    · exact h

theorem detectLosses_inv (h : QueueInv received source q nums) : QueueInv received source (detectLosses q) nums := by
  unfold detectLosses
  rw [next64_eq h.bounds.lt]
  have hlt : ∀ sn ∈ range' (q.sn + 1) (q.maxSn - (q.sn + 1)), q.sn < sn := by
    intro sn hsn
    exact (mem_range'_1.mp hsn).1
  generalize range' (q.sn + 1) (q.maxSn - (q.sn + 1)) = sns at hlt
  induction sns generalizing q with
  | nil => exact h
  | cons sn sns ih =>
    have hsn := hlt sn mem_cons_self
    have hstep : QueueInv received source (if q.find sn = none then q.bind sn (.placeholder 1) else q) nums ∧
        (if q.find sn = none then q.bind sn (.placeholder 1) else q).sn = q.sn := by
      split
      · exact ⟨h.congr rfl (msgAt_bind_placeholder 1) (bounds_bind h.bounds hsn), rfl⟩
      · exact ⟨h, rfl⟩
    refine ih hstep.1 fun sn' hsn' => ?_
    rw [hstep.2]
    exact hlt sn' (mem_cons_of_mem _ hsn')

theorem trackEntry_msg (P : AckParameters) (d : Descr) : (trackEntry P d).1.msg = d.msg := by
  unfold trackEntry
  split
  · split <;> rfl
  · rfl

theorem trackQueue_inv {P : AckParameters} {out : List Profile} (h : QueueInv received source q nums)
    (heq : trackQueue P source q = some (q', out)) : QueueInv received source q' nums := by
  unfold trackQueue at heq
  split at heq
  · cases heq
  · simp only [some.injEq, Prod.mk.injEq] at heq
    obtain ⟨rfl, -⟩ := heq
    refine detectLosses_inv (h.congr rfl (fun k => ?_) ⟨h.bounds.lt, ?_⟩)
    · unfold msgAt find
      rw [Table.find_map (fun _ d => (trackEntry P d).1)]
      cases q.entries.find k with
      | none => rfl
      | some d => exact trackEntry_msg P d
    · simp only
      rw [Table.keys_map (fun _ d => (trackEntry P d).1)]
      exact h.bounds.keys

/-! ## Arrivals -/

def InRange (m : Message) : Prop := numbered m = true → ∀ sn ∈ m.sn, 0 < sn.toNat ∧ sn.toNat < 2 ^ 63

instance (m : Message) : Decidable (InRange m) :=
  decidable_of_iff
    (numbered m = true → m.sn.all (fun sn => 0 < sn.toNat ∧ sn.toNat < 2 ^ 63) = true)
    (by unfold InRange; cases m.sn <;> simp)

/-- The next message, and what was kept behind it. -/
theorem collapse_inv (h : QueueInv received source q nums) (hm : Numbered source (q.sn + 1) m)
    (hrange : ∀ m' ∈ received ++ [m], InRange m') :
    ∃ q' ms, collapse (q.rebind (q.sn + 1) (.ofMessage m)) = (q', ms) ∧ (∀ m' ∈ ms, m' ∈ received ++ [m]) ∧
      (∀ source', source ≠ source' → numbersOf source' ms = []) ∧
      QueueInv (received ++ [m]) source q' (nums ++ numbersOf source ms) := by
  have hlt := h.bounds.lt
  have hbounds := bounds_rebind (d := .ofMessage m) h.bounds (lt_succ_self q.sn)
  have hmsg : ∀ k m', (q.rebind (q.sn + 1) (.ofMessage m)).msgAt k = some m' → m' ∈ received ++ [m] ∧
      Numbered source k m' := by
    intro k m' hk
    rw [msgAt_rebind] at hk
    split at hk
    · next hkey =>
      cases hk
      exact ⟨mem_append_right _ (mem_singleton_self _), hkey ▸ hm⟩
    · obtain ⟨hmem, hnum⟩ := h.messages k m' hk
      exact ⟨mem_append_left _ hmem, hnum⟩
  have hP : ∀ k m', m' ∈ received ++ [m] ∧ Numbered source k m' → k < 2 ^ 63 := by
    rintro k m' ⟨hmem, hnum⟩
    obtain ⟨sn, hsn, rfl⟩ := map_eq_some_iff.mp hnum.sn
    exact (hrange m' hmem hnum.numbered sn hsn).2
  obtain ⟨q', ms, heq, hc⟩ := collapseFrom_spec (q.rebind (q.sn + 1) (.ofMessage m)) (q.sn + 1) _
    (succ_pos _) hlt (lt_succ_self _) hbounds.keys hmsg hP (Nat.le_refl _)
  have hnumbers : Forall₂ (Numbered source) (range' (q.sn + 1) (q'.sn + 1 - (q.sn + 1))) ms :=
    hc.messages.imp fun _ _ h => h.2
  obtain ⟨s, hs, hle, rfl⟩ := h.first
  have hge := hc.le
  have hreceived : numbersOf source (received ++ [m]) = numbersOf source received ++ [q.sn + 1] := by
    rw [numbersOf_append, numbersOf_of hm]
  refine ⟨q', ms, ?_, ?_, fun source' hne => numbersOf_other_forall₂ hne hnumbers, hc.bounds, ?_,
    fun k m' hk => ?_, hc.next, ?_⟩
  · have hsn : (q.rebind (q.sn + 1) (.ofMessage m)).sn = q.sn := rfl
    rw [collapse, hsn, next64_eq hlt]
    exact heq
  · intro m' hm'
    obtain ⟨i, hi, rfl⟩ := getElem_of_mem hm'
    have hlen := hc.messages.length_eq
    exact (hc.messages.get (i := i) (by omega) hi).1
  · refine ⟨s, ?_, by omega, ?_⟩
    · rw [hreceived, head?_append, hs]
      rfl
    · have hsplit : q'.sn + 1 - s = (q.sn + 1 - s) + (q'.sn + 1 - (q.sn + 1)) := by omega
      have hstart : s + (q.sn + 1 - s) = q.sn + 1 := by omega
      rw [numbersOf_forall₂ hnumbers, hsplit, ← range'_append_1, hstart]
  · by_cases hlow : q'.sn < k
    · rw [hc.above k hlow] at hk
      exact hmsg k m' hk
    · have hkey : q'.find k = none := by
        by_contra hfind
        have hb := hc.bounds.keys k (Table.mem_keys_iff.mpr hfind)
        omega
      unfold msgAt at hk
      rw [hkey] at hk
      cases hk
  · rw [hreceived]
    intro k hk
    by_cases hlow : k ≤ q'.sn
    · exact .inl hlow
    · refine .inr ?_
      rw [hc.above k (not_le.mp hlow), msgAt_rebind]
      split
      · rfl
      · next hne =>
        rcases mem_append.mp hk with hk | hk
        · exact (h.kept k hk).resolve_left (by omega)
        · exact absurd (mem_singleton.mp hk).symm hne

structure Inv (received : List Message) (s : Acknowledge) : Prop where
  hold : ∀ source q, s.hold.find source = some q → QueueInv received source q (numbersOf source s.passed)
  absent : ∀ source, s.hold.find source = none → numbersOf source received = [] ∧ numbersOf source s.passed = []
  passed : ∀ m ∈ s.passed, m ∈ received

variable {s t : Acknowledge}

theorem recvNrtm_inv (h : Inv received s) (m : Message) :
    Inv received { s with hold := recvNrtm s.hold m } := by
  unfold recvNrtm
  split
  · exact h
  · next map _ =>
    have hfind := fun source => Table.find_map (recvHistory map) s.hold source
    refine ⟨fun source q hq => ?_, fun source hnone => ?_, h.passed⟩
    · have hq' := (hfind source).symm.trans hq
      obtain ⟨q₀, hq₀, rfl⟩ := map_eq_some_iff.mp hq'
      exact recvHistory_inv map (h.hold source q₀ hq₀)
    · exact h.absent source (map_eq_none_iff.mp ((hfind source).symm.trans hnone))

theorem Numbered.other {source' : Address} (hm : Numbered source k m) (hne : source ≠ source') :
    numbersOf source' [m] = [] := by
  refine numbersOf_other ?_
  rw [hm.source]
  exact fun h => hne (some.inj h)

theorem Inv.arrive {ms : List Message} (h : Inv received s) (hm : Numbered source k m)
    (hfind : ∀ source', source ≠ source' → t.hold.find source' = s.hold.find source')
    (hpassed : t.passed = s.passed ++ ms) (hms : ∀ m' ∈ ms, m' ∈ received ++ [m])
    (hothers : ∀ source', source ≠ source' → numbersOf source' ms = [])
    (hself : ∃ q, t.hold.find source = some q ∧
      QueueInv (received ++ [m]) source q (numbersOf source (s.passed ++ ms))) :
    Inv (received ++ [m]) t := by
  have hsame : ∀ source', source ≠ source' → numbersOf source' t.passed = numbersOf source' s.passed := by
    intro source' hne
    rw [hpassed, numbersOf_append, hothers source' hne, append_nil]
  obtain ⟨q₁, hq₁, hinv⟩ := hself
  refine ⟨fun source' q hq => ?_, fun source' hnone => ?_, fun m' hm' => ?_⟩
  · by_cases hne : source = source'
    · subst hne
      cases hq₁.symm.trans hq
      rwa [hpassed]
    · rw [hfind source' hne] at hq
      rw [hsame source' hne]
      exact (h.hold source' q hq).append_other (hm.other hne)
  · have hne : source ≠ source' := by
      rintro rfl
      cases hq₁.symm.trans hnone
    rw [hfind source' hne] at hnone
    obtain ⟨hr, hp⟩ := h.absent source' hnone
    refine ⟨?_, (hsame source' hne).trans hp⟩
    rw [numbersOf_append, hr, hm.other hne]
    rfl
  · rw [hpassed] at hm'
    rcases mem_append.mp hm' with hm' | hm'
    · exact mem_append_left _ (h.passed m' hm')
    · exact hms m' hm'

theorem queueInv_first (hm : Numbered source k m) (hlt : k < 2 ^ 63) (hnone : numbersOf source received = []) :
    QueueInv (received ++ [m]) source (.ofNumber k) [k] := by
  have hreceived : numbersOf source (received ++ [m]) = [k] := by
    rw [numbersOf_append, hnone, numbersOf_of hm]
    rfl
  refine ⟨⟨hlt, fun k hk => absurd hk not_mem_nil⟩, ⟨k, ?_, Nat.le_refl _, ?_⟩, fun k m hk => ?_, rfl, ?_⟩
  · rw [hreceived]
    rfl
  · have hone : (ofNumber k).sn + 1 - k = 1 := Nat.add_sub_cancel_left k 1
    rw [hone]
    rfl
  · cases hk
  · rw [hreceived]
    intro k' hk'
    exact .inl (Nat.le_of_eq (mem_singleton.mp hk'))

theorem QueueInv.duplicate (h : QueueInv received source q nums) (hm : Numbered source k m)
    (hle : k ≤ q.sn) : QueueInv (received ++ [m]) source q nums := by
  obtain ⟨s, hs, hle', hnums⟩ := h.first
  refine ⟨h.bounds, ⟨s, ?_, hle', hnums⟩, fun k m hk => ?_, h.next, ?_⟩
  · rw [numbersOf_append, head?_append, hs]
    rfl
  · obtain ⟨hmem, hnum⟩ := h.messages k m hk
    exact ⟨mem_append_left _ hmem, hnum⟩
  · rw [numbersOf_append, numbersOf_of hm]
    intro k' hk'
    rcases mem_append.mp hk' with hk' | hk'
    · exact h.kept k' hk'
    · rw [mem_singleton.mp hk']
      exact .inl hle

theorem QueueInv.later (h : QueueInv received source q nums) (hm : Numbered source k m)
    (hlow : q.sn < k) (hnext : k ≠ q.sn + 1) :
    QueueInv (received ++ [m]) source (q.rebind k (.ofMessage m)) nums := by
  obtain ⟨s, hs, hle, hnums⟩ := h.first
  refine ⟨bounds_rebind h.bounds hlow, ⟨s, ?_, hle, hnums⟩, fun k' m' hk' => ?_, ?_, ?_⟩
  · rw [numbersOf_append, head?_append, hs]
    rfl
  · rw [msgAt_rebind] at hk'
    split at hk'
    · next hkey =>
      cases hk'
      exact ⟨mem_append_right _ (mem_singleton_self _), hkey ▸ hm⟩
    · obtain ⟨hmem, hnum⟩ := h.messages k' m' hk'
      exact ⟨mem_append_left _ hmem, hnum⟩
  · rw [msgAt_rebind]
    split
    · next hkey => exact absurd hkey hnext
    · exact h.next
  · rw [numbersOf_append, numbersOf_of hm]
    intro k' hk'
    rw [msgAt_rebind]
    rcases mem_append.mp hk' with hk' | hk'
    · rcases h.kept k' hk' with hle | hsome
      · exact .inl hle
      · refine .inr ?_
        split
        · rfl
        · exact hsome
    · rw [mem_singleton.mp hk', if_pos rfl]
      exact .inr rfl

theorem recvNumbered_inv (h : Inv received s) (hm : Numbered source k m)
    (hrange : ∀ m' ∈ received ++ [m], InRange m') : Inv (received ++ [m]) (s.recvNumbered source k m) := by
  have hmem : m ∈ received ++ [m] := mem_append_right _ (mem_singleton_self _)
  have hnothing : ∀ m' ∈ ([] : List Message), m' ∈ received ++ [m] := fun _ hm' => absurd hm' not_mem_nil
  unfold recvNumbered
  cases hq : s.hold.find source with
  | none =>
    obtain ⟨hnone, hnonePassed⟩ := h.absent source hq
    have hlt : k < 2 ^ 63 := by
      obtain ⟨sn, hsn, rfl⟩ := map_eq_some_iff.mp hm.sn
      exact (hrange m hmem hm.numbered sn hsn).2
    refine h.arrive hm (fun source' hne => ?_) (show _ = s.passed ++ [m] from rfl) (fun _ => mem_append_right _)
      (fun _ => hm.other) ⟨.ofNumber k, ?_, ?_⟩
    · rw [Table.find_bind, if_neg fun hc => hne hc.1]
    · rw [Table.find_bind, if_pos ⟨rfl, hq⟩]
    · rw [numbersOf_append, hnonePassed, numbersOf_of hm]
      exact queueInv_first hm hlt hnone
  | some q =>
    have hinv := h.hold source q hq
    have hset : ∀ q' source', (s.hold.set source q').find source' =
        if source = source' then some q' else s.hold.find source' := by
      intro q' source'
      rw [Table.find_set, hq]
      simp
    simp only
    split
    · -- a duplicate
      next hle =>
      refine h.arrive hm (fun _ _ => rfl) (append_nil _).symm hnothing (fun _ _ => rfl) ⟨q, hq, ?_⟩
      rw [append_nil]
      exact hinv.duplicate hm hle
    · split
      · -- the next message
        next hlow hnext =>
        rw [next64_eq hinv.bounds.lt] at hnext
        subst hnext
        obtain ⟨q', ms, heq, hms, hothers, hq'⟩ := collapse_inv hinv hm hrange
        rw [heq]
        refine h.arrive hm (fun source' hne => ?_) rfl hms hothers ⟨q', ?_, ?_⟩
        · rw [hset, if_neg hne]
        · rw [hset, if_pos rfl]
        · rw [numbersOf_append]
          exact hq'
      · -- a later message
        next hlow hnext =>
        rw [next64_eq hinv.bounds.lt] at hnext
        refine h.arrive hm (fun source' hne => ?_) (append_nil _).symm hnothing (fun _ _ => rfl)
          ⟨q.rebind k (.ofMessage m), ?_, ?_⟩
        · rw [hset, if_neg hne]
        · rw [hset, if_pos rfl]
        · rw [append_nil]
          exact hinv.later hm (not_le.mp hlow) hnext

/-! ## Runs -/

/-- The messages of a run. -/
def arrivals : List AckStep → List Message
  | [] => []
  | .recv m :: rest => m :: arrivals rest
  | .track _ :: rest => arrivals rest

theorem recv_inv (h : Inv received s) (hrange : ∀ m' ∈ received ++ [m], InRange m')
    (hrecv : s.recv m = some t) : Inv (received ++ [m]) t := by
  have hinv := recvNrtm_inv h m
  unfold recv at hrecv
  split at hrecv
  · next hnum =>
    simp only [bind_eq_some_iff, map_eq_some_iff] at hrecv
    obtain ⟨source, hsource, sn, hsn, rfl⟩ := hrecv
    exact recvNumbered_inv hinv ⟨hnum, hsource, by rw [hsn, map_some]⟩ hrange
  · next hnum =>
    cases hrecv
    have hnone : ∀ source, numbersOf source [m] = [] := by
      simp [numbersOf, hnum]
    refine ⟨fun source q hq => ?_, fun source hq => ?_, fun m' hm' => ?_⟩
    · simp only at hq ⊢
      rw [numbersOf_append, hnone, append_nil]
      exact (hinv.hold source q hq).append_other (hnone source)
    · obtain ⟨hr, hp⟩ := hinv.absent source hq
      rw [numbersOf_append, numbersOf_append, hnone, hr, hp]
      exact ⟨rfl, rfl⟩
    · rcases mem_append.mp hm' with hm' | hm'
      · exact mem_append_left _ (hinv.passed m' hm')
      · exact mem_append_right _ hm'

theorem track_inv {P : AckParameters} {source : Address} (h : Inv received s)
    (hstep : step P s (.track source) = some t) : Inv received t := by
  simp only [step, bind_eq_some_iff, map_eq_some_iff, Prod.exists] at hstep
  obtain ⟨q, hq, q', out, htrack, rfl⟩ := hstep
  have hset : ∀ source', (s.hold.set source q').find source' =
      if source = source' then some q' else s.hold.find source' := by
    intro source'
    rw [Table.find_set, hq]
    simp
  refine ⟨fun source' q'' hq'' => ?_, fun source' hnone => ?_, h.passed⟩
  · simp only at hq''
    rw [hset] at hq''
    split at hq''
    · next hsame =>
      subst hsame
      cases hq''
      exact trackQueue_inv (h.hold source q hq) htrack
    · exact h.hold source' q'' hq''
  · simp only at hnone
    rw [hset] at hnone
    split at hnone
    · cases hnone
    · exact h.absent source' hnone

theorem run_inv {P : AckParameters} {labels : List AckStep} (h : Inv received s)
    (hrange : ∀ m ∈ received ++ arrivals labels, InRange m) (hrun : run (step P) s labels = some t) :
    Inv (received ++ arrivals labels) t := by
  induction labels generalizing s received with
  | nil =>
    cases hrun
    rw [arrivals, append_nil]
    exact h
  | cons l labels ih =>
    obtain ⟨u, hstep, hrest⟩ := run_cons_some hrun
    cases l with
    | track source => exact ih (track_inv h hstep) hrange hrest
    | recv m =>
      have hcons : received ++ arrivals (.recv m :: labels) = (received ++ [m]) ++ arrivals labels := by
        rw [arrivals, append_assoc, singleton_append]
      rw [hcons] at hrange ⊢
      exact ih (recv_inv h (fun m' hm' => hrange m' (mem_append_left _ hm')) hstep) hrange hrest

/-- **Delivery.** However the messages arrive, with losses and duplicates: what was passed up
arrived; for each source it is nothing before a message of it has arrived, and else the
consecutive numbers from that of its first message on, each once, up to one that has not
arrived yet. -/
theorem delivery (P : AckParameters) {labels : List AckStep} {t : Acknowledge}
    (hrange : ∀ m ∈ arrivals labels, InRange m)
    (h : run (step P) start labels = some t) :
    (∀ m ∈ t.passed, m ∈ arrivals labels) ∧
    ∀ source,
      match (numbersOf source (arrivals labels)).head? with
      | none => numbersOf source t.passed = []
      | some s => ∃ n, 0 < n ∧ numbersOf source t.passed = range' s n ∧
          s + n ∉ numbersOf source (arrivals labels) := by
  have hstart : Inv [] start :=
    ⟨fun source q hq => (some_ne_none q hq.symm).elim, fun source _ => ⟨rfl, rfl⟩, fun m hm => absurd hm not_mem_nil⟩
  have hinv : Inv (arrivals labels) t := run_inv hstart hrange h
  refine ⟨hinv.passed, fun source => ?_⟩
  cases hq : t.hold.find source with
  | none =>
    obtain ⟨hr, hp⟩ := hinv.absent source hq
    rw [hr]
    exact hp
  | some q =>
    obtain ⟨hbounds, ⟨s, hs, hle, hnums⟩, hmessages, hnext, hkept⟩ := hinv.hold source q hq
    rw [hs]
    refine ⟨q.sn + 1 - s, by omega, hnums, ?_⟩
    have hend : s + (q.sn + 1 - s) = q.sn + 1 := by omega
    rw [hend]
    intro hmem
    rcases hkept _ hmem with hlow | hsome
    · omega
    · rw [hnext] at hsome
      cases hsome

/-- Number 6 is late, and number 7 arrives twice. -/
def sampleArrivals : List AckStep :=
  let source : Address := ⟨1, 1⟩
  let message (sn : UInt64) := ((Message.empty.add (.data [])).add (.sn sn)).add (.fromAddress source)
  [.recv (message 5), .recv (message 7), .track source, .recv (message 7), .recv (message 6)]

theorem delivery_sample : ∃ t, run (step ⟨1, 10⟩) start sampleArrivals = some t ∧
    numbersOf ⟨1, 1⟩ t.passed = [5, 6, 7] ∧ ∀ m ∈ t.passed, m ∈ arrivals sampleArrivals := by
  have hrun : (run (step ⟨1, 10⟩) start sampleArrivals).map (fun t => numbersOf ⟨1, 1⟩ t.passed) =
      some [5, 6, 7] := by decide_cbv
  obtain ⟨t, h, hpassed⟩ := map_eq_some_iff.mp hrun
  exact ⟨t, h, hpassed, (delivery ⟨1, 10⟩ (by decide) h).1⟩

end Acknowledge

end Atcd.Rmcast
