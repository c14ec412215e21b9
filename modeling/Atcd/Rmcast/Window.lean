import Atcd.Core.Run
import Atcd.Rmcast.Acknowledge
/-!
# The loops of the acknowledgement window

`collapse` passes up what has become consecutive, and takes it out of the queue of its source;
`unbind` lowers `max_sn_` when the largest number goes. Both count in 64 bits, and any number may
come from the network, 0 among them. Here the loops have a limit on their turns: the result is
`none` when they do not end within it.

Results:
* `recv_within_iff`: the loops of `recv` end within as many turns as the queue has entries,
  unless the queue is at number 0 and the message makes it one of consecutive messages.
* `recv_endless`: then no number of turns is enough.
* `first_number_zero`: messages 0 and 1 of a new source are enough for that.
-/
namespace Atcd.Rmcast

open Atcd.Core List Option Table Acknowledge AckQueue

namespace AckQueue

/-- The loop of `unbind` on `max_sn_`, and how many turns are left.
mirrors ACE/protocols/ace/RMCast/Acknowledge.h:177-181 -/
def lowerWithin (entries : Table Nat Descr) (sn : Nat) : Nat → Nat → Option (Nat × Nat)
  | 0, maxSn => if sn ≤ maxSn then none else some (maxSn, 0)
  | turns + 1, maxSn =>
    if sn ≤ maxSn then
      if (entries.find maxSn).isSome then some (maxSn, turns)
      else lowerWithin entries sn turns (prev64 maxSn)
    else some (maxSn, turns + 1)

/-- mirrors Acknowledge.h:170-185 -/
def unbindWithin (turns : Nat) (q : AckQueue) (sn : Nat) : Option (AckQueue × Nat) :=
  let entries := q.entries.unbind sn
  if (q.find sn).isSome ∧ sn = q.maxSn_ then
    (lowerWithin entries q.sn turns (prev64 q.maxSn_)).map fun r =>
      ({ q with
        entries := entries
        maxSn_ := r.1 }, r.2)
  else some ({ q with entries := entries }, turns)

end AckQueue

namespace Acknowledge

/-- `lowering` are the turns of all loops of `unbind` together.
mirrors ACE/protocols/ace/RMCast/Acknowledge.cpp:57-71 -/
def collapseWithin : Nat → Nat → AckQueue → Nat → Option (AckQueue × List Message)
  | 0, _, q, sn =>
    match (q.find sn).bind Descr.msg with
    | none => some ({ q with sn := prev64 sn }, [])
    | some _ => none
  | turns + 1, lowering, q, sn =>
    match (q.find sn).bind Descr.msg with
    | none => some ({ q with sn := prev64 sn }, [])
    | some m =>
      (q.unbindWithin lowering sn).bind fun r =>
        (collapseWithin turns r.2 r.1 (next64 sn)).map fun r => (r.1, m :: r.2)

/-- mirrors Acknowledge.cpp:272-307 -/
def recvNumberedWithin (limit : Nat) (s : Acknowledge) (source : Address) (sn : Nat) (m : Message) :
    Option Acknowledge :=
  match s.hold.find source with
  | none => some
    { s with
      hold := s.hold.bind source (.ofNumber sn)
      passed := s.passed ++ [m] }
  | some q =>
    if sn ≤ q.sn then some s
    else if sn = next64 q.sn then
      (collapseWithin limit limit (q.rebind sn (.ofMessage m)) (next64 q.sn)).map fun r =>
        { s with
          hold := s.hold.set source r.1
          passed := s.passed ++ r.2 }
    else some { s with hold := s.hold.set source (q.rebind sn (.ofMessage m)) }

/-- mirrors Acknowledge.cpp:236-317 -/
def recvWithin (limit : Nat) (s : Acknowledge) (m : Message) : Option Acknowledge :=
  let s := { s with hold := recvNrtm s.hold m }
  if numbered m then
    m.source.bind fun source => m.sn.bind fun sn => s.recvNumberedWithin limit source sn.toNat m
  else some { s with passed := s.passed ++ [m] }

/-- The tracker passes over an empty queue.
mirrors Acknowledge.cpp:86-100 -/
def trackWithin (P : AckParameters) (s : Acknowledge) (source : Address) : Option Acknowledge :=
  (s.hold.find source).bind fun q =>
    if q.entries = [] then some s
    else (trackQueue P source q).map fun r => { s with hold := s.hold.set source r.1 }

def stepWithin (P : AckParameters) (limit : Nat) (s : Acknowledge) : AckStep → Option Acknowledge
  | .recv m => s.recvWithin limit m
  | .track source => s.trackWithin P source

/-- The queue of the source of a message, with the message in it. -/
def queueWith (s : Acknowledge) (m : Message) : Option AckQueue :=
  m.source.bind fun source => m.sn.bind fun sn =>
    ((recvNrtm s.hold m).find source).map fun q => q.rebind sn.toNat (.ofMessage m)

def backlog (s : Acknowledge) (m : Message) : Nat :=
  ((s.queueWith m).map fun q => q.entries.length).getD 0

/-- With message 1 the queue of its source, which is at number 0, holds the messages from 1 on,
and nothing else. -/
def Endless (s : Acknowledge) (m : Message) : Prop :=
  m.sn = some 1 ∧ ∃ q ∈ s.queueWith m, q.sn = 0 ∧
    ∀ e ∈ q.entries, e.2.lost = false ∧ e.1 ≤ q.entries.length

end Acknowledge

/-! ## The window -/

namespace AckQueue

/-- The numbers in the queue are above those passed up, and `max_sn_` is the largest. -/
structure Window (q : AckQueue) : Prop where
  nodup : q.entries.keys.Nodup
  keys : ∀ k ∈ q.entries.keys, q.sn < k ∧ k ≤ q.maxSn_
  top : q.maxSn_ ≤ q.sn ∨ q.maxSn_ ∈ q.entries.keys
  sn_lt : q.sn < 2 ^ 64
  max_lt : q.maxSn_ < 2 ^ 64

variable {q : AckQueue} {k : Nat} {d : Descr}

theorem mem_keys_rebind (t : Table Nat Descr) (k' : Nat) :
    k' ∈ (t.rebind k d).keys ↔ k' = k ∨ k' ∈ t.keys := by
  rw [mem_keys_iff, find_rebind, mem_keys_iff]
  by_cases hk : k = k'
  · simp [hk]
  · rw [if_neg hk]
    simp [Ne.symm hk]

theorem mem_keys_bind (t : Table Nat Descr) (k' : Nat) :
    k' ∈ (t.bind k d).keys ↔ k' = k ∨ k' ∈ t.keys := by
  unfold Table.bind
  split
  · rename_i hsome
    have hmem : k ∈ t.keys := mem_keys_iff.mpr (isSome_iff_ne_none.mp hsome)
    constructor
    · exact .inr
    · rintro (rfl | hk)
      · exact hmem
      · exact hk
  · unfold Table.keys
    rw [map_append, mem_append, map_singleton, mem_singleton]
    exact or_comm

/-- One more number above those passed up, with `max_sn_` as `bind` and `rebind` keep it. -/
theorem Window.grow (h : q.Window) (hk : q.sn < k) (hlt : k < 2 ^ 64) {entries : Table Nat Descr}
    (hnodup : entries.keys.Nodup) (hkeys : ∀ k', k' ∈ entries.keys ↔ k' = k ∨ k' ∈ q.entries.keys) :
    Window ⟨entries, q.sn, if q.find k = none then max q.maxSn_ k else q.maxSn_⟩ := by
  have hmax := h.max_lt
  by_cases hnew : q.find k = none
  · rw [if_pos hnew]
    refine ⟨hnodup, fun k' hk' => ?_, .inr ?_, h.sn_lt, by dsimp only; omega⟩
    · rcases (hkeys k').mp hk' with rfl | hold
      · exact ⟨hk, Nat.le_max_right _ _⟩
      · obtain ⟨hlo, hhi⟩ := h.keys k' hold
        exact ⟨hlo, Nat.le_trans hhi (Nat.le_max_left _ _)⟩
    · dsimp only
      rw [hkeys]
      rcases Nat.le_total q.maxSn_ k with hle | hle
      · exact .inl (Nat.max_eq_right hle)
      · rw [Nat.max_eq_left hle]
        exact .inr (h.top.resolve_left (by omega))
  · rw [if_neg hnew]
    have hold : k ∈ q.entries.keys := mem_keys_iff.mpr hnew
    refine ⟨hnodup, fun k' hk' => ?_, ?_, h.sn_lt, hmax⟩
    · rcases (hkeys k').mp hk' with rfl | hk'
      · exact h.keys k' hold
      · exact h.keys k' hk'
    · exact h.top.imp_right fun htop => (hkeys _).mpr (.inr htop)

theorem Window.bind (h : q.Window) (hk : q.sn < k) (hlt : k < 2 ^ 64) : (q.bind k d).Window :=
  h.grow hk hlt (nodup_bind h.nodup) (mem_keys_bind q.entries)

theorem Window.rebind (h : q.Window) (hk : q.sn < k) (hlt : k < 2 ^ 64) : (q.rebind k d).Window :=
  h.grow hk hlt (nodup_rebind h.nodup) (mem_keys_rebind q.entries)

theorem Window.maxSn (h : q.Window) : q.sn ≤ q.maxSn ∧ q.maxSn < 2 ^ 64 := by
  unfold AckQueue.maxSn
  split
  · exact ⟨Nat.le_refl _, h.sn_lt⟩
  · rename_i hne
    obtain ⟨e, he⟩ := exists_mem_of_ne_nil _ hne
    obtain ⟨hlo, hhi⟩ := h.keys e.1 (mem_map_of_mem he)
    exact ⟨by omega, h.max_lt⟩

/-! ## Lowering -/

theorem lowerWithin_nil (sn turns n : Nat) (hpos : 0 < sn) (hlt : n < 2 ^ 64)
    (hturns : n + 1 ≤ sn + turns) : ∃ r, lowerWithin [] sn turns n = some r := by
  induction turns generalizing n with
  | zero =>
    unfold lowerWithin
    rw [if_neg (by omega)]
    exact ⟨_, rfl⟩
  | succ turns ih =>
    unfold lowerWithin
    by_cases hle : sn ≤ n
    · have hprev : prev64 n = n - 1 := by
        unfold prev64
        omega
      rw [if_pos hle, find_nil, isSome_none, if_neg Bool.false_ne_true, hprev]
      exact ih (n - 1) (by omega) (by omega)
    · rw [if_neg hle]
      exact ⟨_, rfl⟩

theorem lowerWithin_lt {sn turns n : Nat} {r : Nat × Nat} (h : lowerWithin [] sn turns n = some r) :
    r.1 < sn := by
  induction turns generalizing n with
  | zero =>
    unfold lowerWithin at h
    split at h
    · cases h
    · cases h
      dsimp only
      omega
  | succ turns ih =>
    unfold lowerWithin at h
    split at h
    · rw [find_nil, isSome_none, if_neg Bool.false_ne_true] at h
      exact ih h
    · cases h
      dsimp only
      omega

/-- From number 0 the search does not end. -/
theorem lowerWithin_zero (turns n : Nat) : lowerWithin [] 0 turns n = none := by
  induction turns generalizing n with
  | zero => rfl
  | succ turns ih =>
    unfold lowerWithin
    rw [if_pos (Nat.zero_le n), find_nil, isSome_none, if_neg Bool.false_ne_true]
    exact ih _

/-- The messages from number `sn` on, and nothing else. -/
def Full (q : AckQueue) (sn : Nat) : Prop :=
  ∀ e ∈ q.entries, e.2.lost = false ∧ e.1 < sn + q.entries.length

/-- What `collapse` has before a turn for number `sn`: the numbers below are out of the queue. -/
structure Turn (q : AckQueue) (sn : Nat) : Prop where
  nodup : q.entries.keys.Nodup
  keys : ∀ k ∈ q.entries.keys, sn ≤ k ∧ k ≤ q.maxSn_
  top : q.maxSn_ ∈ q.entries.keys
  above : q.sn < sn
  max_lt : q.maxSn_ < 2 ^ 64

variable {sn : Nat} {m : Message}

theorem Turn.length_pos (h : q.Turn sn) : 0 < q.entries.length := by
  obtain ⟨e, he, -⟩ := mem_map.mp h.top
  exact length_pos_of_mem he

/-- The numbers in the queue are of 64 bits. -/
theorem Turn.sn_le (h : q.Turn sn) : sn ≤ q.maxSn_ := (h.keys _ h.top).1

theorem mem_of_msg (hmsg : (q.find sn).bind Descr.msg = some m) :
    ∃ d, (sn, d) ∈ q.entries ∧ d.lost = false ∧ q.find sn = some d := by
  obtain ⟨d, hd, hm⟩ := bind_eq_some_iff.mp hmsg
  refine ⟨d, mem_of_find hd, ?_, hd⟩
  unfold Descr.lost
  rw [hm]
  rfl

theorem length_unbind {t : Table Nat Descr} (hnodup : t.keys.Nodup) (hmem : (sn, d) ∈ t) :
    (t.unbind sn).length + 1 = t.length := by
  induction t with
  | nil => cases hmem
  | cons e t ih =>
    obtain ⟨hnew, hrest⟩ := nodup_cons.mp hnodup
    rcases mem_cons.mp hmem with rfl | hmem
    · have hself : Table.unbind t sn = t := by
        refine filter_eq_self.mpr fun x hx => decide_eq_true fun hk => ?_
        have hin : x.1 ∈ keys t := mem_map_of_mem hx
        rw [hk] at hin
        exact hnew hin
      unfold Table.unbind at hself ⊢
      rw [filter_cons_of_neg (by simp), hself]
      rfl
    · have hin : sn ∈ keys t := mem_map_of_mem hmem
      have hne : e.1 ≠ sn := fun hk => hnew (hk ▸ hin)
      have hlen := ih hrest hmem
      unfold Table.unbind at hlen ⊢
      rw [filter_cons_of_pos (by simpa using hne), length_cons, length_cons]
      omega

/-- The largest number is the last one. -/
theorem Turn.unbind_max (h : q.Turn q.maxSn_) : q.entries.unbind q.maxSn_ = [] := by
  refine filter_eq_nil_iff.mpr fun e he => ?_
  obtain ⟨hlo, hhi⟩ := h.keys e.1 (mem_map_of_mem he)
  simp
  omega

theorem Turn.next (h : q.Turn sn) (hne : sn ≠ q.maxSn_) :
    Turn { q with entries := q.entries.unbind sn } (sn + 1) := by
  have hkeys : ∀ k, k ∈ (q.entries.unbind sn).keys ↔ k ∈ q.entries.keys ∧ k ≠ sn := by
    intro k
    rw [Table.mem_keys_iff, Table.find_unbind, Table.mem_keys_iff]
    by_cases hsn : sn = k
    · simp [hsn]
    · simp [hsn, Ne.symm hsn]
  refine ⟨nodup_unbind h.nodup, fun k hk => ?_, ?_, ?_, h.max_lt⟩
  · obtain ⟨hk, hsn⟩ := (hkeys k).mp hk
    obtain ⟨hlo, hhi⟩ := h.keys k hk
    exact ⟨by omega, hhi⟩
  · exact (hkeys _).mpr ⟨h.top, Ne.symm hne⟩
  · have habove := h.above
    show q.sn < sn + 1
    omega

/-- A turn leaves it open whether the rest is consecutive. -/
theorem Turn.full_iff (h : q.Turn sn) (hmem : (sn, d) ∈ q.entries) (hd : d.lost = false) :
    Full { q with entries := q.entries.unbind sn } (sn + 1) ↔ q.Full sn := by
  have hlen := length_unbind h.nodup hmem
  unfold Full
  dsimp only
  constructor
  · intro hfull e he
    by_cases hk : e.1 = sn
    · have hdesc : e.2 = d := by
        have hfind := Table.find_of_mem h.nodup hmem
        have hfind' := Table.find_of_mem h.nodup (show (e.1, e.2) ∈ q.entries from he)
        rw [hk, hfind] at hfind'
        exact (some.inj hfind').symm
      exact ⟨hdesc ▸ hd, by omega⟩
    · obtain ⟨hlost, hlt⟩ := hfull e (mem_filter.mpr ⟨he, by simpa using hk⟩)
      exact ⟨hlost, by omega⟩
  · intro hfull e he
    obtain ⟨hlost, hlt⟩ := hfull e (mem_filter.mp he).1
    exact ⟨hlost, by omega⟩

/-- Consecutive messages begin with the first. -/
theorem Turn.first (h : q.Turn sn) (hfull : q.Full sn) :
    ∃ m, (q.find sn).bind Descr.msg = some m := by
  have hsub : q.entries.keys ⊆ range' sn q.entries.length := by
    intro k hk
    obtain ⟨e, he, rfl⟩ := mem_map.mp hk
    have hlt := (hfull e he).2
    have hlo := (h.keys e.1 hk).1
    exact mem_range'_1.mpr ⟨hlo, hlt⟩
  have hperm : q.entries.keys.Perm (range' sn q.entries.length) := by
    refine (h.nodup.subperm hsub).perm_of_length_le (Nat.le_of_eq ?_)
    rw [length_range', Table.keys, length_map]
  have hpos : 0 < q.entries.length := h.length_pos
  have hmem : sn ∈ q.entries.keys :=
    hperm.mem_iff.mpr (mem_range'_1.mpr ⟨Nat.le_refl _, by omega⟩)
  obtain ⟨e, he, hk⟩ := mem_map.mp hmem
  have hfind := Table.find_of_mem h.nodup (show (e.1, e.2) ∈ q.entries from he)
  have hlost := (hfull e he).1
  cases hmsg : e.2.msg with
  | none =>
    unfold Descr.lost at hlost
    rw [hmsg] at hlost
    cases hlost
  | some m =>
    refine ⟨m, ?_⟩
    unfold find
    rw [← hk, hfind]
    exact hmsg

end AckQueue

namespace Acknowledge

variable {q : AckQueue} {sn turns lowering : Nat}

theorem collapseWithin_stop (hmsg : (q.find sn).bind Descr.msg = none) :
    collapseWithin turns lowering q sn = some ({ q with sn := prev64 sn }, []) := by
  cases turns <;> unfold collapseWithin <;> rw [hmsg]

theorem Turn.stop (h : q.Turn sn) : AckQueue.Window { q with sn := prev64 sn } := by
  have hle := h.sn_le
  have hmax := h.max_lt
  have habove := h.above
  have hprev : prev64 sn = sn - 1 := by
    unfold prev64
    omega
  refine ⟨h.nodup, fun k hk => ?_, .inr h.top, ?_, hmax⟩
  · obtain ⟨hlo, hhi⟩ := h.keys k hk
    refine ⟨?_, hhi⟩
    dsimp only
    omega
  · dsimp only
    omega

theorem collapseWithin_emptied (turns lowering sn n n' : Nat) :
    collapseWithin turns lowering ⟨[], sn, n⟩ n' = some (⟨[], prev64 n', n⟩, []) :=
  collapseWithin_stop rfl

/-- What `unbind` does to the number of a turn. -/
theorem unbindWithin_cases (h : q.Turn sn) {d : Descr} (hfind : q.find sn = some d) :
    (sn ≠ q.maxSn_ ∧
      q.unbindWithin lowering sn = some ({ q with entries := q.entries.unbind sn }, lowering)) ∨
    (sn = q.maxSn_ ∧ q.entries.length = 1 ∧ q.unbindWithin lowering sn =
      (AckQueue.lowerWithin [] q.sn lowering (sn - 1)).map fun r => (⟨[], q.sn, r.1⟩, r.2)) := by
  unfold unbindWithin
  by_cases htop : sn = q.maxSn_
  · subst htop
    have habove := h.above
    have hmax := h.max_lt
    have hprev : prev64 q.maxSn_ = q.maxSn_ - 1 := by
      unfold prev64
      omega
    have hnil := h.unbind_max
    have hlen := length_unbind h.nodup (mem_of_find hfind)
    rw [hnil] at hlen
    rw [if_pos ⟨by rw [hfind]; rfl, rfl⟩, hnil, hprev]
    exact .inr ⟨rfl, hlen.symm, rfl⟩
  · rw [if_neg fun hc => htop hc.2]
    exact .inl ⟨htop, rfl⟩

/-- One entry with a message is consecutive. -/
theorem full_single {d : Descr} (hmem : (sn, d) ∈ q.entries) (hlost : d.lost = false)
    (hone : q.entries.length = 1) : q.Full sn := by
  obtain ⟨x, hx⟩ := length_eq_one_iff.mp hone
  intro e he
  rw [hx, mem_singleton] at he hmem
  subst he
  rw [← hmem, hone]
  exact ⟨hlost, Nat.lt_succ_self _⟩

theorem next64_of_turn (h : q.Turn sn) (hne : sn ≠ q.maxSn_) : next64 sn = sn + 1 := by
  have hle := h.sn_le
  have hmax := h.max_lt
  unfold next64
  omega

/-- **The loop of `collapse`** ends within as many turns as there are entries, and so do the
loops of `unbind`, unless the queue is at number 0 and is emptied. -/
theorem collapse_ends (h : q.Turn sn) (hturns : q.entries.length ≤ turns)
    (hlow : sn + q.entries.length ≤ q.sn + 1 + lowering) (hzero : q.sn = 0 → ¬q.Full sn) :
    ∃ r, collapseWithin turns lowering q sn = some r := by
  induction turns generalizing q sn with
  | zero =>
    have hpos := h.length_pos
    omega
  | succ turns ih =>
    cases hmsg : (q.find sn).bind Descr.msg with
    | none => exact ⟨_, collapseWithin_stop hmsg⟩
    | some m =>
      obtain ⟨d, hmem, hlost, hfind⟩ := mem_of_msg hmsg
      unfold collapseWithin
      rw [hmsg]
      dsimp only
      rcases unbindWithin_cases h hfind with ⟨hne, hunbind⟩ | ⟨htop, hone, hunbind⟩
      · have hlen := length_unbind h.nodup hmem
        obtain ⟨r, hr⟩ := ih (h.next hne) (by dsimp only; omega) (by dsimp only; omega)
          fun hz hfull => hzero hz ((h.full_iff hmem hlost).mp hfull)
        rw [hunbind, bind_some, next64_of_turn h hne, hr]
        exact ⟨_, rfl⟩
      · -- the last entry goes: `max_sn_` is lowered below the numbers passed up
        have hpos : 0 < q.sn := Nat.pos_of_ne_zero fun hz => hzero hz (full_single hmem hlost hone)
        have hmax := h.max_lt
        obtain ⟨r, hr⟩ := lowerWithin_nil q.sn lowering (sn - 1) hpos (by omega) (by omega)
        rw [hunbind, hr, map_some, bind_some, collapseWithin_emptied]
        exact ⟨_, rfl⟩

theorem collapse_window (h : q.Turn sn) {r : AckQueue × List Message}
    (hr : collapseWithin turns lowering q sn = some r) : r.1.Window := by
  induction turns generalizing q sn r with
  | zero =>
    unfold collapseWithin at hr
    split at hr
    · cases hr
      exact Turn.stop h
    · cases hr
  | succ turns ih =>
    unfold collapseWithin at hr
    split at hr
    · cases hr
      exact Turn.stop h
    · rename_i m hmsg
      obtain ⟨d, hmem, hlost, hfind⟩ := mem_of_msg hmsg
      rcases unbindWithin_cases h hfind with ⟨hne, hunbind⟩ | ⟨htop, -, hunbind⟩
      · rw [hunbind, bind_some, next64_of_turn h hne] at hr
        obtain ⟨r', hr', rfl⟩ := map_eq_some_iff.mp hr
        exact ih (r := r') (h.next hne) hr'
      · rw [hunbind, bind_map] at hr
        obtain ⟨n, hn, hr⟩ := bind_eq_some_iff.mp hr
        have hlt := lowerWithin_lt hn
        have habove := h.above
        have hmax := h.max_lt
        have hback : prev64 (next64 sn) = sn := by
          unfold prev64 next64
          omega
        simp only [Function.comp_apply, collapseWithin_emptied, map_some, hback] at hr
        cases hr
        exact ⟨nodup_nil, fun k hk => absurd hk not_mem_nil, .inl (by dsimp only; omega),
          by dsimp only; omega, by dsimp only; omega⟩

/-- **At number 0** a queue of consecutive messages is emptied, and the search below never
ends. -/
theorem collapse_endless (h : q.Turn sn) (hzero : q.sn = 0) (hfull : q.Full sn) :
    collapseWithin turns lowering q sn = none := by
  induction turns generalizing q sn with
  | zero =>
    obtain ⟨m, hmsg⟩ := h.first hfull
    unfold collapseWithin
    rw [hmsg]
  | succ turns ih =>
    obtain ⟨m, hmsg⟩ := h.first hfull
    obtain ⟨d, hmem, hlost, hfind⟩ := mem_of_msg hmsg
    unfold collapseWithin
    rw [hmsg]
    dsimp only
    unfold unbindWithin
    by_cases htop : sn = q.maxSn_
    · subst htop
      rw [if_pos ⟨by rw [hfind]; rfl, rfl⟩, h.unbind_max, hzero, lowerWithin_zero]
      rfl
    · have hmax := h.max_lt
      have hsn := h.sn_le
      have hnext : next64 sn = sn + 1 := by
        unfold next64
        omega
      rw [if_neg fun hc => htop hc.2, bind_some, hnext,
        ih (h.next htop) hzero ((h.full_iff hmem hlost).mpr hfull)]
      rfl

/-! ## `recv` -/

def Windows (s : Acknowledge) : Prop := ∀ source q, s.hold.find source = some q → q.Window

variable {s t : Acknowledge} {source : Address} {m : Message} {limit : Nat}

theorem window_recvHistory (map : Table Address UInt64) (source : Address) (h : q.Window) :
    (recvHistory map source q).Window := by
  unfold recvHistory
  split
  · exact h
  · rename_i n _
    split
    · rename_i hnew
      have hle := h.maxSn.1
      exact h.bind (by omega) n.toNat_lt
    · exact h

theorem Windows.recvNrtm (h : s.Windows) (m : Message)
    (hq : (recvNrtm s.hold m).find source = some q) : q.Window := by
  unfold Acknowledge.recvNrtm at hq
  cases hm : m.nrtm with
  | none =>
    rw [hm] at hq
    exact h source q hq
  | some map =>
    rw [hm] at hq
    have hfind := find_map (recvHistory map) s.hold source
    obtain ⟨q', hq', rfl⟩ := map_eq_some_iff.mp (hfind.symm.trans hq)
    exact window_recvHistory map source (h source q' hq')

theorem Windows.set (h : s.Windows) (hq : q.Window) (source : Address) (passed : List Message) :
    Windows ⟨s.hold.set source q, passed⟩ := by
  intro source' q' hq'
  dsimp only at hq'
  rw [find_set] at hq'
  split at hq'
  · cases hq'
    exact hq
  · exact h source' q' hq'

theorem Window.turn (h : q.Window) (hnext : next64 q.sn = q.sn + 1) :
    AckQueue.Turn (q.rebind (next64 q.sn) (.ofMessage m)) (next64 q.sn) := by
  have hsn := h.sn_lt
  have hlt : q.sn + 1 < 2 ^ 64 := by
    unfold next64 at hnext
    omega
  rw [hnext]
  have hwindow := h.rebind (d := .ofMessage m) (show q.sn < q.sn + 1 by omega) hlt
  have hmem : q.sn + 1 ∈ (q.rebind (q.sn + 1) (.ofMessage m)).entries.keys :=
    (mem_keys_rebind q.entries _).mpr (.inl rfl)
  refine ⟨hwindow.nodup, fun k hk => hwindow.keys k hk, ?_, Nat.lt_succ_self q.sn, hwindow.max_lt⟩
  refine hwindow.top.resolve_left fun hle => ?_
  have hbound := (hwindow.keys _ hmem).2
  have hsame : (q.rebind (q.sn + 1) (.ofMessage m)).sn = q.sn := rfl
  omega

theorem Windows.recvNumberedWithin (h : s.Windows) (hsn : sn < 2 ^ 64)
    (ht : s.recvNumberedWithin limit source sn m = some t) : t.Windows := by
  unfold Acknowledge.recvNumberedWithin at ht
  cases hq : s.hold.find source with
  | none =>
    rw [hq] at ht
    cases ht
    intro source' q' hq'
    dsimp only at hq'
    rw [find_bind, hq] at hq'
    split at hq'
    · cases hq'
      exact ⟨nodup_nil, fun k hk => absurd hk not_mem_nil, .inl (Nat.le_refl sn), hsn, hsn⟩
    · exact h source' q' hq'
  | some q =>
    have hwindow := h source q hq
    rw [hq] at ht
    dsimp only at ht
    split at ht
    · cases ht
      exact h
    · rename_i hnew
      split at ht
      · rename_i hnext
        have hstep : next64 q.sn = q.sn + 1 := by
          have hlt := hwindow.sn_lt
          unfold next64 at hnext ⊢
          omega
        obtain ⟨r, hr, rfl⟩ := map_eq_some_iff.mp ht
        rw [hnext] at hr
        exact h.set (collapse_window (Window.turn hwindow hstep) hr) source _
      · cases ht
        exact h.set (hwindow.rebind (by omega) hsn) source _

theorem Windows.recvWithin (h : s.Windows) (ht : s.recvWithin limit m = some t) : t.Windows := by
  unfold Acknowledge.recvWithin at ht
  have hnrtm : Windows { s with hold := Acknowledge.recvNrtm s.hold m } := fun source q hq =>
    h.recvNrtm m hq
  dsimp only at ht
  split at ht
  · obtain ⟨source, -, ht⟩ := bind_eq_some_iff.mp ht
    obtain ⟨sn, -, ht⟩ := bind_eq_some_iff.mp ht
    exact hnrtm.recvNumberedWithin sn.toNat_lt ht
  · cases ht
    exact hnrtm

theorem window_detectLosses (h : q.Window) (hne : q.entries ≠ []) : (detectLosses q).Window := by
  have hmax := h.maxSn
  have hnext : next64 q.sn = q.sn + 1 := by
    obtain ⟨e, he⟩ := exists_mem_of_ne_nil _ hne
    obtain ⟨hlo, hhi⟩ := h.keys e.1 (mem_map_of_mem he)
    have hlt := h.max_lt
    unfold next64
    omega
  have hfold : ∀ (sns : List Nat) (q' : AckQueue), q'.Window → q'.sn = q.sn →
      (∀ k ∈ sns, q.sn < k ∧ k < 2 ^ 64) →
      (sns.foldl (fun q sn =>
        if q.find sn = none then q.bind sn (.placeholder 1) else q) q').Window := by
    intro sns
    induction sns with
    | nil => exact fun q' hq' _ _ => hq'
    | cons k sns ih =>
      intro q' hq' hsame hks
      rw [foldl_cons]
      obtain ⟨hlo, hlt⟩ := hks k mem_cons_self
      split
      · exact ih _ (hq'.bind (by omega) hlt) hsame fun x hx => hks x (mem_cons_of_mem k hx)
      · exact ih _ hq' hsame fun x hx => hks x (mem_cons_of_mem k hx)
  refine hfold _ q h rfl fun k hk => ?_
  obtain ⟨hlo, hhi⟩ := mem_range'_1.mp hk
  omega

theorem Windows.trackWithin {P : AckParameters} (h : s.Windows)
    (ht : s.trackWithin P source = some t) : t.Windows := by
  unfold Acknowledge.trackWithin at ht
  obtain ⟨q, hq, ht⟩ := bind_eq_some_iff.mp ht
  have hwindow := h source q hq
  split at ht
  · cases ht
    exact h
  · rename_i hne
    obtain ⟨r, hr, rfl⟩ := map_eq_some_iff.mp ht
    unfold trackQueue at hr
    split at hr
    · cases hr
    · cases hr
      have hkeys := keys_map (fun _ d => (trackEntry P d).1) q.entries
      have hmarked : AckQueue.Window
          { q with entries := q.entries.map fun e => (e.1, (trackEntry P e.2).1) } := by
        refine ⟨?_, fun k hk => hwindow.keys k (hkeys ▸ hk), hwindow.top.imp_right fun htop => ?_,
          hwindow.sn_lt, hwindow.max_lt⟩
        · dsimp only
          rw [hkeys]
          exact hwindow.nodup
        · dsimp only
          rw [hkeys]
          exact htop
      exact h.set (window_detectLosses hmarked (by simpa using hne)) source _

theorem Windows.step {P : AckParameters} {op : AckStep} (h : s.Windows)
    (ht : stepWithin P limit s op = some t) : t.Windows := by
  cases op with
  | recv m => exact h.recvWithin ht
  | track source => exact h.trackWithin ht

theorem queueWith_eq {sn : UInt64} (hsource : m.source = some source) (hsn : m.sn = some sn) :
    s.queueWith m = ((Acknowledge.recvNrtm s.hold m).find source).map fun q =>
      q.rebind sn.toNat (.ofMessage m) := by
  unfold queueWith
  rw [hsource, hsn]
  rfl

theorem endless_iff {sn : UInt64} (hsource : m.source = some source) (hsn : m.sn = some sn)
    (hq : (Acknowledge.recvNrtm s.hold m).find source = some q) :
    s.Endless m ↔ sn.toNat = 1 ∧ q.sn = 0 ∧ (q.rebind 1 (.ofMessage m)).Full 1 := by
  have hwith := queueWith_eq (s := s) hsource hsn
  rw [hq, map_some] at hwith
  have hone : sn = 1 ↔ sn.toNat = 1 := UInt64.toNat_inj.symm
  have hfull : ∀ q' : AckQueue,
      (∀ e ∈ q'.entries, e.2.lost = false ∧ e.1 ≤ q'.entries.length) ↔ q'.Full 1 := by
    intro q'
    unfold AckQueue.Full
    constructor <;> intro h e he
    · exact ⟨(h e he).1, by have hle := (h e he).2; omega⟩
    · exact ⟨(h e he).1, by have hlt := (h e he).2; omega⟩
  unfold Endless
  rw [hwith, hsn]
  constructor
  · rintro ⟨hone', q', hq', hzero, hall⟩
    cases hq'
    have hsn1 := hone.mp (some.inj hone')
    rw [hsn1] at hall
    exact ⟨hsn1, hzero, (hfull _).mp hall⟩
  · rintro ⟨hsn1, hzero, hall⟩
    refine ⟨congrArg some (hone.mpr hsn1), _, rfl, hzero, ?_⟩
    rw [hsn1]
    exact (hfull _).mpr hall

theorem next64_of_lt {n : Nat} (hlt : q.sn < 2 ^ 64) (hnew : ¬n ≤ q.sn) (hnext : n = next64 q.sn) :
    next64 q.sn = q.sn + 1 := by
  unfold next64 at hnext ⊢
  omega

theorem recv_ends (h : s.Windows) {sn : UInt64} (hsource : m.source = some source)
    (hsn : m.sn = some sn) (hend : ¬s.Endless m) (hlimit : s.backlog m ≤ limit) :
    ∃ t, s.recvWithin limit m = some t := by
  unfold recvWithin
  dsimp only
  split
  · rw [hsource, hsn, bind_some, bind_some]
    unfold recvNumberedWithin
    dsimp only
    cases hq : (recvNrtm s.hold m).find source with
    | none => exact ⟨_, rfl⟩
    | some q =>
      have hwindow := h.recvNrtm m hq
      dsimp only
      split
      · exact ⟨_, rfl⟩
      · rename_i hnew
        split
        · rename_i hnext
          have hstep := next64_of_lt hwindow.sn_lt hnew hnext
          unfold backlog at hlimit
          rw [queueWith_eq hsource hsn, hq, map_some, map_some, getD_some, hnext] at hlimit
          have hsame : (q.rebind (next64 q.sn) (.ofMessage m)).sn = q.sn := rfl
          have hzero : (q.rebind (next64 q.sn) (.ofMessage m)).sn = 0 →
              ¬(q.rebind (next64 q.sn) (.ofMessage m)).Full (next64 q.sn) := by
            intro hz hfull
            rw [hsame] at hz
            have hone : next64 q.sn = 1 := by rw [hstep, hz]
            rw [hone] at hfull hnext
            exact hend ((endless_iff hsource hsn hq).mpr ⟨hnext, hz, hfull⟩)
          have hlow : next64 q.sn + (q.rebind (next64 q.sn) (.ofMessage m)).entries.length ≤
              (q.rebind (next64 q.sn) (.ofMessage m)).sn + 1 + limit := by
            rw [hsame]
            omega
          obtain ⟨r, hr⟩ := collapse_ends (Window.turn hwindow hstep) hlimit hlow hzero
          rw [hnext, hr]
          exact ⟨_, rfl⟩
        · exact ⟨_, rfl⟩
  · exact ⟨_, rfl⟩

/-- **Without end**: no number of turns is enough for such a message. -/
theorem recv_endless (h : s.Windows) (hnum : numbered m = true) {sn : UInt64}
    (hsource : m.source = some source) (hsn : m.sn = some sn) (hend : s.Endless m) (limit : Nat) :
    s.recvWithin limit m = none := by
  obtain ⟨q, hq⟩ : ∃ q, (recvNrtm s.hold m).find source = some q := by
    obtain ⟨-, q', hq', -⟩ := hend
    rw [queueWith_eq hsource hsn] at hq'
    obtain ⟨q, hq, -⟩ := map_eq_some_iff.mp hq'
    exact ⟨q, hq⟩
  obtain ⟨hone, hzero, hfull⟩ := (endless_iff hsource hsn hq).mp hend
  have hnext : next64 q.sn = 1 := by rw [hzero]; rfl
  have hturn := Window.turn (m := m) (h.recvNrtm m hq) (by rw [hnext, hzero])
  rw [hnext] at hturn
  unfold recvWithin
  rw [hsource, hsn]
  dsimp only
  rw [if_pos hnum, bind_some, bind_some]
  unfold recvNumberedWithin
  dsimp only
  rw [hq]
  dsimp only
  rw [if_neg (by omega), if_pos (hone.trans hnext.symm), hnext, hone,
    collapse_endless hturn hzero hfull]
  rfl

variable {P : AckParameters} {ops : List AckStep}

theorem windows_start : start.Windows := fun _ _ h => nomatch h

/-- **`recv` is bounded** in every state that is reached: its loops end within as many turns as
the queue of the source has entries, the message among them, exactly unless it is endless. -/
theorem recv_within_iff (h : run (stepWithin P limit) start ops = some s) (hnum : numbered m = true)
    {sn : UInt64} (hsource : m.source = some source) (hsn : m.sn = some sn) :
    (∃ t, s.recvWithin (s.backlog m) m = some t) ↔ ¬s.Endless m := by
  have hstep : ∀ (s : Acknowledge) (op : AckStep) (t : Acknowledge), s.Windows →
      stepWithin P limit s op = some t → t.Windows := fun _ _ _ hs ht => hs.step ht
  have hwindows := Core.run_inv hstep windows_start h
  constructor
  · rintro ⟨t, ht⟩ hend
    rw [recv_endless hwindows hnum hsource hsn hend] at ht
    cases ht
  · exact fun hend => recv_ends hwindows hsource hsn hend (Nat.le_refl _)

/-- A message with data and a number, from one source. -/
def sampleMessage (sn : UInt64) : Message :=
  ((Message.empty.add (.fromAddress ⟨1, 2⟩)).add (.data [7])).add (.sn sn)

/-- Messages 6 and 7 wait for message 5. -/
def sampleSteps : List AckStep :=
  [.recv (sampleMessage 4), .recv (sampleMessage 6), .recv (sampleMessage 7)]

theorem recv_within_iff_sampleSteps :
    ∃ s, run (stepWithin ⟨1, 10⟩ 3) start sampleSteps = some s ∧
      ((∃ t, s.recvWithin (s.backlog (sampleMessage 5)) (sampleMessage 5) = some t) ↔
        ¬s.Endless (sampleMessage 5)) := by
  have hsome : (run (stepWithin ⟨1, 10⟩ 3) start sampleSteps).isSome = true := by decide_cbv
  have hsource : (sampleMessage 5).source = some ⟨1, 2⟩ := rfl
  have hsn : (sampleMessage 5).sn = some 5 := rfl
  obtain ⟨s, hs⟩ := isSome_iff_exists.mp hsome
  exact ⟨s, hs, recv_within_iff hs rfl hsource hsn⟩

/-- **A first number of 0**: the loop for message 1 does not end, however many turns it gets. -/
theorem first_number_zero : ¬ ∃ limit s, run (stepWithin ⟨1, 10⟩ limit) start
    [.recv (sampleMessage 0), .recv (sampleMessage 1)] = some s := by
  rintro ⟨limit, s, hrun⟩
  have hfirst : start.recvWithin limit (sampleMessage 0) =
      some ⟨[(⟨1, 2⟩, .ofNumber 0)], [sampleMessage 0]⟩ := rfl
  have hwindows : Windows ⟨[(⟨1, 2⟩, .ofNumber 0)], [sampleMessage 0]⟩ :=
    windows_start.recvWithin hfirst
  have hend : Endless ⟨[(⟨1, 2⟩, .ofNumber 0)], [sampleMessage 0]⟩ (sampleMessage 1) := by
    refine ⟨rfl, _, rfl, rfl, fun e he => ?_⟩
    rw [show e = (1, Descr.ofMessage (sampleMessage 1)) from mem_singleton.mp he]
    exact ⟨rfl, by decide⟩
  have hsecond := recv_endless hwindows rfl rfl rfl hend limit
  simp only [run_cons, stepWithin, hfirst, hsecond, bind_some, bind_none] at hrun
  cases hrun

end Acknowledge

end Atcd.Rmcast
