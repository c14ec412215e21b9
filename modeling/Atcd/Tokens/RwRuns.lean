import Atcd.Core.Run
import Atcd.Tokens.Local
/-!
# Writers and readers of one `ACE_RW_Token`

A run is a sequence of calls on one token, by any clients through any of their
proxies. Beside the token the state has what the calls have told their callers:
how many acquisitions through an entry were granted and are not released, and
whether the entry waits for `token_acquired`. A `renew` that answers EWOULDBLOCK
gives the token up until the entry is called back.

The queue recognises an owner by its client's identifier alone and
`notify_new_owner` looks at the released proxy alone. So a reader that goes on to
acquire through its writer proxy is told that it has the token while others read,
a client that releases one of two proxies lets others in beside the other one,
and a reader that was queued behind a writer's nested acquisition and never
called back counts as an owner. `Sound` is what a call has to avoid.

Results:
- `reader_becomes_writer`: a writer and a reader at a time;
- `step_inv`: a call that is `Sound` keeps the invariant;
- `writers_exclude`: in a run of such calls writers exclude readers.
-/
namespace Atcd.Token

open Atcd.Core Tokens RWToken List Function Option

/-- What an entry waits for. -/
inductive Waits | acquire | renew
deriving DecidableEq

structure State (Client : Type*) where
  token : Tokens Client
  /-- Acquisitions through the entry that were granted and are not released. -/
  grants : Entry Client → Nat
  pending : Entry Client → Option Waits

/-- A call on the token; `deadlock` is what `check_deadlock` would find. -/
inductive Call (Client : Type*)
  | acquire (caller : Entry Client) (deadlock : Bool)
  | tryacquire (caller : Entry Client)
  | renew (caller : Entry Client)
  | release (caller : Entry Client)

variable {Client : Type*} [DecidableEq Client]

def Call.caller : Call Client → Entry Client
  | .acquire e _ | .tryacquire e | .renew e | .release e => e

namespace State

def holds (s : State Client) (e : Entry Client) : Nat :=
  if s.pending e = some .renew then 0 else s.grants e

theorem contains_entry (n : Entry Client) (ns : List (Entry Client)) : ns.contains n = true ↔ n ∈ ns :=
  contains_iff_mem

local instance (n : Entry Client) (ns : List (Entry Client)) : Decidable (n ∈ ns) :=
  decidable_of_iff (ns.contains n = true) (contains_entry n ns)

/-- `token_acquired` for each of the entries. -/
def notify (s : State Client) (ns : List (Entry Client)) : State Client where
  token := s.token
  grants := fun n => if n ∈ ns ∧ s.pending n = some .acquire then s.grants n + 1 else s.grants n
  pending := fun n => if n ∈ ns then none else s.pending n

/-- The answer to an acquisition. -/
def answered (s : State Client) (e : Entry Client) (o : Outcome Client) : State Client where
  token := o.token
  grants := if o.answer = .success then update s.grants e (s.grants e + 1) else s.grants
  pending := s.pending

/-- The caller goes to wait. -/
def wait (s : State Client) (e : Entry Client) (o : Outcome Client) (w : Waits) : State Client :=
  if o.answer = .wouldBlock then { s with pending := update s.pending e (some w) } else s

/-- The answer to a release. -/
def released (s : State Client) (e : Entry Client) (o : Outcome Client) : State Client where
  token := o.token
  grants := if o.answer = .success then update s.grants e (s.grants e - 1) else s.grants
  pending := s.pending

end State

/-- One call. A client releases through a proxy that it holds the token through. -/
def step (s : State Client) : Call Client → Option (State Client)
  | .acquire e deadlock =>
    (RWToken.acquire s.token e deadlock).map fun o => (s.answered e o).wait e o .acquire
  | .tryacquire e => (tryacquire s.token e).map fun o => s.answered e o
  | .renew e =>
    (renew s.token e (-1)).map fun o => ({ s with token := o.token }.wait e o .renew).notify o.notified
  | .release e =>
    if 0 < s.holds e then
      some ((s.released e (RWToken.release s.token e)).notify (RWToken.release s.token e).notified)
    else none

/-- The constructor. -/
def start : State Client := ⟨⟨[], 0, fun _ => 0⟩, fun _ => 0, fun _ => none⟩

/-- Writers exclude readers, and each other. -/
def Exclusive (s : State Client) : Prop :=
  ∀ w, w.type = .writer → 0 < s.holds w → ∀ e, 0 < s.holds e → e.client = w.client

/-- The entry is queued and waits for nothing: the token is the client's through
this entry. -/
def State.Owns (s : State Client) (e : Entry Client) : Prop :=
  e ∈ s.token.waiters ∧ s.pending e = none

instance (s : State Client) (e : Entry Client) : Decidable (s.Owns e) :=
  inferInstanceAs (Decidable (_ ∧ _))

/-- The conditions on a call, apart from its proxy not waiting. A call that is
taken for a nested acquisition: the client owns the token indeed, and alone if it
is to become a writer. The last release of a proxy: the client holds the token
through no other proxy, or owns it through one. A renewal: the client owns the
token through this proxy, holds it through no other, and as a reader has no other
proxy in the queue. -/
def Sound (s : State Client) (l : Call Client) : Prop :=
  s.pending l.caller = none ∧
  match l with
  | .acquire e _ | .tryacquire e =>
    RWToken.isOwner s.token e.client = true →
      (∃ b, s.Owns b ∧ b.client = e.client) ∧
      (e.type = .writer → ∀ b, s.Owns b → b.client = e.client)
  | .release e =>
    s.token.nesting e = 0 → ∀ x, x ≠ e → x.client = e.client → 0 < s.holds x →
      ∃ b, s.Owns b ∧ b ≠ e ∧ b.client = e.client
  | .renew e =>
    RWToken.isOwner s.token e.client = true → s.token.waiters.length ≠ 1 →
      e ∈ s.token.waiters ∧ (∀ x, x ≠ e → x.client = e.client → s.holds x = 0) ∧
      (e.type = .reader → ∀ b ∈ s.token.waiters, b.client = e.client → b = e)

/-! ## A writer beside a reader -/

/-- Two clients read, and the first one acquires through its writer proxy. -/
def upgrade : List (Call Nat) :=
  [.acquire ⟨1, 0, .reader⟩ false, .acquire ⟨2, 0, .reader⟩ false, .acquire ⟨1, 1, .writer⟩ false]

/-- The reader is told that it has the token for writing while the other client
reads. -/
theorem reader_becomes_writer :
    ¬ ∀ (ls : List (Call Nat)) (s : State Nat), run step start ls = some s → Exclusive s := by
  intro h
  have hrun : (run step start upgrade).map
      (fun s => (s.holds ⟨1, 1, .writer⟩, s.holds ⟨2, 0, .reader⟩)) = some (1, 1) := by decide
  obtain ⟨s, hs, hholds⟩ := map_eq_some_iff.mp hrun
  simp only [Prod.mk.injEq] at hholds
  have := h upgrade s hs ⟨1, 1, .writer⟩ rfl (by omega) ⟨2, 0, .reader⟩ (by omega)
  simp at this

/-! ## What a call does -/

namespace State

/-- The call is granted and leaves the token. -/
def grant (s : State Client) (e : Entry Client) (t : Tokens Client) : State Client where
  token := t
  grants := update s.grants e (s.grants e + 1)
  pending := s.pending

/-- The call is queued and leaves the token. -/
def block (s : State Client) (e : Entry Client) (t : Tokens Client) (w : Waits) : State Client where
  token := t
  grants := s.grants
  pending := update s.pending e (some w)

end State

/-- What an acquisition can do. -/
inductive Entered (s : State Client) (e : Entry Client) : State Client → Prop
  | granted (hq : e ∉ s.token.waiters)
      (h : s.token.waiters = [] ∨ e.type = .reader ∧ s.token.numWriters = 0) :
      Entered s e (s.grant e (joined s.token e))
  | nested (h : RWToken.isOwner s.token e.client = true) :
      Entered s e (s.grant e ((countWriter s.token e 1).nest e))
  | refused : Entered s e s
  | queued (hq : e ∉ s.token.waiters) : Entered s e (s.block e (joined s.token e) .acquire)

variable {e : Entry Client} {s s' : State Client} {t : Tokens Client}

theorem acquire_entered {deadlock : Bool} (h : step s (.acquire e deadlock) = some s') :
    Entered s e s' := by
  obtain ⟨o, ho, rfl⟩ := map_eq_some_iff.mp h
  cases acquire_cases ho with
  | granted hq hj => exact .granted hq hj
  | nested hown => exact .nested hown
  | refused => exact .refused
  | queued hq => exact .queued hq

theorem tryacquire_entered (h : step s (.tryacquire e) = some s') : Entered s e s' := by
  obtain ⟨o, ho, rfl⟩ := map_eq_some_iff.mp h
  rw [tryacquire_eq] at ho
  obtain ⟨o, hacq, rfl⟩ := map_eq_some_iff.mp ho
  cases acquire_cases hacq with
  | granted hq hj => exact .granted hq hj
  | nested hown => exact .nested hown
  | refused => exact .refused
  | queued _ _ hd => cases hd

/-! ## The invariant -/

/-- 1 for an acquisition that the token keeps and has not granted. -/
def owed : Option Waits → Nat
  | some .acquire => 1
  | _ => 0

/-- What the token has written down agrees with what its callers were told. -/
structure Books (s : State Client) : Prop where
  nodup : s.token.waiters.Nodup
  queued : ∀ e, s.pending e ≠ none → e ∈ s.token.waiters
  counted : ∀ e, s.grants e + owed (s.pending e) = weight s.token e
  census : Census s.token

/-- Whoever owns the token stands in the leading run, whoever holds it owns it by
some proxy, and beside a writer nobody else owns it. -/
structure Inv (s : State Client) : Prop extends Books s where
  leads : ∀ e, s.Owns e → e ∈ leading s.token.waiters
  owned : ∀ e, 0 < s.holds e → ∃ b, s.Owns b ∧ b.client = e.client
  writer : ∀ w, w.type = .writer → 0 < s.holds w → ∀ b, s.Owns b → b.client = w.client

open State

theorem start_inv : Inv (start : State Client) where
  nodup := nodup_nil
  queued e h := absurd rfl h
  counted e := rfl
  census := ⟨0, by simp, rfl, fun w _ => rfl⟩
  leads e h := absurd h.1 not_mem_nil
  owned e h := absurd h (by simp [holds, start])
  writer w _ h := absurd h (by simp [holds, start])

theorem Inv.exclusive (hs : Inv s) : Exclusive s := by
  intro w hw hhold e he
  obtain ⟨b, hb, hclient⟩ := hs.owned e he
  rw [← hclient]
  exact hs.writer w hw hhold b hb

theorem Inv.isOwner (hs : Inv s) {b : Entry Client} (hb : s.Owns b) :
    RWToken.isOwner s.token b.client = true := (isOwner_iff ..).mpr ⟨b, hs.leads b hb, rfl⟩

/-! ### Acquiring -/

theorem holds_grant (s : State Client) (hp : s.pending e = none) (t : Tokens Client)
    (x : Entry Client) : (s.grant e t).holds x = s.holds x + if x = e then 1 else 0 := by
  unfold holds grant
  by_cases hx : x = e
  · subst hx
    simp [hp]
  · simp [hx]

theorem Books.grant (hs : Books s) (hnd : t.waiters.Nodup) (hsub : s.token.waiters ⊆ t.waiters)
    (hn : t.numWriters = s.token.numWriters + if e.type = .writer then 1 else 0)
    (hw : ∀ w, weight t w = weight s.token w + if w = e then 1 else 0) : Books (s.grant e t) where
  nodup := hnd
  queued x hx := hsub (hs.queued x hx)
  counted x := by
    show update s.grants e (s.grants e + 1) x + owed (s.pending x) = weight t x
    rw [hw, ← hs.counted]
    by_cases hx : x = e
    · rw [hx, update_self, if_pos rfl]
      omega
    · rw [update_of_ne hx, if_neg hx, Nat.add_zero]
  census := hs.census.grow hn hw

omit [DecidableEq Client] in
theorem nodup_joined (hnd : t.waiters.Nodup) (hq : e ∉ t.waiters) : (joined t e).waiters.Nodup :=
  nodup_append.mpr ⟨hnd, nodup_singleton e, fun a ha b hb hab =>
    hq (by rwa [← mem_singleton.mp hb, ← hab])⟩

omit [DecidableEq Client] in
theorem subset_joined (t : Tokens Client) (e : Entry Client) :
    t.waiters ⊆ (joined t e).waiters := subset_append_left ..

/-- The token goes to a client that nobody has to wait for: the first one, or a
reader when no writer is counted. -/
theorem inv_granted (hs : Inv s) (hp : s.pending e = none) (hq : e ∉ s.token.waiters)
    (h : s.token.waiters = [] ∨ e.type = .reader ∧ s.token.numWriters = 0) :
    Inv (s.grant e (joined s.token e)) where
  toBooks := hs.toBooks.grant (nodup_joined hs.nodup hq) (subset_joined ..)
    (numWriters_joined ..) (weight_joined hq)
  leads x hx := by
    rcases mem_append.mp hx.1 with hmem | hmem
    · exact mem_leading_append (hs.leads x ⟨hmem, hx.2⟩) e
    · rw [mem_singleton.mp hmem]
      show e ∈ leading (s.token.waiters ++ [e])
      rcases h with hnil | ⟨hr, hzero⟩
      · rw [hnil]
        by_cases ht : e.type = .writer
        · simp [leading, ht]
        · simp [leading, readers, reader_of_ne_writer ht]
      · rw [leading_of_all_readers]
        · exact mem_append_right _ mem_cons_self
        · intro o ho
          rcases mem_append.mp ho with ho | ho
          · apply reader_of_ne_writer
            intro hw
            have := hs.census.no_writer hzero hw
            simp [weight, ho] at this
          · rwa [mem_singleton.mp ho]
  owned x hx := by
    rw [holds_grant s hp] at hx
    by_cases hxe : x = e
    · exact ⟨e, ⟨mem_append_right _ mem_cons_self, hp⟩, by rw [hxe]⟩
    · rw [if_neg hxe] at hx
      obtain ⟨b, hb, hclient⟩ := hs.owned x hx
      exact ⟨b, ⟨subset_joined _ e hb.1, hb.2⟩, hclient⟩
  writer w hw hhold b hb := by
    rw [holds_grant s hp] at hhold
    by_cases hwe : w = e
    · -- a writer comes to an empty queue only
      subst hwe
      have hnil := h.resolve_right (by simp [hw])
      have hmem : b ∈ s.token.waiters ++ [w] := hb.1
      rw [hnil, nil_append, mem_singleton] at hmem
      rw [hmem]
    · rw [if_neg hwe] at hhold
      exfalso
      rcases h with hnil | ⟨-, hzero⟩
      · obtain ⟨b, hb, -⟩ := hs.owned w hhold
        simp [State.Owns, hnil] at hb
      · have hweight := hs.census.no_writer hzero hw
        have hcount := hs.counted w
        unfold holds at hhold
        split at hhold <;> omega

theorem inv_nested (hs : Inv s) (hp : s.pending e = none)
    (hown : ∃ b, s.Owns b ∧ b.client = e.client)
    (halone : e.type = .writer → ∀ b, s.Owns b → b.client = e.client) :
    Inv (s.grant e ((countWriter s.token e 1).nest e)) where
  toBooks := by
    refine hs.toBooks.grant ?_ ?_ ?_ (weight_nest s.token e)
    · rw [nest, countWriter_waiters]
      exact hs.nodup
    · rw [nest, countWriter_waiters]
      exact Subset.refl _
    · rw [nest, countWriter_numWriters]
  leads x hx := by
    have hmem := hx.1
    simp only [grant, nest, countWriter_waiters] at hmem ⊢
    exact hs.leads x ⟨hmem, hx.2⟩
  owned x hx := by
    have hown' : ∃ b, s.Owns b ∧ b.client = x.client := by
      rw [holds_grant s hp] at hx
      by_cases hxe : x = e
      · rw [hxe]
        exact hown
      · rw [if_neg hxe] at hx
        exact hs.owned x hx
    obtain ⟨b, hb, hclient⟩ := hown'
    refine ⟨b, ⟨?_, hb.2⟩, hclient⟩
    simp only [grant, nest, countWriter_waiters]
    exact hb.1
  writer w hw hhold b hb := by
    have hb' : s.Owns b := by
      have hmem := hb.1
      simp only [grant, nest, countWriter_waiters] at hmem
      exact ⟨hmem, hb.2⟩
    rw [holds_grant s hp] at hhold
    by_cases hwe : w = e
    · subst hwe
      exact halone hw b hb'
    · rw [if_neg hwe] at hhold
      exact hs.writer w hw hhold b hb'

theorem holds_block_acquire (s : State Client) (hp : s.pending e = none) (t : Tokens Client)
    (x : Entry Client) : (s.block e t .acquire).holds x = s.holds x := by
  unfold holds block
  by_cases hx : x = e
  · subst hx
    simp [hp]
  · simp [hx]

theorem owns_block {x : Entry Client} {w : Waits} (h : (s.block e t w).Owns x) :
    x ≠ e ∧ x ∈ t.waiters ∧ s.pending x = none := by
  obtain ⟨hmem, hpend⟩ := h
  have hne : x ≠ e := by
    rintro rfl
    simp [block] at hpend
  refine ⟨hne, hmem, ?_⟩
  simpa [block, hne] using hpend

theorem inv_queued (hs : Inv s) (hp : s.pending e = none) (hq : e ∉ s.token.waiters) :
    Inv (s.block e (joined s.token e) .acquire) := by
  have howns : ∀ x, (s.block e (joined s.token e) .acquire).Owns x → s.Owns x := by
    intro x hx
    obtain ⟨hne, hmem, hpend⟩ := owns_block hx
    rcases mem_append.mp hmem with hmem | hmem
    · exact ⟨hmem, hpend⟩
    · exact absurd (mem_singleton.mp hmem) hne
  refine ⟨⟨nodup_joined hs.nodup hq, ?_, ?_, ?_⟩, ?_, ?_, ?_⟩
  · intro x hx
    by_cases hxe : x = e
    · rw [hxe]
      exact mem_append_right _ mem_cons_self
    · refine subset_joined _ e (hs.queued x ?_)
      simpa [block, hxe] using hx
  · intro x
    show s.grants x + owed (update s.pending e (some .acquire) x) =
      weight (joined s.token e) x
    rw [weight_joined hq, ← hs.counted]
    by_cases hxe : x = e
    · rw [hxe, update_self, hp, if_pos rfl]
      rfl
    · rw [update_of_ne hxe, if_neg hxe, Nat.add_zero]
  · exact hs.census.grow (numWriters_joined ..) (weight_joined hq)
  · intro x hx
    exact mem_leading_append (hs.leads x (howns x hx)) e
  · intro x hx
    rw [holds_block_acquire s hp] at hx
    obtain ⟨b, hb, hclient⟩ := hs.owned x hx
    refine ⟨b, ⟨subset_joined _ e hb.1, ?_⟩, hclient⟩
    have hne : b ≠ e := by
      rintro rfl
      exact hq hb.1
    simpa [block, hne] using hb.2
  · intro w hw hhold b hb
    rw [holds_block_acquire s hp] at hhold
    exact hs.writer w hw hhold b (howns b hb)

/-! ### Handing the token over -/

/-- Once the token is nobody's, the entries that come to own it are called
back. -/
theorem inv_handover {m : State Client} (hm : Books m) (hfree : ∀ x, m.holds x = 0)
    (hwait : ∀ x, ¬ m.Owns x) : Inv (m.notify (leading m.token.waiters)) := by
  have howns : ∀ x, (m.notify (leading m.token.waiters)).Owns x → x ∈ leading m.token.waiters := by
    intro x hx
    by_contra hnot
    refine hwait x ⟨hx.1, ?_⟩
    simpa [notify, hnot] using hx.2
  have hholds : ∀ x, 0 < (m.notify (leading m.token.waiters)).holds x →
      x ∈ leading m.token.waiters := by
    intro x hx
    by_contra hnot
    have := hfree x
    simp only [holds, notify, hnot, false_and, if_false] at hx this
    omega
  refine ⟨⟨hm.nodup, ?_, ?_, hm.census⟩, howns, ?_, ?_⟩
  · intro x hx
    refine hm.queued x fun hnone => hx ?_
    simp [notify, hnone]
  · intro x
    have := hm.counted x
    show (if x ∈ leading m.token.waiters ∧ m.pending x = some .acquire then m.grants x + 1
      else m.grants x) + owed (if x ∈ leading m.token.waiters then none else m.pending x) =
        weight m.token x
    by_cases hx : x ∈ leading m.token.waiters
    · rw [if_pos hx]
      rcases hp : m.pending x with _ | _ | _ <;> simpa [hp, hx, owed] using this
    · rw [if_neg hx, if_neg fun h => hx h.1]
      exact this
  · intro x hx
    refine ⟨x, ⟨leading_subset _ (hholds x hx), ?_⟩, rfl⟩
    simp [notify, hholds x hx]
  · intro w hw hhold b hb
    have hb' := howns b hb
    rw [leading_of_writer (hholds w hhold) hw, mem_singleton] at hb'
    rw [hb']

theorem notify_nil (s : State Client) : s.notify [] = s := by
  unfold notify
  simp

/-! ### Releasing -/

/-- The call is released and leaves the token. -/
def State.ungrant (s : State Client) (e : Entry Client) (t : Tokens Client) : State Client where
  token := t
  grants := update s.grants e (s.grants e - 1)
  pending := s.pending

theorem holds_ungrant (s : State Client) (hp : s.pending e = none) (t : Tokens Client)
    (x : Entry Client) : (s.ungrant e t).holds x = s.holds x - if x = e then 1 else 0 := by
  unfold holds ungrant
  by_cases hx : x = e
  · subst hx
    simp [hp]
  · simp [hx]

theorem Books.ungrant (hs : Books s) (hp : s.pending e = none) (hnd : t.waiters.Nodup)
    (hsub : ∀ x ∈ s.token.waiters, x ≠ e → x ∈ t.waiters)
    (hn : t.numWriters = s.token.numWriters + if e.type = .writer then -1 else 0)
    (hw : ∀ w, weight t w + (if w = e then 1 else 0) = weight s.token w) :
    Books (s.ungrant e t) where
  nodup := hnd
  queued x hx := by
    refine hsub x (hs.queued x hx) ?_
    rintro rfl
    exact hx hp
  counted x := by
    have hweight := hw x
    have hcount := hs.counted x
    show update s.grants e (s.grants e - 1) x + owed (s.pending x) = weight t x
    by_cases hx : x = e
    · subst hx
      rw [hp] at hcount ⊢
      rw [if_pos rfl] at hweight
      rw [update_self]
      simp only [owed] at hcount ⊢
      omega
    · rw [if_neg hx] at hweight
      rw [update_of_ne hx]
      omega
  census := hs.census.shrink hn hw

/-- A release of a nested acquisition. -/
theorem inv_unnested (hs : Inv s) (hp : s.pending e = none) (hnest : 0 < s.token.nesting e) :
    Inv (s.ungrant e ((countWriter s.token e (-1)).unnest e)) := by
  have hq : ((countWriter s.token e (-1)).unnest e).waiters = s.token.waiters :=
    countWriter_waiters ..
  have howns : ∀ x, (s.ungrant e ((countWriter s.token e (-1)).unnest e)).Owns x ↔ s.Owns x := by
    intro x
    unfold State.Owns ungrant
    rw [hq]
  have hholds : ∀ x, 0 < (s.ungrant e ((countWriter s.token e (-1)).unnest e)).holds x →
      0 < s.holds x := by
    intro x hx
    rw [holds_ungrant s hp] at hx
    omega
  refine ⟨hs.toBooks.ungrant hp ?_ ?_ (countWriter_numWriters ..) (weight_unnest hnest), ?_, ?_, ?_⟩
  · rw [hq]
    exact hs.nodup
  · intro x hx _
    rwa [hq]
  · intro x hx
    show x ∈ leading ((countWriter s.token e (-1)).unnest e).waiters
    rw [hq]
    exact hs.leads x ((howns x).mp hx)
  · intro x hx
    obtain ⟨b, hb, hclient⟩ := hs.owned x (hholds x hx)
    exact ⟨b, (howns b).mpr hb, hclient⟩
  · intro w hw hhold b hb
    exact hs.writer w hw (hholds w hhold) b ((howns b).mp hb)

/-- The last release of a proxy takes its entry out of the queue. -/
theorem inv_removed (hs : Inv s) (he : s.Owns e) (hnest : s.token.nesting e = 0)
    (hother : ∀ x, x ≠ e → x.client = e.client → 0 < s.holds x →
      ∃ b, s.Owns b ∧ b ≠ e ∧ b.client = e.client) :
    Inv ((s.ungrant e ((countWriter s.token e (-1)).remove e)).notify
      (notifyNewOwner ((countWriter s.token e (-1)).remove e) e)) := by
  obtain ⟨t, ht⟩ : ∃ t, t = (countWriter s.token e (-1)).remove e := ⟨_, rfl⟩
  have hq : t.waiters = s.token.waiters.erase e := by
    rw [ht, remove, countWriter_waiters]
  rw [← ht]
  have hbooks : Books (s.ungrant e t) := by
    refine hs.toBooks.ungrant he.2 ?_ ?_ ?_ ?_
    · rw [hq]
      exact hs.nodup.erase e
    · intro x hx hne
      rw [hq]
      exact (mem_erase_of_ne hne).mpr hx
    · rw [ht]
      exact countWriter_numWriters ..
    · rw [ht]
      exact weight_remove he.1 hs.nodup
  have hself : (s.ungrant e t).holds e = 0 := by
    have hcount := hs.counted e
    simp only [weight, hnest, he.1, he.2, owed, if_true] at hcount
    rw [holds_ungrant s he.2, if_pos rfl]
    simp only [holds, he.2, reduceCtorEq, if_false]
    omega
  have hholds : ∀ x, 0 < (s.ungrant e t).holds x → x ≠ e ∧ 0 < s.holds x := by
    intro x hx
    refine ⟨?_, ?_⟩
    · rintro rfl
      omega
    · rw [holds_ungrant s he.2] at hx
      omega
  have howns : ∀ x, (s.ungrant e t).Owns x ↔ s.Owns x ∧ x ≠ e := by
    intro x
    show x ∈ t.waiters ∧ _ ↔ _
    rw [hq, hs.nodup.mem_erase_iff]
    exact ⟨fun h => ⟨⟨h.1.2, h.2⟩, h.1.1⟩, fun h => ⟨⟨h.2, h.1.1⟩, h.1.2⟩⟩
  have howned : ∀ x, 0 < (s.ungrant e t).holds x →
      ∃ b, (s.ungrant e t).Owns b ∧ b.client = x.client := by
    intro x hx
    obtain ⟨hne, hpos⟩ := hholds x hx
    obtain ⟨b, hb, hclient⟩ := hs.owned x hpos
    by_cases hbe : b = e
    · subst hbe
      obtain ⟨b', hb', hne', hclient'⟩ := hother x hne hclient.symm hpos
      exact ⟨b', (howns b').mpr ⟨hb', hne'⟩, hclient'.trans hclient⟩
    · exact ⟨b, (howns b).mpr ⟨hb, hbe⟩, hclient⟩
  rcases notifyNewOwner_cases t e with ⟨hr, -, hnone⟩ | ⟨hhead, hnew⟩
  · rw [hnone, notify_nil]
    refine ⟨hbooks, ?_, howned, ?_⟩
    · intro x hx
      obtain ⟨hx, hne⟩ := (howns x).mp hx
      have hlead := hs.leads x hx
      show x ∈ leading t.waiters
      rw [hq]
      refine mem_leading_erase hlead ?_ hne
      rw [readers_of_mem_leading (hs.leads e he) hr] at hlead
      exact type_of_mem_readers hlead
    · intro w hw hhold b hb
      exact hs.writer w hw (hholds w hhold).2 b ((howns b).mp hb).1
  · rw [hnew]
    have hfree : ∀ x, ¬ (s.ungrant e t).Owns x := by
      intro x hx
      obtain ⟨hx, hne⟩ := (howns x).mp hx
      refine hne (alone_of_handover (hs.leads e he) ?_ (hs.leads x hx))
      rwa [← hq]
    refine inv_handover hbooks ?_ hfree
    intro x
    by_contra hx
    obtain ⟨b, hb, -⟩ := howned x (by omega)
    exact hfree b hb

theorem inv_released (hs : Inv s) (hp : s.pending e = none)
    (hother : s.token.nesting e = 0 → ∀ x, x ≠ e → x.client = e.client → 0 < s.holds x →
      ∃ b, s.Owns b ∧ b ≠ e ∧ b.client = e.client) (h : step s (.release e) = some s') :
    Inv s' := by
  simp only [step] at h
  split at h
  · rename_i hpos
    cases h
    obtain ⟨b, hb, hclient⟩ := hs.owned e hpos
    rw [release_eq (hclient ▸ hs.isOwner hb)]
    by_cases hnest : 0 < s.token.nesting e
    · rw [if_pos hnest]
      exact inv_unnested hs hp hnest
    · rw [if_neg hnest]
      have hzero : s.token.nesting e = 0 := by omega
      have hq : e ∈ s.token.waiters := by
        by_contra hnot
        have hcount := hs.counted e
        simp only [weight, hzero, hnot, hp, owed, if_false] at hcount
        simp only [holds, hp, reduceCtorEq, if_false] at hpos
        omega
      exact inv_removed hs ⟨hq, hp⟩ hzero (hother hzero)
  · cases h

/-! ### Renewing -/

/-- The token with the entry moved to the back of its queue. -/
def requeued (t : Tokens Client) (e : Entry Client) : Tokens Client :=
  { t with waiters := t.waiters.erase e ++ [e] }

/-- What a renewal that may go on can do. -/
inductive Renewed (s : State Client) (e : Entry Client) : State Client → Prop
  | kept (hr : e.type = .reader) (h : RWToken.isOwner (requeued s.token e) e.client = true) :
      Renewed s e { s with token := requeued s.token e }
  | yielded (h : e.type = .reader → RWToken.isOwner (requeued s.token e) e.client = false) :
      Renewed s e ((s.block e (requeued s.token e) .renew).notify
        (notifyNewOwner (requeued s.token e) e))

theorem renew_cases (h : step s (.renew e) = some s') :
    s' = s ∨ RWToken.isOwner s.token e.client = true ∧ s.token.waiters.length ≠ 1 ∧ Renewed s e s' := by
  obtain ⟨o, ho, rfl⟩ := map_eq_some_iff.mp h
  unfold renew at ho
  split at ho
  · cases ho
    exact .inl (notify_nil s)
  rename_i hown
  split at ho
  · cases ho
    exact .inl (notify_nil s)
  rename_i hlen
  refine .inr ⟨by simpa using hown, fun h => hlen (.inl h), ?_⟩
  obtain ⟨t, ht, rfl⟩ := map_eq_some_iff.mp ho
  have htoken : t = requeued s.token e := by
    unfold enqueue at ht
    split at ht
    · cases ht
    · cases ht
      unfold requeued remove insertAt
      cases s.token.waiters.erase e <;> simp
  subst htoken
  split
  · rename_i hkept
    have := Renewed.kept hkept.1 hkept.2
    rwa [← notify_nil { s with token := requeued s.token e }] at this
  · rename_i hkept
    refine .yielded fun hr => ?_
    simpa [hr] using hkept

theorem mem_requeued (he : e ∈ t.waiters) (x : Entry Client) :
    x ∈ (requeued t e).waiters ↔ x ∈ t.waiters := by
  show x ∈ t.waiters.erase e ++ [e] ↔ _
  by_cases hx : x = e
  · simp [hx, he]
  · simp [hx, mem_erase_of_ne hx]

theorem weight_requeued (he : e ∈ t.waiters) (w : Entry Client) :
    weight (requeued t e) w = weight t w := by
  unfold weight
  rw [if_congr (mem_requeued he w) rfl rfl]
  rfl

theorem census_requeued (he : e ∈ t.waiters) (h : Census t) : Census (requeued t e) := by
  obtain ⟨ws, htype, hcard, hcount⟩ := h
  refine ⟨ws, htype, hcard, fun w hw => ?_⟩
  rw [hcount w hw, weight_requeued he]

theorem nodup_requeued (e : Entry Client) (hnd : t.waiters.Nodup) :
    (requeued t e).waiters.Nodup := by
  refine nodup_append.mpr ⟨hnd.erase e, nodup_singleton e, fun a ha b hb hab => ?_⟩
  rw [hab, mem_singleton.mp hb] at ha
  exact hnd.not_mem_erase ha

omit [DecidableEq Client] in
theorem all_readers_of_last {q : List (Entry Client)} (he : e ∉ q) (h : e ∈ leading (q ++ [e]))
    (hr : e.type = .reader) : leading (q ++ [e]) = q ++ [e] := by
  apply leading_of_all_readers
  rw [readers_of_mem_leading h hr, readers, takeWhile_append] at h
  split at h
  · rename_i hlen
    intro o ho
    rcases mem_append.mp ho with ho | ho
    · rw [← (takeWhile_sublist _).eq_of_length hlen] at ho
      exact type_of_mem_readers ho
    · rwa [mem_singleton.mp ho]
  · exact absurd ((takeWhile_sublist _).subset h) he

/-- A reader that no writer stands behind keeps the token. -/
theorem inv_kept (hs : Inv s) (hr : e.type = .reader)
    (hown : RWToken.isOwner (requeued s.token e) e.client = true) (he : e ∈ s.token.waiters)
    (honly : ∀ b ∈ s.token.waiters, b.client = e.client → b = e) :
    Inv { s with token := requeued s.token e } := by
  have hlead : leading (requeued s.token e).waiters = (requeued s.token e).waiters := by
    obtain ⟨b, hb, hclient⟩ := (isOwner_iff ..).mp hown
    have hbe := honly b ((mem_requeued he b).mp (leading_subset _ hb)) hclient
    subst hbe
    exact all_readers_of_last hs.nodup.not_mem_erase hb hr
  have howns : ∀ x, State.Owns { s with token := requeued s.token e } x ↔ s.Owns x := by
    intro x
    exact and_congr_left fun _ => mem_requeued he x
  refine ⟨⟨nodup_requeued e hs.nodup, ?_, ?_, census_requeued he hs.census⟩, ?_, ?_, ?_⟩
  · intro x hx
    exact (mem_requeued he x).mpr (hs.queued x hx)
  · intro x
    rw [weight_requeued he]
    exact hs.counted x
  · intro x hx
    rw [hlead]
    exact hx.1
  · intro x hx
    obtain ⟨b, hb, hclient⟩ := hs.owned x hx
    exact ⟨b, (howns b).mpr hb, hclient⟩
  · intro w hw hhold b hb
    exact hs.writer w hw hhold b ((howns b).mp hb)

theorem holds_block_renew (s : State Client) (e : Entry Client) (t : Tokens Client)
    (x : Entry Client) : (s.block e t .renew).holds x = if x = e then 0 else s.holds x := by
  unfold holds block
  by_cases hx : x = e
  · simp [hx]
  · simp [hx]

/-- The owner goes to the back of the queue and lets the next ones have the
token. -/
theorem inv_yielded (hs : Inv s) (he : s.Owns e)
    (hother : ∀ x, x ≠ e → x.client = e.client → s.holds x = 0) :
    Inv ((s.block e (requeued s.token e) .renew).notify
      (notifyNewOwner (requeued s.token e) e)) := by
  obtain ⟨m, hm⟩ : ∃ m, m = s.block e (requeued s.token e) .renew := ⟨_, rfl⟩
  have htoken : m.token = requeued s.token e := by rw [hm]; rfl
  have hbooks : Books m := by
    rw [hm]
    refine ⟨nodup_requeued e hs.nodup, ?_, ?_, census_requeued he.1 hs.census⟩
    · intro x hx
      refine (mem_requeued he.1 x).mpr ?_
      by_cases hxe : x = e
      · rw [hxe]
        exact he.1
      · refine hs.queued x ?_
        simpa [block, hxe] using hx
    · intro x
      show s.grants x + owed (update s.pending e (some .renew) x) =
        weight (requeued s.token e) x
      rw [weight_requeued he.1, ← hs.counted]
      by_cases hxe : x = e
      · rw [hxe, update_self, he.2]
        rfl
      · rw [update_of_ne hxe]
  have hholds : ∀ x, 0 < m.holds x → x ≠ e ∧ 0 < s.holds x := by
    intro x hx
    rw [hm, holds_block_renew] at hx
    split at hx
    · omega
    · rename_i hne
      exact ⟨hne, hx⟩
  have howns : ∀ x, m.Owns x ↔ s.Owns x ∧ x ≠ e := by
    intro x
    rw [hm]
    constructor
    · intro hx
      obtain ⟨hne, hmem, hp⟩ := owns_block hx
      exact ⟨⟨(mem_requeued he.1 x).mp hmem, hp⟩, hne⟩
    · rintro ⟨hx, hne⟩
      refine ⟨(mem_requeued he.1 x).mpr hx.1, ?_⟩
      simpa [block, hne] using hx.2
  have howned : ∀ x, 0 < m.holds x → ∃ b, m.Owns b ∧ b.client = x.client := by
    intro x hx
    obtain ⟨hne, hpos⟩ := hholds x hx
    obtain ⟨b, hb, hclient⟩ := hs.owned x hpos
    refine ⟨b, (howns b).mpr ⟨hb, ?_⟩, hclient⟩
    rintro rfl
    have := hother x hne hclient.symm
    omega
  rw [← hm]
  rcases notifyNewOwner_cases (requeued s.token e) e with ⟨hr, -, hnone⟩ | ⟨hhead, hnew⟩
  · rw [hnone, notify_nil]
    refine ⟨hbooks, ?_, howned, ?_⟩
    · intro x hx
      obtain ⟨hx, hne⟩ := (howns x).mp hx
      have hlead := hs.leads x hx
      rw [htoken]
      refine mem_leading_append (mem_leading_erase hlead ?_ hne) e
      rw [readers_of_mem_leading (hs.leads e he) hr] at hlead
      exact type_of_mem_readers hlead
    · intro w hw hhold b hb
      exact hs.writer w hw (hholds w hhold).2 b ((howns b).mp hb).1
  · rw [hnew, ← htoken]
    have hfree : ∀ x, ¬ m.Owns x := by
      intro x hx
      obtain ⟨hx, hne⟩ := (howns x).mp hx
      refine hne (alone_of_handover (hs.leads e he) ?_ (hs.leads x hx))
      intro hr o ho
      refine hhead hr o ?_
      show (s.token.waiters.erase e ++ [e]).head? = some o
      rw [head?_append, ho, some_or]
    refine inv_handover hbooks ?_ hfree
    intro x
    by_contra hx
    obtain ⟨b, hb, -⟩ := howned x (by omega)
    exact hfree b hb

/-! ## Runs -/

/-- **A sound call keeps the invariant.** -/
theorem step_inv {l : Call Client} (hs : Inv s) (hl : Sound s l) (h : step s l = some s') :
    Inv s' := by
  obtain ⟨hp, hl⟩ := hl
  have enter : ∀ e, s.pending e = none → Entered s e s' →
      (RWToken.isOwner s.token e.client = true → (∃ b, s.Owns b ∧ b.client = e.client) ∧
        (e.type = .writer → ∀ b, s.Owns b → b.client = e.client)) → Inv s' := by
    intro e hp hent hown
    cases hent with
    | granted hq hfree => exact inv_granted hs hp hq hfree
    | nested howner => exact inv_nested hs hp (hown howner).1 (hown howner).2
    | refused => exact hs
    | queued hq => exact inv_queued hs hp hq
  cases l with
  | acquire e deadlock => exact enter e hp (acquire_entered h) hl
  | tryacquire e => exact enter e hp (tryacquire_entered h) hl
  | renew e =>
    rcases renew_cases h with rfl | ⟨hown, hlen, hrenew⟩
    · exact hs
    obtain ⟨he, hother, honly⟩ := hl hown hlen
    cases hrenew with
    | kept hr hkept => exact inv_kept hs hr hkept he (honly hr)
    | yielded _ => exact inv_yielded hs ⟨he, hp⟩ hother
  | release e => exact inv_released hs hp hl h

/-- **Writers exclude readers** as long as the calls are sound. -/
theorem writers_exclude {ls : List (Call Client)} {s : State Client}
    (hsound : AllSteps step Sound start ls) (h : run step start ls = some s) : Exclusive s :=
  (run_inv_of (fun _ _ _ hs hl h => step_inv hs hl h) start_inv hsound h).exclusive

/-- A writer lets a reader in by a renewal, and gets the token back from it. -/
def courtesy : List (Call Nat) :=
  [.acquire ⟨1, 0, .writer⟩ false, .acquire ⟨2, 0, .reader⟩ false, .renew ⟨1, 0, .writer⟩,
    .release ⟨2, 0, .reader⟩]

theorem courtesy_sound : AllSteps step Sound start courtesy := by
  refine ⟨⟨rfl, fun h => absurd h (by decide)⟩, ?_⟩
  rintro s ⟨⟩
  refine ⟨⟨rfl, fun h => absurd h (by decide)⟩, ?_⟩
  rintro s ⟨⟩
  refine ⟨⟨rfl, fun _ _ => ⟨by decide, fun x hne _ => ?_, fun h => absurd h (by decide)⟩⟩, ?_⟩
  · simp [holds, answered, wait, start, hne]
  rintro s ⟨⟩
  refine ⟨⟨rfl, fun _ x hne hc hpos => ?_⟩, ?_⟩
  · have hfirst : x ≠ ⟨1, 0, .writer⟩ := by
      rintro rfl
      cases hc
    simp [holds, notify, answered, wait, start, hne, hfirst] at hpos
  rintro s ⟨⟩
  trivial

theorem writers_exclude_courtesy :
    ∃ s, run step start courtesy = some s ∧ Exclusive s :=
  ⟨_, rfl, writers_exclude courtesy_sound rfl⟩

end Atcd.Token
