import Mathlib
/-!
# The local tokens: a mutex and a readers/writer lock over one queue of clients

`ACE_Tokens` keeps its owners and its waiters in one queue (`waiters_`). A mutex
token is owned by the head of the queue; a readers/writer token by its head when
that is a writer, and by its leading run of readers otherwise. A client is known
by its identifier only; it calls through proxies, each of which has an entry of
its own (`ACE_TPQ_Entry`, the queue's element) with its own nesting level.

The queue links its entries through `next_`, so an entry that is queued twice
breaks the list: `enqueue` is `none` there. What `token_acquired` is called for
is part of an operation's outcome.

Results:
- `RWToken.isOwner_iff`: the loops of `is_owner` and of `owners` agree;
- `mem_leading_append`: an entry put at the back takes no owner's place;
- `mem_leading_erase`: what is left of the leading readers when one of them goes;
- `acquire_cases`, `notifyNewOwner_cases`: what an operation can do;
- `Census`: the writers' counter, kept by every acquisition and release.
-/
namespace Atcd.Token

open List Option

/-- mirrors ACE/ace/Local_Tokens.h:653 -/
inductive ProxyType | reader | writer
deriving DecidableEq

/-- `ACE_TPQ_Entry`: what stands in the queue for a client's use of a proxy. A
mutex token does not look at the type. -/
structure Entry (Client : Type*) where
  client : Client
  proxy : Nat
  type : ProxyType
deriving DecidableEq

/-- `ACE_Tokens` with the writers' counter of `ACE_RW_Token`. The nesting levels
are the entries' own. -/
structure Tokens (Client : Type*) where
  waiters : List (Entry Client)
  numWriters : Int
  nesting : Entry Client → Nat

/-- The return value, or -1 with EWOULDBLOCK, EDEADLK or EACCES. -/
inductive Answer | success | wouldBlock | deadlock | access
deriving DecidableEq

/-- What an operation leaves, answers and calls `token_acquired` for. -/
structure Outcome (Client : Type*) where
  token : Tokens Client
  answer : Answer
  notified : List (Entry Client)

variable {Client : Type*} [DecidableEq Client]

/-! ## The queue -/

/-- `ACE_Token_Proxy_Queue::enqueue` on the list: at the front, at the back, or
behind the first `position` entries, at least one of them and at most all.
mirrors ACE/ace/Local_Tokens.cpp:307-357 -/
def insertAt (q : List (Entry Client)) (e : Entry Client) (position : Int) :
    List (Entry Client) :=
  if q = [] then [e]
  else if position = 0 then e :: q
  else if position = -1 then q ++ [e]
  else q.take (max position.toNat 1) ++ e :: q.drop (max position.toNat 1)

namespace Tokens

/-- `waiters_.enqueue`. -/
def enqueue (t : Tokens Client) (e : Entry Client) (position : Int) : Option (Tokens Client) :=
  if e ∈ t.waiters then none
  else some { t with waiters := insertAt t.waiters e position }

/-- mirrors Local_Tokens.cpp:359-377 -/
def dequeue (t : Tokens Client) : Tokens Client := { t with waiters := t.waiters.tail }

/-- mirrors Local_Tokens.cpp:399-441 -/
def remove (t : Tokens Client) (e : Entry Client) : Tokens Client :=
  { t with waiters := t.waiters.erase e }

/-- mirrors ACE/ace/Local_Tokens.inl:110-115 -/
def owner (t : Tokens Client) : Option (Entry Client) := t.waiters.head?

def nest (t : Tokens Client) (e : Entry Client) : Tokens Client :=
  { t with nesting := Function.update t.nesting e (t.nesting e + 1) }

def unnest (t : Tokens Client) (e : Entry Client) : Tokens Client :=
  { t with nesting := Function.update t.nesting e (t.nesting e - 1) }

end Tokens

theorem enqueue_back {t t' : Tokens Client} {e : Entry Client} (h : t.enqueue e (-1) = some t') :
    e ∉ t.waiters ∧ t' = { t with waiters := t.waiters ++ [e] } := by
  unfold Tokens.enqueue at h
  split at h
  · cases h
  · rename_i hmem
    refine ⟨hmem, ?_⟩
    have hq : insertAt t.waiters e (-1) = t.waiters ++ [e] := by
      unfold insertAt
      cases t.waiters <;> simp
    rw [hq] at h
    cases h
    rfl

/-! ## `ACE_Mutex_Token` -/

namespace MutexToken

open Tokens

/-- mirrors Local_Tokens.cpp:671-681 -/
def isOwner (t : Tokens Client) (id : Client) : Bool :=
  match t.owner with
  | some o => o.client = id
  | none => false

/-- mirrors Local_Tokens.cpp:632-646 -/
def owners (t : Tokens Client) : List (Entry Client) := t.owner.toList

/-- mirrors Local_Tokens.cpp:648-669 -/
def isWaitingFor (t : Tokens Client) (id : Client) : Bool :=
  if t.owner = none ∨ isOwner t id then false
  else t.waiters.tail.any fun e => e.client = id

/-- `deadlock` is what `check_deadlock` finds, if it is to be asked.
mirrors Local_Tokens.cpp:474-523 -/
def acquire (t : Tokens Client) (caller : Entry Client) (deadlock : Bool) :
    Option (Outcome Client) :=
  if t.owner = none then
    (t.enqueue caller (-1)).map fun t => ⟨t, .success, []⟩
  else if isOwner t caller.client then some ⟨t.nest caller, .success, []⟩
  else if deadlock then some ⟨t, .deadlock, []⟩
  else (t.enqueue caller (-1)).map fun t => ⟨t, .wouldBlock, []⟩

/-- mirrors Local_Tokens.cpp:599-630 -/
def release (t : Tokens Client) (caller : Entry Client) : Outcome Client :=
  if t.owner = none then ⟨t, .access, []⟩
  else if isOwner t caller.client then
    if 0 < t.nesting caller then ⟨t.unnest caller, .success, []⟩
    else ⟨t.dequeue, .success, t.dequeue.owner.toList⟩
  else ⟨t.remove caller, .success, []⟩

end MutexToken

/-! ## `ACE_RW_Token` -/

namespace RWToken

open Tokens

def readers (q : List (Entry Client)) : List (Entry Client) :=
  q.takeWhile fun e => e.type = .reader

/-- mirrors Local_Tokens.cpp:1052-1079 -/
def isOwner (t : Tokens Client) (id : Client) : Bool :=
  match t.owner with
  | none => false
  | some o =>
    if o.type = .writer then o.client = id
    else (readers t.waiters).any fun e => e.client = id

/-- mirrors Local_Tokens.cpp:984-1027 -/
def owners (t : Tokens Client) : List (Entry Client) :=
  match t.owner with
  | none => []
  | some o => if o.type = .writer then [o] else readers t.waiters

/-- mirrors Local_Tokens.cpp:1029-1050 -/
def isWaitingFor (t : Tokens Client) (id : Client) : Bool :=
  if t.owner = none ∨ isOwner t id then false
  else t.waiters.tail.any fun e => e.client = id

/-- `num_writers_` of a call through a writer proxy. -/
def countWriter (t : Tokens Client) (caller : Entry Client) (d : Int) : Tokens Client :=
  if caller.type = .writer then { t with numWriters := t.numWriters + d } else t

/-- `deadlock` is what `check_deadlock` finds, if it is to be asked.
mirrors Local_Tokens.cpp:731-814 -/
def acquire (t : Tokens Client) (caller : Entry Client) (deadlock : Bool) :
    Option (Outcome Client) :=
  let t := countWriter t caller 1
  if t.owner = none then
    (t.enqueue caller (-1)).map fun t => ⟨t, .success, []⟩
  else if isOwner t caller.client then some ⟨t.nest caller, .success, []⟩
  else if caller.type = .reader ∧ t.numWriters = 0 then
    (t.enqueue caller (-1)).map fun t => ⟨t, .success, []⟩
  else if deadlock then some ⟨countWriter t caller (-1), .deadlock, []⟩
  else (t.enqueue caller (-1)).map fun t => ⟨t, .wouldBlock, []⟩

/-- mirrors Local_Tokens.cpp:816-871 -/
def tryacquire (t : Tokens Client) (caller : Entry Client) : Option (Outcome Client) :=
  let t := countWriter t caller 1
  if t.owner = none then
    (t.enqueue caller (-1)).map fun t => ⟨t, .success, []⟩
  else if isOwner t caller.client then some ⟨t.nest caller, .success, []⟩
  else if caller.type = .reader ∧ t.numWriters = 0 then
    (t.enqueue caller (-1)).map fun t => ⟨t, .success, []⟩
  else some ⟨countWriter t caller (-1), .wouldBlock, []⟩

/-- Whom `notify_new_owner` calls back: nobody when a reader follows a reader
(the owners already know that they are owners), else the new owners.
mirrors Local_Tokens.cpp:950-981 -/
def notifyNewOwner (t : Tokens Client) (oldOwner : Entry Client) : List (Entry Client) :=
  match t.owner with
  | none => []
  | some o =>
    if o.type = .reader then
      if oldOwner.type = .reader then [] else readers t.waiters
    else [o]

/-- mirrors Local_Tokens.cpp:873-917 -/
def renew (t : Tokens Client) (caller : Entry Client) (requeuePosition : Int) :
    Option (Outcome Client) :=
  if isOwner t caller.client = false then some ⟨t, .access, []⟩
  else if t.waiters.length = 1 ∨ requeuePosition = 0 then some ⟨t, .success, []⟩
  else ((t.remove caller).enqueue caller requeuePosition).map fun t =>
    if caller.type = .reader ∧ isOwner t caller.client then ⟨t, .success, []⟩
    else ⟨t, .wouldBlock, notifyNewOwner t caller⟩

/-- mirrors Local_Tokens.cpp:919-948 -/
def release (t : Tokens Client) (caller : Entry Client) : Outcome Client :=
  if t.owner = none ∨ isOwner t caller.client = false then ⟨t, .access, []⟩
  else
    let t := countWriter t caller (-1)
    if 0 < t.nesting caller then ⟨t.unnest caller, .success, []⟩
    else ⟨t.remove caller, .success, notifyNewOwner (t.remove caller) caller⟩

end RWToken

/-! ## Who owns the token -/

namespace RWToken

open Tokens

/-- The entries that own the token, as a function of the queue alone. -/
def leading : List (Entry Client) → List (Entry Client)
  | [] => []
  | o :: q => if o.type = .writer then [o] else readers (o :: q)

omit [DecidableEq Client] in
theorem owners_eq (t : Tokens Client) : owners t = leading t.waiters := by
  unfold owners Tokens.owner
  cases t.waiters <;> rfl

theorem isOwner_iff (t : Tokens Client) (id : Client) :
    isOwner t id = true ↔ ∃ o ∈ leading t.waiters, o.client = id := by
  unfold isOwner Tokens.owner
  cases t.waiters with
  | nil => simp [leading]
  | cons o q =>
    by_cases ho : o.type = .writer
    · simp [leading, ho]
    · simp [leading, ho]

theorem isWaitingFor_iff (t : Tokens Client) (id : Client) : isWaitingFor t id = true ↔
      isOwner t id = false ∧ ∃ e ∈ t.waiters, e.client = id := by
  unfold isWaitingFor
  rcases hq : t.waiters with _ | ⟨o, q⟩
  · simp [Tokens.owner, hq]
  · have hown : t.owner ≠ none := by simp [Tokens.owner, hq]
    rcases hid : isOwner t id with _ | _
    · -- the head is an owner, so it is not the client that is looked for
      have hne : o.client ≠ id := by
        intro he
        have : isOwner t id = true := by
          rw [isOwner_iff, hq]
          refine ⟨o, ?_, he⟩
          by_cases ho : o.type = .writer
          · simp [leading, ho]
          · have : o.type = .reader := by cases h : o.type <;> simp_all
            simp [leading, readers, this]
        simp [hid] at this
      simp [hown, hne]
    · simp

variable {e o : Entry Client} {q : List (Entry Client)} {t : Tokens Client}

omit [DecidableEq Client] in
theorem reader_of_ne_writer (h : e.type ≠ .writer) : e.type = .reader := by
  cases he : e.type with
  | reader => rfl
  | writer => exact absurd he h

omit [DecidableEq Client] in
theorem writer_of_ne_reader (h : e.type ≠ .reader) : e.type = .writer := by
  cases he : e.type with
  | reader => exact absurd he h
  | writer => rfl

omit [DecidableEq Client] in
theorem type_of_mem_readers (h : o ∈ readers q) : o.type = .reader := by
  simpa using mem_takeWhile_imp h

omit [DecidableEq Client] in
theorem leading_subset (q : List (Entry Client)) : leading q ⊆ q := by
  intro o ho
  cases q with
  | nil => exact ho
  | cons a q =>
    rw [leading] at ho
    split at ho
    · rw [mem_singleton.mp ho]
      exact mem_cons_self
    · exact (takeWhile_sublist _).subset ho

omit [DecidableEq Client] in
theorem leading_of_mem_readers (h : o ∈ readers q) : leading q = readers q := by
  cases q with
  | nil => rfl
  | cons a q =>
    rw [leading, if_neg]
    intro ha
    simp [readers, ha] at h

omit [DecidableEq Client] in
theorem readers_of_mem_leading (h : o ∈ leading q) (ho : o.type = .reader) :
    leading q = readers q := by
  cases q with
  | nil => rfl
  | cons a q =>
    rw [leading] at h ⊢
    split at h
    · rename_i ha
      rw [mem_singleton.mp h, ha] at ho
      cases ho
    · rename_i ha
      rw [if_neg ha]

omit [DecidableEq Client] in
theorem leading_of_writer {w : Entry Client} (h : w ∈ leading q) (hw : w.type = .writer) :
    leading q = [w] := by
  cases q with
  | nil => cases h
  | cons a q =>
    rw [leading] at h ⊢
    split at h
    · rename_i ha
      rw [if_pos ha, mem_singleton.mp h]
    · have := type_of_mem_readers h
      rw [hw] at this
      cases this

omit [DecidableEq Client] in
theorem leading_of_all_readers (h : ∀ o ∈ q, o.type = .reader) : leading q = q := by
  cases q with
  | nil => rfl
  | cons a q =>
    have ha : a.type ≠ .writer := by simp [h a mem_cons_self]
    rw [leading, if_neg ha, readers, takeWhile_eq_self_iff]
    simpa using h

omit [DecidableEq Client] in
theorem mem_leading_append (h : o ∈ leading q) (e : Entry Client) : o ∈ leading (q ++ [e]) := by
  cases q with
  | nil => cases h
  | cons a q =>
    rw [leading] at h
    rw [cons_append, leading]
    split at h
    · rename_i ha
      rwa [if_pos ha]
    · rename_i ha
      rw [if_neg ha, ← cons_append, readers, takeWhile_append]
      split
      · exact mem_append_left _ ((takeWhile_subset _) h)
      · exact h

theorem mem_readers_erase (h : o ∈ readers q) (hne : o ≠ e) : o ∈ readers (q.erase e) := by
  induction q with
  | nil => exact h
  | cons a q ih =>
    by_cases ha : a.type = .reader
    · simp only [readers, takeWhile_cons, ha, decide_true, if_true, mem_cons] at h
      by_cases hae : a = e
      · subst hae
        rw [erase_cons_head]
        exact h.resolve_left hne
      · rw [erase_cons_tail (by simpa using hae)]
        simp only [readers, takeWhile_cons, ha, decide_true, if_true, mem_cons]
        exact h.imp_right ih
    · simp [readers, ha] at h

theorem readers_erase_subset (he : e ∈ readers q) : readers (q.erase e) ⊆ readers q := by
  induction q with
  | nil => cases he
  | cons a q ih =>
    have ha : a.type = .reader := by
      by_contra hnot
      simp [readers, hnot] at he
    intro o ho
    rw [readers, takeWhile_cons_of_pos (by simpa using ha)] at he ⊢
    by_cases hae : a = e
    · subst hae
      rw [erase_cons_head] at ho
      exact mem_cons_of_mem _ ho
    · rw [erase_cons_tail (by simpa using hae), readers,
        takeWhile_cons_of_pos (by simpa using ha)] at ho
      rcases mem_cons.mp ho with rfl | ho
      · exact mem_cons_self
      · exact mem_cons_of_mem _
          (ih ((mem_cons.mp he).resolve_left (Ne.symm hae)) ho)

theorem mem_leading_erase (h : o ∈ leading q) (ho : o.type = .reader) (hne : o ≠ e) :
    o ∈ leading (q.erase e) := by
  rw [readers_of_mem_leading h ho] at h
  have := mem_readers_erase h hne
  rwa [leading_of_mem_readers this]

/-! ## What an operation does -/

def joined (t : Tokens Client) (e : Entry Client) : Tokens Client :=
  { countWriter t e 1 with waiters := t.waiters ++ [e] }

omit [DecidableEq Client] in
@[simp] theorem countWriter_waiters (t : Tokens Client) (e : Entry Client) (d : Int) :
    (countWriter t e d).waiters = t.waiters := by
  unfold countWriter
  split <;> rfl

omit [DecidableEq Client] in
@[simp] theorem countWriter_nesting (t : Tokens Client) (e : Entry Client) (d : Int) :
    (countWriter t e d).nesting = t.nesting := by
  unfold countWriter
  split <;> rfl

omit [DecidableEq Client] in
@[simp] theorem countWriter_numWriters (t : Tokens Client) (e : Entry Client) (d : Int) :
    (countWriter t e d).numWriters = t.numWriters + if e.type = .writer then d else 0 := by
  unfold countWriter
  split <;> simp

omit [DecidableEq Client] in
@[simp] theorem countWriter_countWriter (t : Tokens Client) (e : Entry Client) :
    countWriter (countWriter t e 1) e (-1) = t := by
  unfold countWriter
  split
  · show { t with numWriters := t.numWriters + 1 + -1 } = t
    rw [Int.add_neg_cancel_right]
  · rfl

theorem isOwner_countWriter (t : Tokens Client) (e : Entry Client) (d : Int) (id : Client) :
    isOwner (countWriter t e d) id = isOwner t id := by
  unfold countWriter
  split <;> rfl

omit [DecidableEq Client] in
theorem numWriters_joined (t : Tokens Client) (e : Entry Client) :
    (joined t e).numWriters = t.numWriters + if e.type = .writer then 1 else 0 :=
  countWriter_numWriters ..

theorem enqueue_joined {t' : Tokens Client} (h : (countWriter t e 1).enqueue e (-1) = some t') :
    e ∉ t.waiters ∧ t' = joined t e := by
  obtain ⟨hmem, rfl⟩ := enqueue_back h
  rw [countWriter_waiters] at hmem ⊢
  exact ⟨hmem, rfl⟩

def Blocks (t : Tokens Client) (e : Entry Client) : Prop :=
  t.waiters ≠ [] ∧ isOwner t e.client = false ∧ (e.type = .reader → t.numWriters ≠ 0)

/-- What an acquisition can answer. -/
inductive Acquired (t : Tokens Client) (e : Entry Client) (deadlock : Bool) :
    Outcome Client → Prop
  | granted (hq : e ∉ t.waiters) (h : t.waiters = [] ∨ e.type = .reader ∧ t.numWriters = 0) :
      Acquired t e deadlock ⟨joined t e, .success, []⟩
  | nested (h : isOwner t e.client = true) :
      Acquired t e deadlock ⟨(countWriter t e 1).nest e, .success, []⟩
  | refused (hb : Blocks t e) (h : deadlock = true) : Acquired t e deadlock ⟨t, .deadlock, []⟩
  | queued (hq : e ∉ t.waiters) (hb : Blocks t e) (h : deadlock = false) :
      Acquired t e deadlock ⟨joined t e, .wouldBlock, []⟩

theorem acquire_cases {deadlock : Bool} {o : Outcome Client} (h : acquire t e deadlock = some o) :
    Acquired t e deadlock o := by
  unfold acquire at h
  dsimp only at h
  split at h
  · rename_i hown
    obtain ⟨t', ht, rfl⟩ := map_eq_some_iff.mp h
    obtain ⟨hmem, rfl⟩ := enqueue_joined ht
    refine .granted hmem (.inl ?_)
    simpa [owner] using hown
  rename_i hsome
  split at h
  · rename_i hown
    cases h
    rw [isOwner_countWriter] at hown
    exact .nested hown
  rename_i hnot
  split at h
  · rename_i hr
    obtain ⟨t', ht, rfl⟩ := map_eq_some_iff.mp h
    obtain ⟨hmem, rfl⟩ := enqueue_joined ht
    refine .granted hmem (.inr ⟨hr.1, ?_⟩)
    simpa [hr.1] using hr.2
  rename_i hr
  have hb : Blocks t e := by
    refine ⟨by simpa [owner] using hsome, ?_, fun hread hzero => hr ⟨hread, ?_⟩⟩
    · simpa [isOwner_countWriter] using hnot
    · simpa [hread] using hzero
  split at h
  · rename_i hd
    cases h
    rw [countWriter_countWriter]
    exact .refused hb hd
  · rename_i hd
    obtain ⟨t', ht, rfl⟩ := map_eq_some_iff.mp h
    obtain ⟨hmem, rfl⟩ := enqueue_joined ht
    exact .queued hmem hb (by simpa using hd)

theorem enqueue_defined (h : e ∉ t.waiters) (position : Int) : (t.enqueue e position).isSome := by
  unfold enqueue
  rw [if_neg h]
  rfl

theorem acquire_defined (h : e ∈ t.waiters → isOwner t e.client = true) (deadlock : Bool) :
    (acquire t e deadlock).isSome := by
  have hin : ∀ d, isOwner t e.client ≠ true → ((countWriter t e d).enqueue e (-1)).isSome := by
    intro d hnot
    apply enqueue_defined
    rw [countWriter_waiters]
    exact fun hmem => hnot (h hmem)
  unfold acquire
  dsimp only
  split
  · rename_i hown
    rw [isSome_map]
    apply enqueue_defined
    rw [countWriter_waiters]
    have hnil : t.waiters = [] := by simpa [owner] using hown
    rw [hnil]
    exact not_mem_nil
  split
  · rfl
  rename_i hnot
  rw [isOwner_countWriter] at hnot
  split
  · rw [isSome_map]
    exact hin 1 hnot
  split
  · rfl
  · rw [isSome_map]
    exact hin 1 hnot

theorem tryacquire_eq (t : Tokens Client) (e : Entry Client) :
    tryacquire t e = (acquire t e true).map fun o =>
      if o.answer = .deadlock then { o with answer := .wouldBlock } else o := by
  unfold tryacquire acquire
  dsimp only
  split
  · rw [Option.map_map]
    rfl
  split
  · rfl
  split
  · rw [Option.map_map]
    rfl
  · rfl

omit [DecidableEq Client] in
theorem head_of_mem_readers (h : o ∈ readers q) : ∃ a, q.head? = some a ∧ a.type = .reader := by
  cases q with
  | nil => cases h
  | cons a q =>
    refine ⟨a, rfl, reader_of_ne_writer ?_⟩
    intro ha
    simp [readers, ha] at h

omit [DecidableEq Client] in
theorem notifyNewOwner_cases (t : Tokens Client) (e : Entry Client) :
    (e.type = .reader ∧ (∀ o, t.waiters.head? = some o → o.type = .reader) ∧
      notifyNewOwner t e = []) ∨
    ((e.type = .reader → ∀ o, t.waiters.head? = some o → o.type = .writer) ∧
      notifyNewOwner t e = leading t.waiters) := by
  unfold notifyNewOwner owner
  cases hq : t.waiters with
  | nil => exact .inr ⟨fun _ o ho => absurd ho (by simp), rfl⟩
  | cons a q =>
    by_cases ha : a.type = .reader
    · by_cases he : e.type = .reader
      · exact .inl ⟨he, fun o ho => by cases ho; exact ha, by simp [ha, he]⟩
      · exact .inr ⟨fun h => absurd h he, by simp [leading, ha, he]⟩
    · have hw : a.type = .writer := by
        cases h : a.type with
        | reader => exact absurd h ha
        | writer => rfl
      refine .inr ⟨fun _ o ho => ?_, by simp [leading, hw]⟩
      cases ho
      exact hw

theorem alone_of_handover (he : e ∈ leading q)
    (hhead : e.type = .reader → ∀ o, (q.erase e).head? = some o → o.type = .writer)
    (ho : o ∈ leading q) : o = e := by
  by_contra hne
  by_cases hw : e.type = .writer
  · rw [leading_of_writer he hw, mem_singleton] at ho
    exact hne ho
  · have hr := reader_of_ne_writer hw
    rw [readers_of_mem_leading he hr] at ho
    obtain ⟨a, ha, hread⟩ := head_of_mem_readers (mem_readers_erase ho hne)
    rw [hhead hr a ha] at hread
    cases hread

theorem release_eq (h : isOwner t e.client = true) : release t e =
      if 0 < t.nesting e then ⟨(countWriter t e (-1)).unnest e, .success, []⟩
      else ⟨(countWriter t e (-1)).remove e, .success,
        notifyNewOwner ((countWriter t e (-1)).remove e) e⟩ := by
  have hown : t.owner ≠ none := by
    intro hnone
    simp [isOwner, hnone] at h
  unfold release
  rw [if_neg (by simp [hown, h])]
  simp only [countWriter_nesting]

/-! ## What the token keeps of its acquisitions -/

/-- The acquisitions through an entry that the token keeps: the nested ones and
the one that the entry is queued for. -/
def weight (t : Tokens Client) (e : Entry Client) : Nat :=
  t.nesting e + if e ∈ t.waiters then 1 else 0

/-- `num_writers_` counts the acquisitions through writer proxies. -/
def Census (t : Tokens Client) : Prop :=
  ∃ ws : Multiset (Entry Client), (∀ w ∈ ws, w.type = .writer) ∧ (ws.card : Int) = t.numWriters ∧
    ∀ w, w.type = .writer → ws.count w = weight t w

theorem weight_joined (hq : e ∉ t.waiters) (w : Entry Client) :
    weight (joined t e) w = weight t w + if w = e then 1 else 0 := by
  unfold weight joined
  by_cases hw : w = e
  · subst hw
    simp [hq]
  · simp [hw]

theorem weight_nest (t : Tokens Client) (e w : Entry Client) :
    weight ((countWriter t e 1).nest e) w = weight t w + if w = e then 1 else 0 := by
  unfold weight nest
  by_cases hw : w = e
  · subst hw
    simp
    omega
  · simp [hw]

theorem weight_unnest (h : 0 < t.nesting e) (w : Entry Client) :
    weight ((countWriter t e (-1)).unnest e) w + (if w = e then 1 else 0) = weight t w := by
  unfold weight unnest
  by_cases hw : w = e
  · subst hw
    simp
    omega
  · simp [hw]

theorem weight_remove (hq : e ∈ t.waiters) (hnd : t.waiters.Nodup) (w : Entry Client) :
    weight ((countWriter t e (-1)).remove e) w + (if w = e then 1 else 0) = weight t w := by
  unfold weight remove
  by_cases hw : w = e
  · subst hw
    simp [hq, hnd.not_mem_erase]
  · simp [hw, mem_erase_of_ne hw]

open Multiset

theorem Census.grow {t' : Tokens Client} (h : Census t)
    (hn : t'.numWriters = t.numWriters + if e.type = .writer then 1 else 0)
    (hw : ∀ w, weight t' w = weight t w + if w = e then 1 else 0) : Census t' := by
  obtain ⟨ws, htype, hcard, hcount⟩ := h
  by_cases he : e.type = .writer
  · refine ⟨e ::ₘ ws, ?_, ?_, ?_⟩
    · intro w hmem
      rcases mem_cons.mp hmem with rfl | hmem
      · exact he
      · exact htype w hmem
    · rw [card_cons, hn, if_pos he, ← hcard]
      push_cast
      rfl
    · intro w hwt
      rw [Multiset.count_cons, hcount w hwt, hw]
  · refine ⟨ws, htype, ?_, ?_⟩
    · rw [hn, if_neg he, hcard, Int.add_zero]
    · intro w hwt
      have hne : w ≠ e := by
        rintro rfl
        exact he hwt
      rw [hcount w hwt, hw, if_neg hne]
      rfl

theorem Census.shrink {t' : Tokens Client} (h : Census t)
    (hn : t'.numWriters = t.numWriters + if e.type = .writer then -1 else 0)
    (hw : ∀ w, weight t' w + (if w = e then 1 else 0) = weight t w) : Census t' := by
  obtain ⟨ws, htype, hcard, hcount⟩ := h
  by_cases he : e.type = .writer
  · have hmem : e ∈ ws := by
      have := hw e
      rw [if_pos rfl] at this
      rw [← one_le_count_iff_mem, hcount e he]
      omega
    refine ⟨ws.erase e, fun w hmem => htype w (mem_of_mem_erase hmem), ?_, ?_⟩
    · have := card_erase_add_one hmem
      rw [hn, if_pos he, ← hcard]
      omega
    · intro w hwt
      have := hw w
      by_cases hwe : w = e
      · subst hwe
        rw [if_pos rfl] at this
        rw [Multiset.count_erase_self, hcount w hwt]
        omega
      · rw [if_neg hwe] at this
        rw [Multiset.count_erase_of_ne hwe, hcount w hwt]
        omega
  · refine ⟨ws, htype, ?_, ?_⟩
    · rw [hn, if_neg he, hcard, Int.add_zero]
    · intro w hwt
      have hne : w ≠ e := by
        rintro rfl
        exact he hwt
      have := hw w
      rw [if_neg hne] at this
      rw [hcount w hwt]
      omega

theorem Census.no_writer (h : Census t) (hn : t.numWriters = 0) {w : Entry Client}
    (hw : w.type = .writer) : weight t w = 0 := by
  obtain ⟨ws, -, hcard, hcount⟩ := h
  have : ws = 0 := by
    rw [← card_eq_zero]
    omega
  rw [← hcount w hw, this, count_zero]

end RWToken

end Atcd.Token
