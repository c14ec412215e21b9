import Atcd.Core.Run
import Atcd.Core.Search
import Atcd.Tokens.Local
/-!
# `ACE_Token_Manager`: tokens of both kinds and the search for deadlocks

The manager has the collection of tokens. An acquisition that would wait asks it
whether the wait would close a circle: `check_deadlock` goes from the token to its
owners, from each owner to the token it is found waiting for, and so on, and marks
the tokens it has visited. Each client uses a token through one proxy, the token's
type for the client.

The state has, beside the tokens and their marks, the token that a client waits
for: it calls nothing until it is called back.

Results:
- `leading_append`, `leading_append_writer`: who owns a token when an entry is put at the
  back of its queue;
- `acquired`, `released`: what an acquisition and a release do to a token's queue
  and owners, for both kinds at once.
-/
namespace Atcd.Token

open Atcd.Core Tokens List Function Option

inductive Kind | mutex | rw
deriving DecidableEq

/-- The manager's collection, in its own order, and how the clients use the
tokens. -/
structure Collection (Id Client : Type*) where
  ids : List Id
  kind : Id → Kind
  type : Id → Client → ProxyType

/-- The client's entry at the token. -/
def Collection.entry {Id Client : Type*} (C : Collection Id Client) (i : Id) (c : Client) :
    Entry Client :=
  ⟨c, 0, C.type i c⟩

structure Manager (Id Client : Type*) where
  token : Id → Tokens Client
  visited : Id → Bool
  /-- The token whose `token_acquired` the client waits for. -/
  pending : Client → Option Id

/-- A call of a client, on a token. -/
inductive Op (Id Client : Type*)
  | acquire (c : Client) (i : Id)
  | release (c : Client) (i : Id)

/-! ## The tokens' virtual functions -/

section Virtual

variable {Client : Type*} [DecidableEq Client]

def owners (k : Kind) (t : Tokens Client) : List (Entry Client) :=
  match k with
  | .mutex => MutexToken.owners t
  | .rw => RWToken.owners t

def isOwner (k : Kind) (t : Tokens Client) (id : Client) : Bool :=
  match k with
  | .mutex => MutexToken.isOwner t id
  | .rw => RWToken.isOwner t id

def isWaitingFor (k : Kind) (t : Tokens Client) (id : Client) : Bool :=
  match k with
  | .mutex => MutexToken.isWaitingFor t id
  | .rw => RWToken.isWaitingFor t id

def acquire (k : Kind) (t : Tokens Client) (caller : Entry Client) (deadlock : Bool) :
    Option (Outcome Client) :=
  match k with
  | .mutex => MutexToken.acquire t caller deadlock
  | .rw => RWToken.acquire t caller deadlock

def release (k : Kind) (t : Tokens Client) (caller : Entry Client) : Outcome Client :=
  match k with
  | .mutex => MutexToken.release t caller
  | .rw => RWToken.release t caller

end Virtual

/-! ## The manager -/

variable {Id Client : Type*} [DecidableEq Id] [DecidableEq Client]

namespace Manager

/-- The first token that the client is found waiting for.
mirrors ACE/ace/Token_Manager.cpp:193-207 -/
def tokenWaitingFor (C : Collection Id Client) (m : Manager Id Client) (client : Client) :
    Option Id :=
  C.ids.find? fun i => isWaitingFor (C.kind i) (m.token i) client

/-- The tokens that the owners of a token wait for, in the order in which they are
taken from the stack. -/
def next (C : Collection Id Client) (m : Manager Id Client) (i : Id) : List Id :=
  (owners (C.kind i) (m.token i)).reverse.filterMap fun o => m.tokenWaitingFor C o.client

/-- The recursion, which `owners` stops when it finds the client, and the loop
that takes the marks back. No path has more tokens than the collection.
mirrors Token_Manager.cpp:101-191 -/
def checkDeadlock (C : Collection Id Client) (m : Manager Id Client) (client : Client) (i : Id) :
    Option (Bool × Manager Id Client) :=
  (search (fun i => (owners (C.kind i) (m.token i)).any fun o => o.client = client) (m.next C)
    (C.ids.length + 1) m.visited i).map fun r =>
      (r.1, { m with visited := fun j => if j ∈ C.ids then false else r.2 j })

/-- `acquire` with `ignore_deadlock` 0. The manager is asked before the token, not
within its call: it changes no token and leaves no mark. -/
def acquire (C : Collection Id Client) (m : Manager Id Client) (c : Client) (i : Id) :
    Option (Manager Id Client × Answer) :=
  (m.checkDeadlock C c i).bind fun r =>
    (Token.acquire (C.kind i) (m.token i) (C.entry i c) r.1).map fun o =>
      ({ token := Function.update m.token i o.token
         visited := r.2.visited
         pending := if o.answer = .wouldBlock then Function.update m.pending c (some i)
           else m.pending }, o.answer)

/-- `release`, and `token_acquired` for the new owners. -/
def release (C : Collection Id Client) (m : Manager Id Client) (c : Client) (i : Id) :
    Manager Id Client × Answer :=
  let o := Token.release (C.kind i) (m.token i) (C.entry i c)
  ({ token := Function.update m.token i o.token
     visited := m.visited
     pending := fun d => if ∃ n ∈ o.notified, n.client = d then none else m.pending d }, o.answer)

/-- A client that does not wait acquires a token, or releases one that it owns. -/
def call (C : Collection Id Client) (m : Manager Id Client) :
    Op Id Client → Option (Manager Id Client × Answer)
  | .acquire c i => if i ∈ C.ids ∧ m.pending c = none then m.acquire C c i else none
  | .release c i =>
    if i ∈ C.ids ∧ m.pending c = none ∧ isOwner (C.kind i) (m.token i) c = true then
      some (m.release C c i)
    else none

def step (C : Collection Id Client) (m : Manager Id Client) (op : Op Id Client) :
    Option (Manager Id Client) :=
  (m.call C op).map Prod.fst

/-- No token is owned. -/
def start : Manager Id Client := ⟨fun _ => ⟨[], 0, fun _ => 0⟩, fun _ => false, fun _ => none⟩

end Manager

/-! ## Owners of both kinds -/

open RWToken

/-- The entries that own a token, as a function of its queue. -/
def lead (k : Kind) (q : List (Entry Client)) : List (Entry Client) :=
  match k with
  | .mutex => q.head?.toList
  | .rw => leading q

omit [DecidableEq Client] in
theorem owners_lead [DecidableEq Client] (k : Kind) (t : Tokens Client) :
    owners k t = lead k t.waiters := by
  cases k with
  | mutex => rfl
  | rw => exact owners_eq t

theorem isOwner_lead (k : Kind) (t : Tokens Client) (id : Client) :
    isOwner k t id = true ↔ ∃ o ∈ lead k t.waiters, o.client = id := by
  cases k with
  | mutex =>
    unfold isOwner MutexToken.isOwner lead owner
    cases t.waiters <;> simp
  | rw => exact isOwner_iff t id

theorem isWaitingFor_lead (k : Kind) (t : Tokens Client) (id : Client) :
    isWaitingFor k t id = true ↔ isOwner k t id = false ∧ ∃ e ∈ t.waiters, e.client = id := by
  cases k with
  | mutex =>
    unfold isWaitingFor isOwner MutexToken.isWaitingFor MutexToken.isOwner owner
    rcases t.waiters with _ | ⟨o, q⟩
    · simp
    · by_cases ho : o.client = id <;> simp [ho]
  | rw => exact RWToken.isWaitingFor_iff t id

omit [DecidableEq Client] in
theorem lead_subset (k : Kind) (q : List (Entry Client)) : lead k q ⊆ q := by
  cases k with
  | mutex =>
    intro o ho
    exact mem_of_mem_head? (by simpa [lead] using ho)
  | rw => exact leading_subset q

omit [DecidableEq Client] in
theorem lead_singleton (k : Kind) (e : Entry Client) : lead k [e] = [e] := by
  cases k with
  | mutex => rfl
  | rw =>
    show leading [e] = [e]
    by_cases he : e.type = .writer
    · simp [leading, he]
    · simp [leading, readers, reader_of_ne_writer he]

omit [DecidableEq Client] in
/-- A writer in the queue keeps later entries from owning the token. -/
theorem leading_append {q : List (Entry Client)} {w : Entry Client} (hw : w ∈ q)
    (hwt : w.type = .writer) (e : Entry Client) : leading (q ++ [e]) = leading q := by
  cases q with
  | nil => cases hw
  | cons a q =>
    rw [cons_append, leading, leading]
    split
    · rfl
    · rw [← cons_append, readers, readers, takeWhile_append, if_neg]
      intro hlen
      rw [← (takeWhile_sublist _).eq_of_length hlen] at hw
      rw [type_of_mem_readers hw] at hwt
      cases hwt

variable {e : Entry Client} {t : Tokens Client}

omit [DecidableEq Client] in
theorem leading_append_writer {q : List (Entry Client)} (hq : q ≠ []) (he : e.type = .writer) :
    leading (q ++ [e]) = leading q := by
  cases q with
  | nil => exact absurd rfl hq
  | cons a q =>
    rw [cons_append, leading, leading]
    split
    · rfl
    · rw [← cons_append, readers, readers, takeWhile_append]
      split
      · rename_i hlen
        rw [takeWhile_cons_of_neg (by simp [he]), append_nil]
        exact ((takeWhile_sublist _).eq_of_length hlen).symm
      · rfl

/-! ## What a call does to a token -/

/-- What every operation keeps of a token that a client uses through one proxy. -/
structure Sane (k : Kind) (t : Tokens Client) : Prop where
  nodup : t.waiters.Nodup
  nests : ∀ e, 0 < t.nesting e → e ∈ t.waiters
  census : k = .rw → Census t

/-- The call cannot be granted at once. -/
def Blocked (k : Kind) (t : Tokens Client) (e : Entry Client) : Prop :=
  t.waiters ≠ [] ∧ isOwner k t e.client = false ∧
    (k = .rw → e.type = .reader → t.numWriters ≠ 0)

/-- What an acquisition does to the queue: with a grant everybody in it owns the
token, with a wait the owners stay the same. -/
inductive Taken (k : Kind) (t : Tokens Client) (e : Entry Client) (deadlock : Bool) :
    Outcome Client → Prop
  | granted (t' : Tokens Client) (hfree : ¬ Blocked k t e) (hw : t'.waiters = t.waiters ++ [e])
      (hall : lead k t.waiters = t.waiters) (hlead : lead k t'.waiters = t'.waiters) :
      Taken k t e deadlock ⟨t', .success, []⟩
  | nested (t' : Tokens Client) (hown : isOwner k t e.client = true)
      (hw : t'.waiters = t.waiters) : Taken k t e deadlock ⟨t', .success, []⟩
  | refused (hb : Blocked k t e) (hd : deadlock = true) :
      Taken k t e deadlock ⟨t, .deadlock, []⟩
  | queued (t' : Tokens Client) (hq : e ∉ t.waiters) (hb : Blocked k t e) (hd : deadlock = false)
      (hw : t'.waiters = t.waiters ++ [e]) (hlead : lead k t'.waiters = lead k t.waiters) :
      Taken k t e deadlock ⟨t', .wouldBlock, []⟩

theorem Sane.start (k : Kind) : Sane k (⟨[], 0, fun _ => 0⟩ : Tokens Client) where
  nodup := nodup_nil
  nests e h := absurd h (Nat.lt_irrefl 0)
  census _ := ⟨0, by simp, rfl, fun w _ => rfl⟩

variable {k : Kind} {t' : Tokens Client}

theorem Sane.joined (hs : Sane k t) (hq : e ∉ t.waiters)
    (hw : t'.waiters = t.waiters ++ [e]) (hn : t'.nesting = t.nesting) (hc : k = .rw → Census t') :
    Sane k t' where
  nodup := by
    rw [hw]
    refine nodup_append.mpr ⟨hs.nodup, nodup_singleton e, fun a ha b hb hab => hq ?_⟩
    rwa [← mem_singleton.mp hb, ← hab]
  nests x hx := by
    rw [hn] at hx
    rw [hw]
    exact mem_append_left _ (hs.nests x hx)
  census := hc

theorem Sane.nested (hs : Sane k t) (hq : e ∈ t.waiters)
    (hw : t'.waiters = t.waiters) (hn : t'.nesting = update t.nesting e (t.nesting e + 1))
    (hc : k = .rw → Census t') : Sane k t' where
  nodup := hw ▸ hs.nodup
  nests x hx := by
    rw [hw]
    by_cases hxe : x = e
    · rwa [hxe]
    · rw [hn, update_of_ne hxe] at hx
      exact hs.nests x hx
  census := hc

/-- Without writers counted the queue has none. -/
theorem all_readers (h : Census t) (hn : t.numWriters = 0) :
    ∀ o ∈ t.waiters, o.type = .reader := by
  intro o ho
  apply reader_of_ne_writer
  intro hw
  have := h.no_writer hn hw
  simp [weight, ho] at this

theorem exists_writer (hs : Sane .rw t) (hn : t.numWriters ≠ 0) :
    ∃ w ∈ t.waiters, w.type = .writer := by
  obtain ⟨ws, htype, hcard, hcount⟩ := hs.census rfl
  have hpos : ws ≠ 0 := by
    rintro rfl
    exact hn (by simpa using hcard.symm)
  obtain ⟨w, hw⟩ := Multiset.exists_mem_of_ne_zero hpos
  refine ⟨w, ?_, htype w hw⟩
  by_contra hnot
  have h1 := Multiset.one_le_count_iff_mem.mpr hw
  rw [hcount w (htype w hw), weight, if_neg hnot] at h1
  exact hnot (hs.nests w (by omega))

theorem acquired {deadlock : Bool} {o : Outcome Client} (hs : Sane k t)
    (hmine : ∀ n ∈ t.waiters, n.client = e.client → n = e) (h : acquire k t e deadlock = some o) :
    Sane k o.token ∧ Taken k t e deadlock o := by
  have hin : isOwner k t e.client = true → e ∈ t.waiters := by
    intro hown
    obtain ⟨b, hb, hclient⟩ := (isOwner_lead ..).mp hown
    rw [← hmine b (lead_subset k _ hb) hclient]
    exact lead_subset k _ hb
  cases k with
  | mutex =>
    simp only [acquire, MutexToken.acquire] at h
    split at h
    · rename_i hown
      have hnil : t.waiters = [] := by simpa [owner] using hown
      obtain ⟨t', ht, rfl⟩ := map_eq_some_iff.mp h
      obtain ⟨hq, rfl⟩ := enqueue_back ht
      refine ⟨hs.joined hq rfl rfl (fun hk => by cases hk), .granted _ (fun hb => hb.1 hnil) rfl ?_ ?_⟩
      · rw [hnil]
        rfl
      · rw [hnil]
        rfl
    rename_i hsome
    split at h
    · rename_i hown
      cases h
      exact ⟨hs.nested (hin hown) rfl rfl (fun hk => by cases hk), .nested _ hown rfl⟩
    rename_i hnot
    have hb : Blocked .mutex t e :=
      ⟨by simpa [owner] using hsome, by simpa [isOwner] using hnot, fun hk => by cases hk⟩
    split at h
    · rename_i hd
      cases h
      exact ⟨hs, .refused hb hd⟩
    · rename_i hd
      obtain ⟨t', ht, rfl⟩ := map_eq_some_iff.mp h
      obtain ⟨hq, rfl⟩ := enqueue_back ht
      refine ⟨hs.joined hq rfl rfl (fun hk => by cases hk), .queued _ hq hb (by simpa using hd) rfl ?_⟩
      show (t.waiters ++ [e]).head?.toList = t.waiters.head?.toList
      rw [head?_append_of_ne_nil _ hb.1]
  | rw =>
    cases acquire_cases h with
    | granted hq hfree =>
      have hc := (hs.census rfl).grow (numWriters_joined ..) (weight_joined hq)
      have hnot : ¬ Blocked .rw t e := by
        rintro ⟨hne, -, hn⟩
        rcases hfree with hnil | ⟨hr, hzero⟩
        · exact hne hnil
        · exact hn rfl hr hzero
      refine ⟨hs.joined hq rfl (countWriter_nesting ..) fun _ => hc, .granted _ hnot rfl ?_ ?_⟩
      · rcases hfree with hnil | ⟨-, hzero⟩
        · rw [hnil]
          rfl
        · exact leading_of_all_readers (all_readers (hs.census rfl) hzero)
      · show leading (t.waiters ++ [e]) = t.waiters ++ [e]
        rcases hfree with hnil | ⟨hr, hzero⟩
        · rw [hnil]
          exact lead_singleton .rw e
        · apply leading_of_all_readers
          intro o ho
          rcases mem_append.mp ho with ho | ho
          · exact all_readers (hs.census rfl) hzero o ho
          · rwa [mem_singleton.mp ho]
    | nested hown =>
      have hc : Census ((countWriter t e 1).nest e) :=
        (hs.census rfl).grow (countWriter_numWriters t e 1) (weight_nest t e)
      refine ⟨hs.nested (hin hown) (countWriter_waiters ..) ?_ fun _ => hc,
        .nested _ hown (countWriter_waiters ..)⟩
      unfold nest
      rw [countWriter_nesting]
    | refused hb hd => exact ⟨hs, .refused ⟨hb.1, hb.2.1, fun _ => hb.2.2⟩ hd⟩
    | queued hq hb hd =>
      have hc := (hs.census rfl).grow (numWriters_joined ..) (weight_joined hq)
      refine ⟨hs.joined hq rfl (countWriter_nesting ..) fun _ => hc,
        .queued _ hq ⟨hb.1, hb.2.1, fun _ => hb.2.2⟩ hd rfl ?_⟩
      by_cases hr : e.type = .reader
      · obtain ⟨w, hw, hwt⟩ := exists_writer hs (hb.2.2 hr)
        exact leading_append hw hwt e
      · exact leading_append_writer hb.1 (writer_of_ne_reader hr)

theorem acquire_isSome (h : e ∈ t.waiters → isOwner k t e.client = true) (deadlock : Bool) :
    (acquire k t e deadlock).isSome := by
  cases k with
  | mutex =>
    simp only [acquire, MutexToken.acquire]
    split
    · rename_i hown
      have hnil : t.waiters = [] := by simpa [owner] using hown
      rw [isSome_map]
      apply enqueue_defined
      rw [hnil]
      exact not_mem_nil
    split
    · rfl
    rename_i hnot
    split
    · rfl
    · rw [isSome_map]
      exact enqueue_defined (fun hmem => hnot (h hmem)) _
  | rw => exact acquire_defined h deadlock

/-- What a release by an owner does: it takes back a nested acquisition, or takes
the entry out of the queue and calls back those that come to own the token. -/
inductive Given (k : Kind) (t : Tokens Client) (e : Entry Client) : Outcome Client → Prop
  | unnested (t' : Tokens Client) (hw : t'.waiters = t.waiters) : Given k t e ⟨t', .success, []⟩
  | removed (t' : Tokens Client) (ns : List (Entry Client)) (hw : t'.waiters = t.waiters.erase e)
      (hold : ∀ n ∈ lead k t.waiters, n ≠ e → n ∈ lead k t'.waiters)
      (hnew : ∀ n ∈ lead k t'.waiters, n ∈ lead k t.waiters ∨ n ∈ ns)
      (hns : ∀ n ∈ ns, n ∈ lead k t'.waiters ∧ n ∉ lead k t.waiters) :
      Given k t e ⟨t', .success, ns⟩

theorem Sane.unnested (hs : Sane k t) (hw : t'.waiters = t.waiters)
    (hn : t'.nesting = update t.nesting e (t.nesting e - 1)) (hc : k = .rw → Census t') :
    Sane k t' where
  nodup := hw ▸ hs.nodup
  nests x hx := by
    rw [hw]
    refine hs.nests x ?_
    by_cases hxe : x = e
    · rw [hn, hxe, update_self] at hx
      rw [hxe]
      omega
    · rwa [hn, update_of_ne hxe] at hx
  census := hc

theorem Sane.removed (hs : Sane k t) (hzero : t.nesting e = 0)
    (hw : t'.waiters = t.waiters.erase e) (hn : t'.nesting = t.nesting) (hc : k = .rw → Census t') :
    Sane k t' where
  nodup := hw ▸ hs.nodup.erase e
  nests x hx := by
    have hxe : x ≠ e := by
      rintro rfl
      rw [hn, hzero] at hx
      omega
    rw [hw, mem_erase_of_ne hxe]
    rw [hn] at hx
    exact hs.nests x hx
  census := hc

theorem released (hs : Sane k t) (he : e ∈ lead k t.waiters) :
    Sane k (release k t e).token ∧ Given k t e (release k t e) := by
  have hown : isOwner k t e.client = true := (isOwner_lead ..).mpr ⟨e, he, rfl⟩
  cases k with
  | mutex =>
    obtain ⟨q, hq⟩ : ∃ q, t.waiters = e :: q := by
      cases hw : t.waiters with
      | nil =>
        rw [hw] at he
        cases he
      | cons a q =>
        rw [hw] at he
        exact ⟨q, by rw [mem_singleton.mp he]⟩
    have hsome : t.owner ≠ none := by simp [owner, hq]
    simp only [release, MutexToken.release, if_neg hsome, if_pos (show MutexToken.isOwner t _ = _ from hown)]
    split
    · exact ⟨hs.unnested rfl rfl (fun hk => by cases hk), .unnested _ rfl⟩
    · rename_i hnest
      have hw : t.dequeue.waiters = t.waiters.erase e := by
        rw [dequeue, hq, erase_cons_head, tail_cons]
      refine ⟨hs.removed (by omega) hw rfl (fun hk => by cases hk), .removed _ _ hw ?_ ?_ ?_⟩
      · intro n hn hne
        rw [hq] at hn
        exact absurd (mem_singleton.mp hn) hne
      · intro n hn
        exact .inr hn
      · intro n hn
        refine ⟨hn, fun hlead => ?_⟩
        rw [hq] at hlead
        have hmem := lead_subset .mutex _ hn
        rw [hw, mem_singleton.mp hlead] at hmem
        exact hs.nodup.not_mem_erase hmem
  | rw =>
    show Sane .rw (RWToken.release t e).token ∧ Given .rw t e (RWToken.release t e)
    rw [release_eq hown]
    split
    · rename_i hnest
      have hc : Census ((countWriter t e (-1)).unnest e) :=
        (hs.census rfl).shrink (countWriter_numWriters t e (-1)) (weight_unnest hnest)
      have hn : ((countWriter t e (-1)).unnest e).nesting =
          update t.nesting e (t.nesting e - 1) := by
        unfold unnest
        rw [countWriter_nesting]
      exact ⟨hs.unnested (countWriter_waiters ..) hn fun _ => hc,
        .unnested _ (countWriter_waiters ..)⟩
    · rename_i hnest
      have hc : Census ((countWriter t e (-1)).remove e) :=
        (hs.census rfl).shrink (countWriter_numWriters t e (-1))
          (weight_remove (leading_subset _ he) hs.nodup)
      have hw : ((countWriter t e (-1)).remove e).waiters = t.waiters.erase e := by
        rw [remove, countWriter_waiters]
      have hold : ∀ n ∈ leading t.waiters, n ≠ e → e.type = .reader →
          n ∈ leading (t.waiters.erase e) := by
        intro n hn hne hr
        refine mem_leading_erase hn ?_ hne
        rw [readers_of_mem_leading he hr] at hn
        exact type_of_mem_readers hn
      refine ⟨hs.removed (by omega) hw (countWriter_nesting ..) fun _ => hc, ?_⟩
      rcases notifyNewOwner_cases ((countWriter t e (-1)).remove e) e with
        ⟨hr, hhead, hnone⟩ | ⟨hhead, hnew⟩
      · rw [hnone]
        refine .removed _ _ hw ?_ ?_ fun _ hn => absurd hn not_mem_nil
        · intro n hn hne
          rw [hw]
          exact hold n hn hne hr
        · intro n hn
          rw [hw] at hn hhead
          refine .inl ?_
          show n ∈ leading t.waiters
          have heq : leading (t.waiters.erase e) = readers (t.waiters.erase e) := by
            cases hq : t.waiters.erase e with
            | nil => rfl
            | cons a q =>
              rw [leading, if_neg]
              rw [hhead a (by rw [hq]; rfl)]
              simp
          replace hn : n ∈ readers (t.waiters.erase e) := heq ▸ hn
          rw [readers_of_mem_leading he hr]
          exact readers_erase_subset (readers_of_mem_leading he hr ▸ he) hn
      · rw [hnew]
        have halone : ∀ n ∈ leading t.waiters, n = e := by
          intro n hn
          rw [hw] at hhead
          exact alone_of_handover he hhead hn
        refine .removed _ _ hw ?_ (fun n hn => .inr hn) ?_
        · intro n hn hne
          exact absurd (halone n hn) hne
        · intro n hn
          refine ⟨hn, fun hlead => ?_⟩
          have hmem := leading_subset _ hn
          rw [hw, halone n hlead] at hmem
          exact hs.nodup.not_mem_erase hmem

end Atcd.Token
