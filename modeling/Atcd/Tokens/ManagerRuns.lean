import Atcd.Tokens.Manager
/-!
# Deadlocks of the manager's tokens

In a run each client uses one proxy for a token, does nothing while it waits and
releases what it owns. A client that waits is blocked by the owners of its token.
A path of blocked clients that comes back to its start would be a deadlock.

A client that acquires a token which it owns, or as a reader one that only readers
have and no writer wants, is granted it at once: the manager is not asked, though
the path from the token to the client may be there.

Results:
- `acquire_own_token`: such a grant;
- `check_spec`: `check_deadlock` ends, leaves no mark and is exact;
- `step_inv`: what a call keeps of the tokens and of the graph;
- `deadlock_exact`: an acquisition that cannot be granted at once fails exactly
  when the path is there, and no state of a run has a deadlock.
-/
namespace Atcd.Token.Manager

open Atcd.Core Tokens List Function Option

variable {Id Client : Type*} [DecidableEq Id] [DecidableEq Client]

/-! ## The wait-for graph -/

def Owns (C : Collection Id Client) (m : Manager Id Client) (i : Id) (c : Client) : Prop :=
  isOwner (C.kind i) (m.token i) c = true

def WaitsFor (C : Collection Id Client) (m : Manager Id Client) (c : Client) (i : Id) : Prop :=
  i ∈ C.ids ∧ isWaitingFor (C.kind i) (m.token i) c = true

def BlockedBy (C : Collection Id Client) (m : Manager Id Client) (a b : Client) : Prop :=
  ∃ i, WaitsFor C m a i ∧ Owns C m i b

def LeadsTo (C : Collection Id Client) (m : Manager Id Client) (i : Id) (c : Client) : Prop :=
  ∃ o, Owns C m i o ∧ Relation.ReflTransGen (BlockedBy C m) o c

/-! ## A grant that is not asked for -/

def single : Collection Nat Nat := ⟨[0], fun _ => .mutex, fun _ _ => .writer⟩

/-- The client is told that it has the token, which it has already: the graph
leads from the token to the client. -/
theorem acquire_own_token :
    ¬ ∀ (ops : List (Op Nat Nat)) (m m' : Manager Nat Nat) (c i : Nat) (a : Answer),
      run (step single) start ops = some m → m.call single (.acquire c i) = some (m', a) →
        (a = .deadlock ↔ LeadsTo single m i c) := by
  intro h
  have hrun : ((run (step single) start [.acquire 1 0]).bind fun m =>
      (m.call single (.acquire 1 0)).map fun r =>
        (isOwner .mutex (m.token 0) 1, r.2)) = some (true, .success) := by decide
  obtain ⟨m, hm, hcall⟩ := bind_eq_some_iff.mp hrun
  obtain ⟨⟨m', a⟩, hcall, heq⟩ := map_eq_some_iff.mp hcall
  simp only [Prod.mk.injEq] at heq
  have hiff := h _ m m' 1 0 a hm hcall
  have hdead := hiff.mpr ⟨1, heq.1, .refl⟩
  rw [heq.2] at hdead
  cases hdead

/-! ## What holds in every state -/

structure Books (C : Collection Id Client) (m : Manager Id Client) : Prop where
  sane : ∀ i, Sane (C.kind i) (m.token i)
  mine : ∀ i, ∀ n ∈ (m.token i).waiters, n = C.entry i n.client
  waits : ∀ c, ∀ i ∈ C.ids,
    m.pending c = some i ↔ C.entry i c ∈ (m.token i).waiters ∧ ¬ Owns C m i c
  listed : ∀ c i, m.pending c = some i → i ∈ C.ids
  clean : m.visited = fun _ => false

/-- The tokens and the waiting clients agree, no mark is left, and no client waits
for itself. -/
structure Inv (C : Collection Id Client) (m : Manager Id Client) : Prop extends Books C m where
  acyclic : Acyclic (BlockedBy C m)

variable {C : Collection Id Client} {m : Manager Id Client}

omit [DecidableEq Id] in
theorem waitsFor_iff (hm : Books C m) (c : Client) (i : Id) :
    WaitsFor C m c i ↔ m.pending c = some i := by
  constructor
  · rintro ⟨hi, hwait⟩
    obtain ⟨hown, e, he, hclient⟩ := (isWaitingFor_lead ..).mp hwait
    refine (hm.waits c i hi).mpr ⟨?_, by simp [Owns, hown]⟩
    rw [← hclient, ← hm.mine i e he]
    exact he
  · intro hp
    have hi := hm.listed c i hp
    obtain ⟨hmem, hown⟩ := (hm.waits c i hi).mp hp
    refine ⟨hi, (isWaitingFor_lead ..).mpr ⟨by simpa [Owns] using hown, _, hmem, rfl⟩⟩

omit [DecidableEq Id] in
theorem blockedBy_iff (hm : Books C m) (a b : Client) :
    BlockedBy C m a b ↔ ∃ i, m.pending a = some i ∧ Owns C m i b := by
  unfold BlockedBy
  simp only [waitsFor_iff hm]

omit [DecidableEq Id] in
theorem tokenWaitingFor_eq (hm : Books C m) (c : Client) : m.tokenWaitingFor C c = m.pending c := by
  unfold tokenWaitingFor
  cases hf : C.ids.find? fun i => isWaitingFor (C.kind i) (m.token i) c with
  | some i =>
    have hwait := find?_some hf
    exact ((waitsFor_iff hm c i).mp ⟨mem_of_find?_eq_some hf, hwait⟩).symm
  | none =>
    cases hp : m.pending c with
    | none => rfl
    | some i =>
      obtain ⟨hi, hwait⟩ := (waitsFor_iff hm c i).mpr hp
      exact absurd hwait (find?_eq_none.mp hf i hi)

/-! ## The search -/

omit [DecidableEq Id] in
theorem mem_next (hm : Books C m) (i j : Id) :
    j ∈ m.next C i ↔ ∃ o, Owns C m i o ∧ m.pending o = some j := by
  unfold next
  simp only [mem_filterMap, mem_reverse, tokenWaitingFor_eq hm, owners_lead]
  constructor
  · rintro ⟨e, he, hp⟩
    exact ⟨e.client, (isOwner_lead ..).mpr ⟨e, he, rfl⟩, hp⟩
  · rintro ⟨o, hown, hp⟩
    obtain ⟨e, he, rfl⟩ := (isOwner_lead ..).mp hown
    exact ⟨e, he, hp⟩

omit [DecidableEq Id] in
theorem owners_any (i : Id) (c : Client) :
    ((owners (C.kind i) (m.token i)).any fun o => o.client = c) = true ↔ Owns C m i c := by
  unfold Owns
  rw [owners_lead, isOwner_lead]
  simp

omit [DecidableEq Id] in
/-- A path over the tokens is a path over the clients. -/
theorem leads_iff (hm : Books C m) (i : Id) (c : Client) :
    Leads (fun i => (owners (C.kind i) (m.token i)).any fun o => o.client = c) (m.next C) i ↔
      LeadsTo C m i c := by
  constructor
  · rintro ⟨u, hpath, hgoal⟩
    induction hpath using Relation.ReflTransGen.head_induction_on with
    | refl => exact ⟨c, (owners_any u c).mp hgoal, .refl⟩
    | head hstep _ ih =>
      obtain ⟨o, hown, hp⟩ := (mem_next hm _ _).mp hstep
      obtain ⟨o', hown', hpath'⟩ := ih
      exact ⟨o, hown, .head ((blockedBy_iff hm o o').mpr ⟨_, hp, hown'⟩) hpath'⟩
  · rintro ⟨o, hown, hpath⟩
    induction hpath using Relation.ReflTransGen.head_induction_on generalizing i with
    | refl => exact ⟨i, .refl, (owners_any i c).mpr hown⟩
    | head hstep _ ih =>
      obtain ⟨j, hp, hown'⟩ := (blockedBy_iff hm _ _).mp hstep
      obtain ⟨u, hpath', hgoal⟩ := ih j hown'
      exact ⟨u, .head ((mem_next hm i j).mpr ⟨_, hown, hp⟩) hpath', hgoal⟩

variable {i : Id} {c : Client} {p : Client → Option Id} {t : Tokens Client}

/-- **`check_deadlock` ends, leaves no mark and is exact.** -/
theorem check_spec (hm : Books C m) (c : Client) (hi : i ∈ C.ids) :
    ∃ found, m.checkDeadlock C c i = some (found, m) ∧ (found = true ↔ LeadsTo C m i c) := by
  have hall : ∀ v, ∀ w ∈ m.next C v, w ∈ C.ids := by
    intro v w hw
    obtain ⟨o, -, hp⟩ := (mem_next hm v w).mp hw
    exact hm.listed o w hp
  have hfuel : unmarked C.ids m.visited < C.ids.length + 1 := Nat.lt_succ_of_le countP_le_length
  have hdef : (search (fun i => (owners (C.kind i) (m.token i)).any fun o => o.client = c)
      (m.next C) (C.ids.length + 1) m.visited i).isSome := search_defined hall hi hfuel
  obtain ⟨⟨found, marks⟩, hr⟩ := isSome_iff_exists.mp hdef
  refine ⟨found, ?_, ?_⟩
  · have hclear : (fun j => if j ∈ C.ids then false else marks j) = m.visited := by
      funext j
      rw [hm.clean]
      split
      · rfl
      · rename_i hj
        by_contra hmark
        rcases search_within hall hi hr j (by simpa using hmark) with hv | hv
        · rw [hm.clean] at hv
          cases hv
        · exact hj hv
    unfold checkDeadlock
    rw [hr, map_some, hclear]
  · rw [hm.clean] at hr
    rw [search_iff hr, leads_iff hm]

/-! ## One call -/

/-- The call has changed its token and who waits. -/
def put (m : Manager Id Client) (i : Id) (t : Tokens Client) (p : Client → Option Id) :
    Manager Id Client :=
  ⟨Function.update m.token i t, m.visited, p⟩

omit [DecidableEq Client] in
@[simp] theorem put_token_self (m : Manager Id Client) (i : Id) (t : Tokens Client)
    (p : Client → Option Id) : (m.put i t p).token i = t := update_self ..

omit [DecidableEq Client] in
theorem put_token_of_ne (m : Manager Id Client) {j : Id} (hj : j ≠ i) (t : Tokens Client)
    (p : Client → Option Id) : (m.put i t p).token j = m.token j := update_of_ne hj ..

theorem acquire_spec (hm : Books C m) {r : Manager Id Client × Answer}
    (h : m.call C (.acquire c i) = some r) :
    i ∈ C.ids ∧ m.pending c = none ∧ ∃ found o, (found = true ↔ LeadsTo C m i c) ∧
      Sane (C.kind i) o.token ∧ Taken (C.kind i) (m.token i) (C.entry i c) found o ∧
      r = (m.put i o.token (if o.answer = .wouldBlock then update m.pending c (some i)
        else m.pending), o.answer) := by
  simp only [call] at h
  split at h
  · rename_i hcond
    obtain ⟨found, hcheck, hfound⟩ := check_spec hm c hcond.1
    rw [acquire, hcheck, bind_some] at h
    obtain ⟨o, ho, rfl⟩ := map_eq_some_iff.mp h
    have hmine : ∀ n ∈ (m.token i).waiters, n.client = (C.entry i c).client → n = C.entry i c := by
      intro n hn hclient
      rw [hm.mine i n hn, hclient]
      rfl
    obtain ⟨hsane, htaken⟩ := acquired (hm.sane i) hmine ho
    exact ⟨hcond.1, hcond.2, found, o, hfound, hsane, htaken, rfl⟩
  · cases h

theorem release_spec (hm : Books C m) {r : Manager Id Client × Answer}
    (h : m.call C (.release c i) = some r) :
    i ∈ C.ids ∧ m.pending c = none ∧ C.entry i c ∈ lead (C.kind i) (m.token i).waiters ∧
      ∃ o, Sane (C.kind i) o.token ∧ Given (C.kind i) (m.token i) (C.entry i c) o ∧
      r = (m.put i o.token (fun d => if ∃ n ∈ o.notified, n.client = d then none
        else m.pending d), o.answer) := by
  simp only [call] at h
  split at h
  · rename_i hcond
    cases h
    obtain ⟨e, he, hclient⟩ := (isOwner_lead ..).mp hcond.2.2
    have hentry : e = C.entry i c := by
      rw [hm.mine i e (lead_subset _ _ he), hclient]
    rw [hentry] at he
    obtain ⟨hsane, hgiven⟩ := released (hm.sane i) he
    exact ⟨hcond.1, hcond.2.1, he, _, hsane, hgiven, rfl⟩
  · cases h

omit [DecidableEq Id] in
theorem owns_iff (hm : Books C m) (i : Id) (c : Client) :
    Owns C m i c ↔ C.entry i c ∈ lead (C.kind i) (m.token i).waiters := by
  unfold Owns
  rw [isOwner_lead]
  constructor
  · rintro ⟨e, he, rfl⟩
    rw [← hm.mine i e (lead_subset _ _ he)]
    exact he
  · intro he
    exact ⟨_, he, rfl⟩

theorem owns_put_self : Owns C (m.put i t p) i c ↔ isOwner (C.kind i) t c = true := by
  unfold Owns
  rw [put_token_self]

theorem owns_put_of_ne {j : Id} (hj : j ≠ i) : Owns C (m.put i t p) j c ↔ Owns C m j c := by
  unfold Owns
  rw [put_token_of_ne m hj]

theorem Books.put (hm : Books C m) (hi : i ∈ C.ids) (hsane : Sane (C.kind i) t)
    (hmine : ∀ n ∈ t.waiters, n = C.entry i n.client)
    (hself : ∀ c, p c = some i ↔ C.entry i c ∈ t.waiters ∧ ¬ isOwner (C.kind i) t c = true)
    (hother : ∀ c j, j ≠ i → (p c = some j ↔ m.pending c = some j)) :
    Books C (m.put i t p) where
  sane j := by
    by_cases hj : j = i
    · subst hj
      rw [put_token_self]
      exact hsane
    · rw [put_token_of_ne m hj]
      exact hm.sane j
  mine j := by
    by_cases hj : j = i
    · subst hj
      rw [put_token_self]
      exact hmine
    · rw [put_token_of_ne m hj]
      exact hm.mine j
  waits c j hjs := by
    by_cases hj : j = i
    · subst hj
      rw [owns_put_self]
      rw [put_token_self]
      exact hself c
    · rw [owns_put_of_ne hj]
      rw [put_token_of_ne m hj]
      exact (hother c j hj).trans (hm.waits c j hjs)
  listed c j hp := by
    by_cases hj : j = i
    · exact hj ▸ hi
    · exact hm.listed c j ((hother c j hj).mp hp)
  clean := hm.clean

omit [DecidableEq Id] in
theorem mine_append (hm : Books C m) (i : Id) (c : Client) :
    ∀ n ∈ (m.token i).waiters ++ [C.entry i c], n = C.entry i n.client := by
  intro n hn
  rcases mem_append.mp hn with hn | hn
  · exact hm.mine i n hn
  · rw [mem_singleton.mp hn]
    rfl

theorem old_edge (hm : Books C m) (hm' : Books C (m.put i t p)) {a b : Client}
    (hkeep : ∀ j, j ≠ i → p a = some j → m.pending a = some j) (h : BlockedBy C (m.put i t p) a b) :
    BlockedBy C m a b ∨ p a = some i ∧ isOwner (C.kind i) t b = true := by
  obtain ⟨j, hp, hown⟩ := (blockedBy_iff hm' a b).mp h
  by_cases hj : j = i
  · subst hj
    exact .inr ⟨hp, owns_put_self.mp hown⟩
  · exact .inl ((blockedBy_iff hm a b).mpr ⟨j, hkeep j hj hp, (owns_put_of_ne hj).mp hown⟩)

theorem inv_granted (hm : Inv C m) (hi : i ∈ C.ids) (hsane : Sane (C.kind i) t)
    (hw : t.waiters = (m.token i).waiters ++ [C.entry i c])
    (hall : lead (C.kind i) (m.token i).waiters = (m.token i).waiters)
    (hlead : lead (C.kind i) t.waiters = t.waiters) : Inv C (m.put i t m.pending) := by
  have hnone : ∀ a, m.pending a ≠ some i := by
    intro a hp
    obtain ⟨hmem, hown⟩ := (hm.waits a i hi).mp hp
    refine hown ((owns_iff hm.toBooks i a).mpr ?_)
    rw [hall]
    exact hmem
  have hbooks : Books C (m.put i t m.pending) := by
    refine hm.toBooks.put hi hsane ?_ ?_ fun a j _ => Iff.rfl
    · rw [hw]
      exact mine_append hm.toBooks i c
    · intro a
      refine ⟨fun hp => absurd hp (hnone a), ?_⟩
      rintro ⟨hmem, hown⟩
      exact absurd ((isOwner_lead ..).mpr ⟨_, hlead.symm ▸ hmem, rfl⟩) hown
  refine ⟨hbooks, hm.acyclic.mono fun a b hab => ?_⟩
  rcases old_edge hm.toBooks hbooks (fun j _ hp => hp) hab with hold | ⟨hp, -⟩
  · exact hold
  · exact absurd hp (hnone a)

/-- The queue stays as it is. -/
theorem inv_same (hm : Inv C m) (hi : i ∈ C.ids) (hsane : Sane (C.kind i) t)
    (hw : t.waiters = (m.token i).waiters) : Inv C (m.put i t m.pending) := by
  have hown : ∀ a, isOwner (C.kind i) t a = true ↔ Owns C m i a := by
    intro a
    rw [Owns, isOwner_lead, isOwner_lead, hw]
  have hbooks : Books C (m.put i t m.pending) := by
    refine hm.toBooks.put hi hsane ?_ ?_ fun a j _ => Iff.rfl
    · rw [hw]
      exact hm.mine i
    · intro a
      rw [hw, hown]
      exact hm.waits a i hi
  refine ⟨hbooks, hm.acyclic.mono fun a b hab => ?_⟩
  rcases old_edge hm.toBooks hbooks (fun j _ hp => hp) hab with hold | ⟨hp, hb⟩
  · exact hold
  · exact (blockedBy_iff hm.toBooks a b).mpr ⟨i, hp, (hown b).mp hb⟩

theorem inv_queued (hm : Inv C m) (hi : i ∈ C.ids) (hidle : m.pending c = none)
    (hsane : Sane (C.kind i) t) (hw : t.waiters = (m.token i).waiters ++ [C.entry i c])
    (hlead : lead (C.kind i) t.waiters = lead (C.kind i) (m.token i).waiters)
    (hnot : ¬ Owns C m i c) (hpath : ¬ LeadsTo C m i c) :
    Inv C (m.put i t (update m.pending c (some i))) := by
  have hown : ∀ a, isOwner (C.kind i) t a = true ↔ Owns C m i a := by
    intro a
    rw [Owns, isOwner_lead, isOwner_lead, hlead]
  have hbooks : Books C (m.put i t (update m.pending c (some i))) := by
    refine hm.toBooks.put hi hsane ?_ ?_ ?_
    · rw [hw]
      exact mine_append hm.toBooks i c
    · intro a
      rw [hw, hown]
      by_cases ha : a = c
      · subst ha
        simp [hnot]
      · have hne : C.entry i a ≠ C.entry i c := fun h => ha (congrArg Entry.client h)
        rw [update_of_ne ha, hm.waits a i hi]
        simp [hne]
    · intro a j hj
      by_cases ha : a = c
      · subst ha
        rw [update_self, hidle]
        simp [Ne.symm hj]
      · rw [update_of_ne ha]
  refine ⟨hbooks, acyclic_from hm.acyclic (x := c) fun a b hab => ?_⟩
  by_cases ha : a = c
  · subst ha
    obtain ⟨j, hp, hb⟩ := (blockedBy_iff hbooks a b).mp hab
    obtain rfl : i = j := by simpa [Manager.put] using hp
    exact .inr ⟨rfl, fun hba => hpath ⟨b, (hown b).mp (owns_put_self.mp hb), hba⟩⟩
  · refine .inl ?_
    have hp : update m.pending c (some i) a = m.pending a := update_of_ne ha ..
    rcases old_edge hm.toBooks hbooks (fun j _ hj => hp ▸ hj) hab with hold | ⟨hpa, hb⟩
    · exact hold
    · exact (blockedBy_iff hm.toBooks a b).mpr ⟨i, hp ▸ hpa, (hown b).mp hb⟩

theorem inv_removed (hm : Inv C m) (hi : i ∈ C.ids) {ns : List (Entry Client)}
    (hsane : Sane (C.kind i) t) (he : C.entry i c ∈ lead (C.kind i) (m.token i).waiters)
    (hw : t.waiters = (m.token i).waiters.erase (C.entry i c))
    (hold : ∀ n ∈ lead (C.kind i) (m.token i).waiters, n ≠ C.entry i c →
      n ∈ lead (C.kind i) t.waiters)
    (hnew : ∀ n ∈ lead (C.kind i) t.waiters, n ∈ lead (C.kind i) (m.token i).waiters ∨ n ∈ ns)
    (hns : ∀ n ∈ ns, n ∈ lead (C.kind i) t.waiters ∧ n ∉ lead (C.kind i) (m.token i).waiters) :
    Inv C (m.put i t fun d => if ∃ n ∈ ns, n.client = d then none else m.pending d) := by
  have hmine : ∀ n ∈ t.waiters, n = C.entry i n.client := by
    intro n hn
    rw [hw] at hn
    exact hm.mine i n (mem_of_mem_erase hn)
  have hown : ∀ a, isOwner (C.kind i) t a = true ↔ C.entry i a ∈ lead (C.kind i) t.waiters := by
    intro a
    rw [isOwner_lead]
    constructor
    · rintro ⟨n, hn, rfl⟩
      rw [← hmine n (lead_subset _ _ hn)]
      exact hn
    · intro hn
      exact ⟨_, hn, rfl⟩
  have hcalled : ∀ a, (∃ n ∈ ns, n.client = a) → m.pending a = some i ∧
      C.entry i a ∈ lead (C.kind i) t.waiters := by
    rintro a ⟨n, hn, rfl⟩
    obtain ⟨hlead, hfresh⟩ := hns n hn
    have hmem := lead_subset _ _ hlead
    rw [hmine n hmem] at hlead hfresh hmem
    rw [hw] at hmem
    refine ⟨(hm.waits _ i hi).mpr ⟨mem_of_mem_erase hmem, ?_⟩, hlead⟩
    rwa [owns_iff hm.toBooks]
  have hbooks : Books C (m.put i t fun d => if ∃ n ∈ ns, n.client = d then none
      else m.pending d) := by
    refine hm.toBooks.put hi hsane hmine ?_ ?_
    · intro a
      rw [hown]
      constructor
      · intro hp
        split at hp
        · cases hp
        · rename_i hcall
          obtain ⟨hmem, hnot⟩ := (hm.waits a i hi).mp hp
          rw [owns_iff hm.toBooks] at hnot
          have hne : C.entry i a ≠ C.entry i c := fun h => hnot (h ▸ he)
          refine ⟨?_, fun hlead => ?_⟩
          · rw [hw]
            exact (mem_erase_of_ne hne).mpr hmem
          · rcases hnew _ hlead with hl | hn
            · exact hnot hl
            · exact hcall ⟨_, hn, rfl⟩
      · rintro ⟨hmem, hnot⟩
        rw [if_neg fun hcall => hnot (hcalled a hcall).2]
        rw [hw] at hmem
        refine (hm.waits a i hi).mpr ⟨mem_of_mem_erase hmem, fun hlead => hnot ?_⟩
        refine hold _ ((owns_iff hm.toBooks i a).mp hlead) fun heq => ?_
        rw [heq] at hmem
        exact (hm.sane i).nodup.not_mem_erase hmem
    · intro a j hj
      by_cases hcall : ∃ n ∈ ns, n.client = a
      · rw [if_pos hcall, (hcalled a hcall).1]
        simp [Ne.symm hj]
      · rw [if_neg hcall]
  refine ⟨hbooks, acyclic_sinks hm.acyclic fun a b hab => ?_⟩
  have hkeep : ∀ j, (if ∃ n ∈ ns, n.client = a then none else m.pending a) = some j →
      m.pending a = some j := by
    intro j hp
    split at hp
    · cases hp
    · exact hp
  rcases old_edge hm.toBooks hbooks (fun j _ => hkeep j) hab with hedge | ⟨hp, hb⟩
  · exact .inl hedge
  · rcases hnew _ ((hown b).mp hb) with hl | hn
    · exact .inl ((blockedBy_iff hm.toBooks a b).mpr
        ⟨i, hkeep i hp, (owns_iff hm.toBooks i b).mpr hl⟩)
    · refine .inr fun d hbd => ?_
      obtain ⟨j, hpb, -⟩ := (blockedBy_iff hbooks b d).mp hbd
      simp only [Manager.put] at hpb
      rw [if_pos ⟨_, hn, rfl⟩] at hpb
      cases hpb

/-! ## Runs -/

omit [DecidableEq Id] in
theorem start_inv (C : Collection Id Client) : Inv C start := by
  have hbooks : Books C start := by
    refine ⟨fun i => .start (C.kind i), fun i n hn => absurd hn not_mem_nil, ?_, nofun, rfl⟩
    intro c i _
    refine ⟨nofun, fun h => absurd h.1 not_mem_nil⟩
  refine ⟨hbooks, fun a ha => ?_⟩
  obtain ⟨b, hab, -⟩ := Relation.TransGen.head'_iff.mp ha
  obtain ⟨i, hp, -⟩ := (blockedBy_iff hbooks a b).mp hab
  cases hp

/-- **A call keeps the tokens, the marks and the graph in order.** -/
theorem call_inv (hm : Inv C m) {op : Op Id Client} {r : Manager Id Client × Answer}
    (h : m.call C op = some r) : Inv C r.1 := by
  cases op with
  | acquire c i =>
    obtain ⟨hi, hidle, found, o, hfound, hsane, htaken, rfl⟩ := acquire_spec hm.toBooks h
    cases htaken with
    | granted t hfree hw hall hlead => exact inv_granted hm hi hsane hw hall hlead
    | nested t hown hw => exact inv_same hm hi hsane hw
    | refused hb hd => exact inv_same hm hi hsane rfl
    | queued t hq hb hd hw hlead =>
      refine inv_queued hm hi hidle hsane hw hlead ?_ ?_
      · exact ne_true_of_eq_false hb.2.1
      · rw [← hfound, hd]
        exact Bool.false_ne_true
  | release c i =>
    obtain ⟨hi, -, he, o, hsane, hgiven, rfl⟩ := release_spec hm.toBooks h
    cases hgiven with
    | unnested t hw =>
      exact inv_same hm hi hsane hw
    | removed t ns hw hold hnew hns => exact inv_removed hm hi hsane he hw hold hnew hns

theorem step_inv (hm : Inv C m) {op : Op Id Client} {m' : Manager Id Client}
    (h : step C m op = some m') : Inv C m' := by
  obtain ⟨r, hr, rfl⟩ := map_eq_some_iff.mp h
  exact call_inv hm hr

/-- A waiting client has nothing to acquire, so its entry is queued once. -/
theorem acquire_defined (hm : Inv C m) (hi : i ∈ C.ids) (hidle : m.pending c = none) :
    (m.call C (.acquire c i)).isSome := by
  obtain ⟨found, hcheck, -⟩ := check_spec hm.toBooks c hi
  have hq : C.entry i c ∈ (m.token i).waiters → isOwner (C.kind i) (m.token i) c = true := by
    intro hmem
    by_contra hown
    have := (hm.waits c i hi).mpr ⟨hmem, hown⟩
    rw [hidle] at this
    cases this
  simp only [call]
  rw [if_pos ⟨hi, hidle⟩, acquire, hcheck, bind_some, isSome_map]
  exact acquire_isSome hq found

/-- **Deadlock detection is exact.** In every state of a run: the search from a
token of the collection ends and leaves no mark; an acquisition by a client that
does not wait fails with EDEADLK exactly when it cannot be granted at once and the
graph leads from the token to the client; and no client waits for itself, over
whatever number of others. -/
theorem deadlock_exact {ops : List (Op Id Client)} (h : run (step C) start ops = some m) :
    (∀ c, ∀ i ∈ C.ids, ∃ found, m.checkDeadlock C c i = some (found, m)) ∧
    (∀ i, m.visited i = false) ∧
    (∀ c, ∀ i ∈ C.ids, m.pending c = none → ∃ m' a, m.call C (.acquire c i) = some (m', a) ∧
      (a = .deadlock ↔ Blocked (C.kind i) (m.token i) (C.entry i c) ∧ LeadsTo C m i c)) ∧
    Acyclic (BlockedBy C m) := by
  have hm : Inv C m := run_inv (fun _ _ _ hs h => step_inv hs h) (start_inv C) h
  refine ⟨?_, ?_, ?_, hm.acyclic⟩
  · intro c i hi
    obtain ⟨found, hcheck, -⟩ := check_spec hm.toBooks c hi
    exact ⟨found, hcheck⟩
  · intro i
    rw [hm.clean]
  · intro c i hi hidle
    obtain ⟨⟨m', a⟩, hcall⟩ := isSome_iff_exists.mp (acquire_defined hm hi hidle)
    refine ⟨m', a, hcall, ?_⟩
    obtain ⟨-, -, found, o, hfound, -, htaken, hr⟩ := acquire_spec hm.toBooks hcall
    obtain rfl : a = o.answer := congrArg Prod.snd hr
    rw [← hfound]
    cases htaken with
    | granted t hfree hw hall hlead => exact ⟨nofun, fun hb => absurd hb.1 hfree⟩
    | nested t hown hw =>
      refine ⟨nofun, fun hb => ?_⟩
      have := hb.1.2.1
      rw [hown] at this
      cases this
    | refused hb hd => exact ⟨fun _ => ⟨hb, hd⟩, fun _ => rfl⟩
    | queued t hq hb hd hw hlead =>
      refine ⟨nofun, fun hbl => ?_⟩
      rw [hd] at hbl
      exact absurd hbl.2 Bool.false_ne_true

def pair : Collection Nat Nat := ⟨[0, 1], fun _ => .mutex, fun _ _ => .writer⟩

/-- Each client has one mutex and the first one waits for the other's. -/
def crossed : List (Op Nat Nat) := [.acquire 1 0, .acquire 2 1, .acquire 1 1]

/-- The second client is refused. -/
theorem deadlock_exact_crossed :
    ∃ m, run (step pair) start crossed = some m ∧
      (∃ m', m.call pair (.acquire 2 0) = some (m', .deadlock)) ∧ Acyclic (BlockedBy pair m) := by
  have hrun : ((run (step pair) start crossed).bind fun m =>
      (m.call pair (.acquire 2 0)).map Prod.snd) = some .deadlock := by decide
  obtain ⟨m, hm, hcall⟩ := bind_eq_some_iff.mp hrun
  obtain ⟨⟨m', a⟩, hcall, rfl⟩ := map_eq_some_iff.mp hcall
  exact ⟨m, hm, ⟨m', hcall⟩, (deadlock_exact hm).2.2.2⟩

end Atcd.Token.Manager
