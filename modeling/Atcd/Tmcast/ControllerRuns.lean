import Atcd.Tmcast.Controller
/-!
# Whose outcome a member's send gets

`Group::send` pushes one message to `in_`, waits and takes the oldest outcome in
`send_out_`. So the sends get their own outcomes if the outcomes are, in order, those of
the transactions that `api` started.

`Member` keeps beside the controller the number of transactions started, which of them
is in progress, and for each outcome pushed the transaction that it is the outcome of.
This is read off from `stable`: a transaction goes on until the member is stable or
catches up.

Results:
- `outsync_cases`, `receive_cases`: what a pulse sent and a pulse received can do;
- `outcomes_own`: one outcome for each transaction that has ended, in order, in every run
  in which no TS_ABORT is joined with `initiated_` set and no own transaction is
  replaced by a catch-up.
-/
namespace Atcd.Tmcast

open Controller

/-- The calls of `TransactionController`. -/
inductive Call (P : Type*)
  | api (m : P)
  | outsync
  | receive (t : Transaction) (payload : P)

/-- A controller, and whose transactions it goes through. -/
structure Member (P : Type*) where
  controller : Controller P
  /-- Transactions that `api` has started. -/
  started : Nat
  /-- The number of the own transaction in progress. -/
  mine : Option Nat
  /-- The own transaction that ended with each outcome in `sendOut`, if it was one. -/
  outcomeOf : List (Option Nat)
deriving DecidableEq

namespace Controller
variable {P : Type*}

/-- The pulse makes the member take over another identifier. -/
def CatchesUp (c : Controller P) (t : Transaction) : Prop :=
  c.current.id = 0 ∧ t.id ≠ 0

instance (c : Controller P) (t : Transaction) : Decidable (c.CatchesUp t) :=
  inferInstanceAs (Decidable (_ ∧ _))

/-- The pulse makes a stable member join a transaction for abort in the branch of
TS_ABORT. -/
def JoinsAbort (c : Controller P) (t : Transaction) : Prop :=
  t.status = .abort ∧ (c.catchUp t).stable = true ∧ (c.catchUp t).Follows t

instance (c : Controller P) (t : Transaction) : Decidable (c.JoinsAbort t) :=
  inferInstanceAs (Decidable (_ ∧ _ ∧ _))

variable {c : Controller P}

theorem not_stable : c.stable = false ↔
    c.current.status = .begin ∨ c.current.status = .commit ∨ c.current.status = .abort := by
  unfold stable
  cases c.current.status <;> decide

def Ready (c : Controller P) : Prop :=
  c.current.status = .begin → c.send.isSome

/-- What one pulse may change for the sender: the transaction goes on with nothing
pushed, or it ends, with an outcome pushed if the member is the initiator. -/
inductive Sent (c c' : Controller P) : Prop
  | stays (stable : c'.stable = c.stable) (sendOut : c'.sendOut = c.sendOut)
  | ends (before : c.stable = false) (stable : c'.stable = true) (o : Outcome)
      (sendOut : c'.sendOut = if c.initiated then c.sendOut ++ [o] else c.sendOut)

theorem Sent.congr {d e : Controller P} (h : Sent c d) (hstable : e.stable = d.stable)
    (hout : e.sendOut = d.sendOut) : Sent c e := by
  cases h with
  | stays hs ho => exact .stays (hstable.trans hs) (hout.trans ho)
  | ends hb hs o ho => exact .ends hb (hstable.trans hs) o (hout.trans ho)

theorem vote_cases (c : Controller P) : c.vote.initiated = c.initiated ∧ Sent c c.vote ∧
      (c.vote.current.status = .begin → c.current.status = .begin ∧ c.vote.send = c.send) := by
  unfold vote
  split
  next hvoting =>
    have hbefore : c.stable = false := not_stable.mpr (.inr hvoting)
    split
    · unfold endVoting
      split
      · exact ⟨rfl, .ends hbefore rfl .commited rfl, nofun⟩
      · exact ⟨rfl, .ends hbefore rfl .aborted rfl, nofun⟩
    · exact ⟨rfl, .stays rfl rfl, fun h => ⟨h, rfl⟩⟩
  next => exact ⟨rfl, .stays rfl rfl, fun h => ⟨h, rfl⟩⟩

/-- A pulse is sent, unless a transaction begins without its message. -/
theorem outsync_cases (hready : c.Ready) :
    ∃ c' t p, c.outsync = some (c', t, p) ∧ c'.initiated = c.initiated ∧ c'.Ready ∧ Sent c c' := by
  obtain ⟨hinitiated, hsent, hbegin⟩ := c.vote_cases
  unfold outsync
  dsimp only
  split
  next h =>
    refine ⟨_, _, _, rfl, hinitiated, fun hb => ?_, hsent.congr rfl rfl⟩
    exact absurd (h.symm.trans hb) (by decide)
  next h =>
    refine ⟨_, _, _, rfl, hinitiated, fun hb => ?_, hsent.congr rfl rfl⟩
    exact absurd (h.symm.trans hb) (by decide)
  next h =>
    obtain ⟨hb, hsend⟩ := hbegin h
    obtain ⟨payload, hpayload⟩ := Option.isSome_iff_exists.mp (hready hb)
    rw [hsend, hpayload]
    refine ⟨_, _, _, rfl, hinitiated, nofun, ?_⟩
    cases hsent with
    | stays hstable hout =>
      refine .stays ?_ hout
      rw [not_stable.mpr (.inl hb)]
      rfl
    | ends _ hstable =>
      rw [not_stable.mpr (.inl h)] at hstable
      cases hstable
  next h =>
    refine ⟨_, _, _, rfl, hinitiated, fun hb => ?_, hsent⟩
    exact absurd (h.symm.trans hb) (by decide)
  next h =>
    refine ⟨_, _, _, rfl, hinitiated, fun hb => ?_, hsent⟩
    exact absurd (h.symm.trans hb) (by decide)

/-- What one pulse may change for the receiver: a transaction goes on, or the member is
stable afterwards, or it has joined. -/
inductive Received (c c' : Controller P) (t : Transaction) : Prop
  | stays (before : c.stable = false) (catchesUp : ¬c.CatchesUp t) (stable : c'.stable = false)
      (initiated : c'.initiated = c.initiated)
  | idle (stable : c'.stable = true) (initiated : c'.initiated = c.initiated)
      (before : c.stable = true ∨ c.CatchesUp t)
  | joins (before : c.stable = true ∨ c.CatchesUp t) (initiated : c'.initiated = false)
      (stable : c'.stable = false)
  | joinsAbort (joins : c.JoinsAbort t) (initiated : c'.initiated = c.initiated)

theorem catchUp_cases (c : Controller P) (t : Transaction) :
    (c.CatchesUp t ∧ (c.catchUp t).stable = true ∨ ¬c.CatchesUp t ∧ c.catchUp t = c) ∧
      (c.catchUp t).initiated = c.initiated ∧ (c.catchUp t).sendOut = c.sendOut := by
  unfold catchUp
  split
  next h =>
    refine ⟨.inl ⟨h, ?_⟩, ?_⟩
    · split <;> simp_all [stable]
    · split <;> exact ⟨rfl, rfl⟩
  next h => exact ⟨.inr ⟨h, rfl⟩, rfl, rfl⟩

theorem JoinsAbort.before {t : Transaction} (h : c.JoinsAbort t) :
    c.stable = true ∨ c.CatchesUp t := by
  rcases (c.catchUp_cases t).1 with ⟨hcaught, -⟩ | ⟨-, hsame⟩
  · exact .inr hcaught
  · exact .inl (hsame ▸ h.2.1)

/-- During a transaction a pulse can at most abort it. -/
theorem onStatus_busy (t : Transaction) (payload : P) (hc : c.stable = false) :
    (c.onStatus t payload).1 = c ∨ (c.onStatus t payload).1 =
        { c with current := ⟨c.current.id, .abort⟩, votingDuration := 0 } := by
  unfold onStatus
  split
  · unfold onBegin
    rw [if_pos (.inl hc)]
    split
    · split
      · exact .inr rfl
      · exact .inl rfl
    · exact .inl rfl
  · refine .inl ?_
    simp [onCommit, hc]
  · unfold onAbort
    split
    next h =>
      refine .inr ?_
      rcases h with h | h
      · rw [h.2.1]
      · rw [hc] at h
        cases h.1
    next => exact .inl rfl
  · exact .inl rfl
  · exact .inl rfl

theorem onStatus_stable (t : Transaction) (payload : P) (hc : c.stable = true) :
    (c.onStatus t payload).1.sendOut = c.sendOut ∧
      (c.onStatus t payload).1.current.status ≠ .begin ∧ ((c.onStatus t payload).1 = c ∨
        ((c.onStatus t payload).1.initiated = false ∧ (c.onStatus t payload).1.stable = false) ∨
        (t.status = .abort ∧ c.Follows t ∧
          (c.onStatus t payload).1.initiated = c.initiated)) := by
  have hbegin : c.current.status ≠ .begin := by
    intro h
    rw [not_stable.mpr (.inl h)] at hc
    cases hc
  unfold onStatus
  split
  · unfold onBegin
    split
    · split
      · rw [if_neg (by simp [hc])]
        exact ⟨rfl, hbegin, .inl rfl⟩
      · exact ⟨rfl, hbegin, .inl rfl⟩
    · exact ⟨rfl, nofun, .inr (.inl ⟨rfl, rfl⟩)⟩
  · unfold onCommit
    split
    · exact ⟨rfl, nofun, .inr (.inl ⟨rfl, rfl⟩)⟩
    · exact ⟨rfl, hbegin, .inl rfl⟩
  next habort =>
    unfold onAbort
    split
    next h =>
      refine ⟨rfl, nofun, .inr (.inr ⟨habort, ?_, rfl⟩)⟩
      rcases h with h | h
      · rw [hc] at h
        cases h.1
      · exact h.2
    next => exact ⟨rfl, hbegin, .inl rfl⟩
  · exact ⟨rfl, hbegin, .inl rfl⟩
  · exact ⟨rfl, hbegin, .inl rfl⟩

theorem receive_cases (c : Controller P) (t : Transaction) (payload : P) :
    Received c (c.currentTransaction t payload).1 t ∧
      (c.currentTransaction t payload).1.sendOut = c.sendOut ∧
      (c.Ready → (c.currentTransaction t payload).1.Ready) := by
  obtain ⟨hcatch, hinitiated, hsendOut⟩ := c.catchUp_cases t
  have hstable (hs : (c.catchUp t).stable = true) (hbefore : c.stable = true ∨ c.CatchesUp t) :
      Received c (c.currentTransaction t payload).1 t ∧
        (c.currentTransaction t payload).1.sendOut = c.sendOut ∧
        (c.Ready → (c.currentTransaction t payload).1.Ready) := by
    obtain ⟨hout, hbegin, hcases⟩ := onStatus_stable t payload hs
    refine ⟨?_, hout.trans hsendOut, fun _ h => absurd h hbegin⟩
    rcases hcases with h | h | h
    · refine .idle ?_ ?_ hbefore
      · rw [currentTransaction, h, hs]
      · rw [currentTransaction, h, hinitiated]
    · exact .joins hbefore h.1 h.2
    · exact .joinsAbort ⟨h.1, hs, h.2.1⟩ (h.2.2.trans hinitiated)
  rcases hcatch with ⟨hcaught, hs⟩ | ⟨hnot, hsame⟩
  · exact hstable hs (.inr hcaught)
  · cases hc : c.stable with
    | true => exact hstable (by rw [hsame, hc]) (.inl hc)
    | false =>
      rw [currentTransaction, hsame]
      rcases onStatus_busy t payload hc with h | h
      · rw [h]
        exact ⟨.stays hc hnot hc rfl, rfl, id⟩
      · rw [h]
        exact ⟨.stays hc hnot rfl rfl, rfl, fun _ hbegin => by cases hbegin⟩

end Controller

namespace Member
variable {P : Type*}

def new (garbage : Bool) : Member P where
  controller := .new garbage
  started := 0
  mine := none
  outcomeOf := []

/-- A pulse sent; what it pushes is the outcome of the transaction in progress. -/
def sent (s : Member P) (c : Controller P) : Member P where
  controller := c
  started := s.started
  mine := if c.stable then none else s.mine
  outcomeOf := s.outcomeOf ++
    List.replicate (c.sendOut.length - s.controller.sendOut.length) s.mine

def step (s : Member P) : Call P → Option (Member P)
  | .api m =>
    if s.controller.free then
      some { s with
        controller := s.controller.api m
        started := s.started + 1
        mine := some s.started }
    else some { s with controller := s.controller.api m }
  | .outsync => s.controller.outsync.map fun r => s.sent r.1
  | .receive t payload =>
    some { s with
      controller := (s.controller.currentTransaction t payload).1
      mine := if s.controller.stable = true ∨ s.controller.CatchesUp t then none else s.mine }

/-- The outcomes are those of the own transactions, each once and in order, and the
only own transaction without one is in progress. -/
def OneToOne (s : Member P) : Prop :=
  s.outcomeOf.length = s.controller.sendOut.length ∧
    s.outcomeOf = (List.range s.outcomeOf.length).map some ∧
    s.started = s.outcomeOf.length + s.mine.toList.length

instance (s : Member P) : Decidable s.OneToOne :=
  inferInstanceAs (Decidable (_ ∧ _ ∧ _))

/-- With `initiated_` set, a pulse received neither makes the member join in the branch
of TS_ABORT nor takes it out of a transaction. -/
def Keeps (s : Member P) : Call P → Prop
  | .receive t _ => s.controller.initiated = true →
      ¬s.controller.JoinsAbort t ∧ ¬(s.controller.stable = false ∧ s.controller.CatchesUp t)
  | _ => True

instance (s : Member P) : ∀ l, Decidable (s.Keeps l)
  | .api _ => inferInstanceAs (Decidable True)
  | .outsync => inferInstanceAs (Decidable True)
  | .receive _ _ => inferInstanceAs (Decidable (_ → _))

/-- During a transaction `initiated_` says whether it is an own one. -/
structure Inv (s : Member P) : Prop where
  ready : s.controller.Ready
  oneToOne : s.OneToOne
  mine : ∀ n ∈ s.mine, n + 1 = s.started
  idle : s.controller.stable = true → s.mine = none
  flag : s.controller.stable = false → (s.controller.initiated = true ↔ s.mine.isSome)

theorem inv_new (garbage : Bool) : (new (P := P) garbage).Inv where
  ready := nofun
  oneToOne := ⟨rfl, rfl, rfl⟩
  mine := nofun
  idle _ := rfl
  flag h := absurd h (by simp [new, Controller.new, Controller.stable])

variable {s : Member P}

theorem inv_api (hs : s.Inv) (m : P) : ∃ s', s.step (.api m) = some s' ∧ s'.Inv := by
  cases hfree : s.controller.free with
  | false =>
    refine ⟨s, ?_, hs⟩
    simp [step, api, hfree]
  | true =>
    have hstable : s.controller.stable = true := by
      simp only [free, decide_eq_true_eq] at hfree
      exact hfree.1
    obtain ⟨hlength, hrange, hstarted⟩ := hs.oneToOne
    rw [hs.idle hstable] at hstarted
    refine ⟨_, if_pos hfree, ?_⟩
    simp only [api, if_pos hfree]
    constructor
    · exact fun _ => rfl
    · refine ⟨hlength, hrange, ?_⟩
      simpa using hstarted
    · intro n hn
      cases hn
      rfl
    · intro hidle
      cases hidle
    · exact fun _ => ⟨fun _ => rfl, fun _ => rfl⟩

theorem OneToOne.unchanged {s' : Member P} (hs : s.OneToOne)
    (hout : s'.controller.sendOut = s.controller.sendOut) (hof : s'.outcomeOf = s.outcomeOf)
    (hstarted : s'.started = s.started) (hmine : s'.mine = s.mine) : s'.OneToOne := by
  unfold OneToOne
  rw [hout, hof, hstarted, hmine]
  exact hs

/-- The outcome of the own transaction in progress, which is the last one started. -/
theorem OneToOne.pushed {s' : Member P} (hs : s.OneToOne) {n : Nat} {o : Outcome}
    (hn : s.mine = some n) (hlast : n + 1 = s.started)
    (hout : s'.controller.sendOut = s.controller.sendOut ++ [o])
    (hof : s'.outcomeOf = s.outcomeOf ++ [some n]) (hstarted : s'.started = s.started)
    (hmine : s'.mine = none) : s'.OneToOne := by
  obtain ⟨hlength, hrange, hcount⟩ := hs
  rw [hn, Option.toList_some, List.length_singleton] at hcount
  have heq : n = s.outcomeOf.length := by omega
  refine ⟨?_, ?_, ?_⟩
  · rw [hof, hout, List.length_append, List.length_append, hlength]
    rfl
  · rw [hof, List.length_append, List.length_singleton, List.range_succ, List.map_append, ← hrange,
      heq]
    rfl
  · rw [hof, hstarted, hmine, hcount, List.length_append]
    rfl

theorem inv_outsync (hs : s.Inv) : ∃ s', s.step .outsync = some s' ∧ s'.Inv := by
  obtain ⟨c, t, p, hout, hinitiated, hready, hsent⟩ := outsync_cases hs.ready
  refine ⟨s.sent c, by rw [step, hout]; rfl, ?_⟩
  cases hsent with
  | stays hstable hsame =>
    have hmine : (s.sent c).mine = s.mine := by
      cases h : c.stable with
      | true => simp [sent, h, hs.idle (hstable ▸ h)]
      | false => simp [sent, h]
    constructor
    · exact hready
    · exact hs.oneToOne.unchanged hsame (by simp [sent, hsame]) rfl hmine
    · rw [hmine]
      exact hs.mine
    · intro h
      rw [hmine]
      exact hs.idle (hstable ▸ h)
    · intro h
      rw [hmine]
      refine Iff.trans ?_ (hs.flag (hstable ▸ h))
      exact iff_of_eq (congrArg (· = true) hinitiated)
  | ends hbefore hstable o hpush =>
    have hmine : (s.sent c).mine = none := by
      simp [sent, hstable]
    -- The transaction that ends is an own one exactly if an outcome is pushed.
    have hown := hs.flag hbefore
    constructor
    · exact hready
    · cases hm : s.mine with
      | none =>
        have hflag : s.controller.initiated = false := by
          simpa [hm] using hown
        have hsame : c.sendOut = s.controller.sendOut := by
          simpa [hflag] using hpush
        exact hs.oneToOne.unchanged hsame (by simp [sent, hsame]) rfl (hmine.trans hm.symm)
      | some n =>
        have hflag : s.controller.initiated = true := hown.mpr (by rw [hm]; rfl)
        have hpushed : c.sendOut = s.controller.sendOut ++ [o] := by
          simpa [hflag] using hpush
        exact hs.oneToOne.pushed hm (hs.mine n hm) hpushed (by simp [sent, hpushed, hm]) rfl hmine
    · rw [hmine]
      nofun
    · exact fun _ => hmine
    · intro h
      exact absurd (hstable.symm.trans h) nofun

/-- Under the condition a member that joins or catches up has no own transaction in
progress. -/
theorem mine_eq_none (hs : s.Inv) {t : Transaction} {payload : P}
    (hkeeps : s.Keeps (.receive t payload))
    (hbefore : s.controller.stable = true ∨ s.controller.CatchesUp t) : s.mine = none := by
  cases hstable : s.controller.stable with
  | true => exact hs.idle hstable
  | false =>
    have hcaught : s.controller.CatchesUp t := by
      simpa [hstable] using hbefore
    have hflag : s.controller.initiated = false := by
      by_contra h
      have hset : s.controller.initiated = true := by simpa using h
      exact (hkeeps hset).2 ⟨hstable, hcaught⟩
    simpa [hflag] using hs.flag hstable

theorem inv_receive (hs : s.Inv) {t : Transaction} {payload : P}
    (hkeeps : s.Keeps (.receive t payload)) :
    ∃ s', s.step (.receive t payload) = some s' ∧ s'.Inv := by
  obtain ⟨hreceived, hout, hready⟩ := s.controller.receive_cases t payload
  obtain ⟨hlength, hrange, hstarted⟩ := hs.oneToOne
  refine ⟨_, rfl, ?_⟩
  have hnone := mine_eq_none hs hkeeps
  have hsame : (if s.controller.stable = true ∨ s.controller.CatchesUp t then none
      else s.mine) = s.mine := by
    split
    next h => exact (hnone h).symm
    next => rfl
  rw [hsame]
  constructor
  · exact hready hs.ready
  · refine ⟨?_, hrange, hstarted⟩
    exact hlength.trans (congrArg List.length hout).symm
  · exact hs.mine
  · intro hstable
    cases hreceived with
    | stays _ _ hgoes => exact absurd (hstable.symm.trans hgoes) nofun
    | idle _ _ hbefore => exact hnone hbefore
    | joins hbefore => exact hnone hbefore
    | joinsAbort hjoins => exact hnone hjoins.before
  · intro hstable
    cases hreceived with
    | stays hbefore _ _ hinitiated => exact hinitiated ▸ hs.flag hbefore
    | idle hidle => exact absurd (hidle.symm.trans hstable) nofun
    | joins hbefore hinitiated =>
      rw [hinitiated, hnone hbefore]
      exact ⟨nofun, nofun⟩
    | joinsAbort hjoins hinitiated =>
      have hflag : s.controller.initiated = false := by
        by_contra h
        have hset : s.controller.initiated = true := by simpa using h
        exact (hkeeps hset).1 hjoins
      rw [hinitiated, hflag, hnone hjoins.before]
      exact ⟨nofun, nofun⟩

/-- **Outcomes.** In a run that meets the condition the sends get their own outcomes,
and no pulse is without its message. -/
theorem outcomes_own (garbage : Bool) (calls : List (Call P))
    (hkeeps : Core.AllSteps step Keeps (new garbage) calls) :
    ∃ s, Core.run step (new garbage) calls = some s ∧ s.OneToOne := by
  have hstep (s : Member P) (l : Call P) (hs : s.Inv) (hl : s.Keeps l) :
      ∃ s', s.step l = some s' ∧ s'.Inv := by
    cases l with
    | api m => exact inv_api hs m
    | outsync => exact inv_outsync hs
    | receive t payload => exact inv_receive hs hl
  obtain ⟨s, hrun, hinv⟩ := Core.run_total_of hstep (inv_new garbage) hkeeps
  exact ⟨s, hrun, hinv.oneToOne⟩

/-- A member that starts a transaction, sends its pulses and hears the other's vote. -/
def voted : List (Call Nat) :=
  [.api 7, .outsync, .outsync, .receive ⟨1, .commit⟩ 0, .outsync, .outsync, .outsync]

theorem outcomes_own_voted :
    ∃ s, Core.run step (new false) voted = some s ∧ s.OneToOne :=
  outcomes_own false voted (by decide)

/-- After its own transaction the member joins the next one, which two others abort. -/
def abortedByOthers : List (Call Nat) :=
  voted ++ [.receive ⟨2, .abort⟩ 0, .outsync, .outsync, .outsync, .outsync]

/-- An `Aborted` is pushed for the transaction that others started, whatever the memory
of the constructor held. -/
theorem aborted_pushed :
    ¬∀ (garbage : Bool) (calls : List (Call Nat)) (s : Member Nat),
      Core.run step (new garbage) calls = some s → s.OneToOne := by
  intro h
  have hrun : ∃ s, Core.run step (new false) abortedByOthers = some s ∧ ¬s.OneToOne := by
    refine ⟨_, rfl, ?_⟩
    decide
  obtain ⟨s, hs, hnot⟩ := hrun
  exact hnot (h false abortedByOthers s hs)

end Member
end Atcd.Tmcast
